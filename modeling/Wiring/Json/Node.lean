import Wiring.Json.Token
import Wiring.Json.Value

/-!
# JSON text as it is read

A text is taken apart as far as it goes. Where it goes wrong or breaks off there is a node that
says so, and nothing after it; so a reader that walks the nodes from left to right meets what is
wrong with the text exactly where it stands, and may find a fault with the content before that.
-/

namespace Wiring.Json

/-- How a list of items or members ends. -/
inductive Ending where
  | closed
  /-- It does not; a comma may have been the last thing read. -/
  | cut (afterComma : Bool) (fault : Fault)
  deriving DecidableEq, Repr

mutual

/-- A piece of text that stands where a value should. -/
inductive Node where
  | null
  | bool (b : Bool)
  | number (t : NumberToken)
  | string (t : StringToken)
  | array (items : Items)
  | object (members : Members)
  /-- A word other than those that stand for values. -/
  | brokenWord (fault : Fault)
  /-- The start of a number that does not go on as one. -/
  | brokenNumber (fault : Fault)
  /-- No value starts here. -/
  | missing (fault : Fault)

/-- The items of an array from some place on. -/
inductive Items where
  | done (ending : Ending)
  | item (value : Node) (rest : Items)

/-- The members of an object from some place on. A key need not be a string in a text that is
malformed. -/
inductive Members where
  | done (ending : Ending)
  | member (key value : Node) (rest : Members)

end

instance : Inhabited Node := ⟨.null⟩

mutual

/-- Read a value for whatever it is: every token has to have a value, and containers nest in
fewer than 128 levels, those around the value included. -/
def Node.read (depth : Nat) : Node → Except Fault Unit
  | .null | .bool _ => .ok ()
  | .number t => if t.isOutOfRange then .error .malformed else .ok ()
  | .string t => t.value.map fun _ ↦ ()
  | .array items => if 127 ≤ depth then .error .malformed else items.read (depth + 1)
  | .object members => if 127 ≤ depth then .error .malformed else members.read (depth + 1)
  | .brokenWord f | .brokenNumber f | .missing f => .error f

/-- Read the items of an array. -/
def Items.read (depth : Nat) : Items → Except Fault Unit
  | .done .closed => .ok ()
  | .done (.cut _ f) => .error f
  | .item value rest => do
    value.read depth
    rest.read depth

/-- Read the members of an object. -/
def Members.read (depth : Nat) : Members → Except Fault Unit
  | .done .closed => .ok ()
  | .done (.cut _ f) => .error f
  | .member (.string t) value rest => do
    discard t.value
    value.read depth
    rest.read depth
  | .member _ _ _ => .error .malformed

end

mutual

/-- Pass over a value that nobody asks for: its tokens need not have values. -/
def Node.skip : Node → Except Fault Unit
  | .null | .bool _ | .number _ => .ok ()
  | .string t => t.skip
  | .array items => items.skip
  | .object members => members.skip
  | .brokenNumber _ => .error .malformed
  | .brokenWord f | .missing f => .error f

/-- Pass over the items of an array. -/
def Items.skip : Items → Except Fault Unit
  | .done .closed => .ok ()
  | .done (.cut _ f) => .error f
  | .item value rest => do
    value.skip
    rest.skip

/-- Pass over the members of an object. -/
def Members.skip : Members → Except Fault Unit
  | .done .closed => .ok ()
  | .done (.cut _ f) => .error f
  | .member (.string t) value rest => do
    t.skip
    value.skip
    rest.skip
  | .member _ _ _ => .error .malformed

end

/-- The node that stands for a value. -/
def toNode : Json → Node
  | null => .null
  | bool b => .bool b
  | int i => .number (.ofInt i)
  | string s => .string (.ofString s)
  | array items => .array (itemsNode items)
  | object members => .object (membersNode members)
where
  itemsNode : List Json → Items
    | [] => .done .closed
    | v :: rest => .item v.toNode (itemsNode rest)
  membersNode : List (String × Json) → Members
    | [] => .done .closed
    | (k, v) :: rest => .member (.string (.ofString k)) v.toNode (membersNode rest)

end Wiring.Json
