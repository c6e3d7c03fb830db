import Wiring.Json.Reader

/-!
# Decoding JSON

Building blocks that read a text as data of a fixed shape. What is wrong is reported from left to
right, be it with the text or with the shape: a value of the wrong kind is refused as soon as it
starts, unless its own token is already at fault.

A record is an object with named fields, or an array of its fields in order. Fields without which
the record has a default may be left out; other members of an object are passed over. A variant is
an object whose only key is its tag, or the tag alone where the variant has no content.
-/

namespace Wiring.Json

/-- Why a text is refused. -/
inductive Refusal where
  /-- The text is not JSON. -/
  | text (fault : Fault)
  /-- The text is JSON of another shape. -/
  | shape
  deriving DecidableEq, Repr

/-- A value of some shape, or the reason against it. -/
abbrev Decoded := Except Refusal

/-- A fault of the text refuses it. -/
def Decoded.ofText {α : Type} (x : Except Fault α) : Decoded α := x.mapError .text

/-- A value that has to be there. -/
def required {α : Type} : Option α → Decoded α
  | some a => .ok a
  | none => .error .shape

namespace Node

/-- Refuse a node that is of another kind than asked for. A scalar is read to its end first. -/
def refuse {α : Type} : Node → Decoded α
  | .null | .bool _ | .array _ | .object _ => .error .shape
  | .number t => .error (if t.isOutOfRange then .text .malformed else .shape)
  | .string t =>
    match t.value with
    | .ok _ => .error .shape
    | .error f => .error (.text f)
  | .brokenWord f | .brokenNumber f | .missing f => .error (.text f)

/-- A string. -/
def asString : Node → Decoded String
  | .string t => Decoded.ofText t.value
  | n => n.refuse

/-- A natural number below a bound, written without a sign. -/
def asNat (bound : Nat) : Node → Decoded Nat
  | .number t =>
    match t.integer? with
    | some (.ofNat n) => if n < bound then .ok n else refuse (.number t)
    | _ => refuse (.number t)
  | n => n.refuse

/-- Nothing. -/
def asNull : Node → Decoded Unit
  | .null => .ok ()
  | n => n.refuse

end Node

/-- A list of items, each decoded in the same way. -/
def Items.decode {α : Type} (f : Node → Decoded α) : Items → Decoded (List α)
  | .done .closed => .ok []
  | .done (.cut _ fault) => .error (.text fault)
  | .item value rest => do
    let a ← f value
    return a :: (← rest.decode f)

/-- A list. -/
def Node.asList {α : Type} (f : Node → Decoded α) : Node → Decoded (List α)
  | .array items => items.decode f
  | n => n.refuse

/-- The key of a member whose key has to be a string. -/
def Node.asKey : Node → Decoded String
  | .string t => Decoded.ofText t.value
  | _ => .error (.text .malformed)

/-- Members by key, each decoded in the same way. -/
def Members.decode {α : Type} (f : Node → Decoded α) : Members → Decoded (List (String × α))
  | .done .closed => .ok []
  | .done (.cut _ fault) => .error (.text fault)
  | .member key value rest => do
    let k ← key.asKey
    let a ← f value
    return (k, a) :: (← rest.decode f)

/-- An object of any keys. -/
def Node.asMap {α : Type} (f : Node → Decoded α) : Node → Decoded (List (String × α))
  | .object members => members.decode f
  | n => n.refuse

/-- A field of a record, and how its value is added to what has been read of the record. -/
structure Field (σ : Type) where
  name : String
  read : σ → Node → Decoded σ

/-- Read the members of a record. A field may be given once. -/
def Members.record {σ : Type} (fields : List (Field σ)) (seen : List String) (s : σ) :
    Members → Decoded σ
  | .done .closed => .ok s
  | .done (.cut _ fault) => .error (.text fault)
  | .member key value rest => do
    let name ← key.asKey
    match fields.find? (·.name = name) with
    | none =>
      Decoded.ofText value.skip
      rest.record fields seen s
    | some field =>
      if seen.contains name then .error .shape
      else
        let s ← field.read s value
        rest.record fields (name :: seen) s

/-- What is wrong with the end of a list that should have no further item. -/
def Ending.afterLast : Ending → Decoded Unit
  | .closed => .ok ()
  | .cut true _ => .error (.text .malformed)
  | .cut false f => .error (.text f)

/-- Read the fields of a record in order, and nothing after the last. -/
def Items.record {σ : Type} : List (Field σ) → σ → Items → Decoded σ
  | [], s, .done e => e.afterLast.map fun _ ↦ s
  | [], _, .item _ _ => .error (.text .malformed)
  | _ :: _, s, .done .closed => .ok s
  | _ :: _, _, .done (.cut _ fault) => .error (.text fault)
  | field :: fields, s, .item value rest => do
    let s ← field.read s value
    rest.record fields s

/-- Read a record from what is known when none of its fields has been read. -/
def Node.record {σ : Type} (fields : List (Field σ)) (s : σ) : Node → Decoded σ
  | .object members => members.record fields [] s
  | .array items => items.record fields s
  | n => n.refuse

/-- A record of one field. -/
def Node.record₁ {α : Type} (a : String × (Node → Decoded α)) (n : Node) : Decoded (Option α) :=
  n.record [⟨a.1, fun _ v ↦ some <$> a.2 v⟩] none

/-- A record of two fields. -/
def Node.record₂ {α β : Type} (a : String × (Node → Decoded α)) (b : String × (Node → Decoded β))
    (n : Node) : Decoded (Option α × Option β) :=
  n.record
    [⟨a.1, fun (_, y) v ↦ (some · , y) <$> a.2 v⟩,
      ⟨b.1, fun (x, _) v ↦ (x, some ·) <$> b.2 v⟩]
    (none, none)

/-- A record of three fields. -/
def Node.record₃ {α β γ : Type} (a : String × (Node → Decoded α))
    (b : String × (Node → Decoded β)) (c : String × (Node → Decoded γ)) (n : Node) :
    Decoded (Option α × Option β × Option γ) :=
  n.record
    [⟨a.1, fun (_, y, z) v ↦ (some ·, y, z) <$> a.2 v⟩,
      ⟨b.1, fun (x, _, z) v ↦ (x, some ·, z) <$> b.2 v⟩,
      ⟨c.1, fun (x, y, _) v ↦ (x, y, some ·) <$> c.2 v⟩]
    (none, none, none)

/-- A record of four fields. -/
def Node.record₄ {α β γ δ : Type} (a : String × (Node → Decoded α))
    (b : String × (Node → Decoded β)) (c : String × (Node → Decoded γ))
    (d : String × (Node → Decoded δ)) (n : Node) :
    Decoded (Option α × Option β × Option γ × Option δ) :=
  n.record
    [⟨a.1, fun (_, y, z, w) v ↦ (some ·, y, z, w) <$> a.2 v⟩,
      ⟨b.1, fun (x, _, z, w) v ↦ (x, some ·, z, w) <$> b.2 v⟩,
      ⟨c.1, fun (x, y, _, w) v ↦ (x, y, some ·, w) <$> c.2 v⟩,
      ⟨d.1, fun (x, y, z, _) v ↦ (x, y, z, some ·) <$> d.2 v⟩]
    (none, none, none, none)

/-- The content of a variant. -/
inductive Content (α : Type) where
  /-- There is none; the tag alone stands for the value. -/
  | empty (a : α)
  | decoded (f : Node → Decoded α)

/-- Find the variant of a tag. -/
def variant {α : Type} (variants : List (String × Content α)) (tag : String) :
    Decoded (Content α) :=
  match variants.find? (·.1 = tag) with
  | some (_, content) => .ok content
  | none => .error .shape

/-- A value of a variant: the tag alone, or an object with the tag as its only key. As in every
object, a key that is no string is a fault of the text, however it goes on. -/
def Node.tagged {α : Type} (variants : List (String × Content α)) : Node → Decoded α
  | .string t => do
    match ← variant variants (← Decoded.ofText t.value) with
    | .empty a => return a
    | .decoded _ => .error .shape
  | .object (.member key value rest) => do
    let a ← match ← variant variants (← key.asKey) with
      | .empty a => value.asNull.map fun _ ↦ a
      | .decoded f => f value
    match rest with
    | .done e => e.afterLast.map fun _ ↦ a
    | .member _ _ _ => .error (.text .malformed)
  | .object (.done .closed) => .error (.text .malformed)
  | .object (.done (.cut _ f)) => .error (.text f)
  | .missing f => .error (.text f)
  | .null | .bool _ | .number _ | .array _ | .brokenWord _ | .brokenNumber _ =>
    .error (.text .malformed)

end Wiring.Json
