/-!
# Messages

The kinds of message that an application exchanges, and named message types of a known kind.
-/

namespace Wiring

/-- The role of a message within an application. -/
inductive MessageKind where
  | command
  | event
  | timeout
  deriving DecidableEq, Repr

namespace MessageKind

/-- The kind in one word. -/
def text : MessageKind → String
  | command => "command"
  | event => "event"
  | timeout => "timeout"

/-- The kind in one word, after its indefinite article. -/
def withArticle : MessageKind → String
  | event => "an event"
  | command => "a command"
  | timeout => "a timeout"

end MessageKind

/-- A message type whose kind is known, by its qualified name. -/
structure MessageType where
  name : String
  kind : MessageKind
  deriving DecidableEq, Repr

/-- A message type is shown by its name alone. -/
def MessageType.text (t : MessageType) : String := t.name

end Wiring
