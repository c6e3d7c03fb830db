import Wiring.Catalogue
import Wiring.Message

/-!
# Route types

The ways in which a handler deals with a type of message.
-/

namespace Wiring.Config

/-- What a handler does with the messages of a route. -/
inductive RouteType where
  | handlesCommand
  | handlesEvent
  | executesCommand
  | recordsEvent
  | schedulesTimeout
  deriving DecidableEq, Repr

namespace RouteType

/-- Every route type, in order. -/
def all : List RouteType :=
  [handlesCommand, handlesEvent, executesCommand, recordsEvent, schedulesTimeout]

/-- The place of a route type in the order. -/
def rank : RouteType → Nat
  | handlesCommand => 0
  | handlesEvent => 1
  | executesCommand => 2
  | recordsEvent => 3
  | schedulesTimeout => 4

/-- The name of a route type. -/
def text : RouteType → String
  | handlesCommand => "handles-command"
  | handlesEvent => "handles-event"
  | executesCommand => "executes-command"
  | recordsEvent => "records-event"
  | schedulesTimeout => "schedules-timeout"

/-- The kind of the messages of a route. -/
def messageKind : RouteType → MessageKind
  | handlesCommand | executesCommand => .command
  | handlesEvent | recordsEvent => .event
  | schedulesTimeout => .timeout

/-- The handler is the source of the messages. -/
def isOutbound : RouteType → Bool
  | executesCommand | recordsEvent | schedulesTimeout => true
  | handlesCommand | handlesEvent => false

/-- Within one application at most one handler may have such a route for a message type: a
command has one handler, and an event one recorder. -/
def isExclusive : RouteType → Bool
  | handlesCommand | recordsEvent => true
  | handlesEvent | executesCommand | schedulesTimeout => false

instance : LT RouteType := ⟨fun a b ↦ a.rank < b.rank⟩

instance : DecidableLT RouteType := fun a b ↦ inferInstanceAs (Decidable (a.rank < b.rank))

/-- Route types are told apart by their places. -/
theorem rank_inj {a b : RouteType} (h : a.rank = b.rank) : a = b := by
  cases a <;> cases b <;> simp_all [rank]

/-- The list of all route types has every one. -/
theorem mem_all (t : RouteType) : t ∈ all := by
  cases t <;> simp [all]

end RouteType

/-- A route type together with a message type name: what a route is about. -/
structure RouteKey where
  routeType : RouteType
  messageTypeName : String
  deriving DecidableEq, Repr

namespace RouteKey

/-- Route keys are ordered by route type, then by name. -/
def before (a b : RouteKey) : Prop :=
  a.routeType < b.routeType ∨ a.routeType = b.routeType ∧ a.messageTypeName < b.messageTypeName

instance : LT RouteKey := ⟨before⟩

instance : DecidableLT RouteKey := fun a b ↦
  inferInstanceAs (Decidable (a.routeType < b.routeType ∨
    a.routeType = b.routeType ∧ a.messageTypeName < b.messageTypeName))

/-- The order composes. -/
private theorem before_trans {a b c : RouteKey} (hab : a < b) (hbc : b < c) : a < c := by
  rcases hab with hab | ⟨hab, hab'⟩ <;> rcases hbc with hbc | ⟨hbc, hbc'⟩
  · exact Or.inl (Nat.lt_trans hab hbc)
  · exact Or.inl (hbc ▸ hab)
  · exact Or.inl (hab ▸ hbc)
  · exact Or.inr ⟨hab.trans hbc, String.lt_trans hab' hbc'⟩

/-- Route keys that are not ordered either way are equal. -/
private theorem before_connected {a b : RouteKey} (hlt : ¬ a < b) (hne : ¬ a = b) : b < a := by
  by_cases ht : a.routeType = b.routeType
  · refine Or.inr ⟨ht.symm, KeyOrder.connected (fun h ↦ hlt (Or.inr ⟨ht, h⟩)) fun h ↦ hne ?_⟩
    cases a
    cases b
    simp_all
  · have h1 : ¬ a.routeType.rank < b.routeType.rank := fun h ↦ hlt (Or.inl h)
    have h2 : a.routeType.rank ≠ b.routeType.rank := fun h ↦ ht (RouteType.rank_inj h)
    exact Or.inl (show b.routeType.rank < a.routeType.rank by omega)

instance : KeyOrder RouteKey where
  trans := before_trans
  connected := before_connected

/-- No route key comes before itself. -/
theorem lt_irrefl (about : RouteKey) : ¬ about < about := by
  rintro (h | ⟨-, h⟩)
  · exact Nat.lt_irrefl _ h
  · exact String.lt_irrefl _ h

instance : Keyed RouteKey RouteKey := ⟨id⟩

end RouteKey
end Wiring.Config
