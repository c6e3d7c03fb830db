import Wiring.Json.Node

/-!
# Reading JSON text

Text to nodes, character by character. Reading never fails; a text that does not follow the
grammar gives nodes that say where. Each reader returns what it has not read, which is never
longer than what it was given: that is why reading ends.
-/

namespace Wiring.Json

/-- Blanks between tokens. -/
def isBlank (c : Char) : Bool := c = ' ' || c = '\n' || c = '\t' || c = '\r'

/-- A decimal digit. -/
def isDigit (c : Char) : Bool := '0' ≤ c && c ≤ '9'

/-- The rest of a text: no longer than the text. -/
abbrev Rest (s : List Char) := { r : List Char // r.length ≤ s.length }

namespace Rest

/-- All of a text. -/
def all (s : List Char) : Rest s := ⟨s, Nat.le_refl _⟩

/-- Nothing of a text, once reading it has failed. -/
def nothing (s : List Char) : Rest s := ⟨[], Nat.zero_le _⟩

/-- The rest of a rest. -/
def trans {s : List Char} (r : Rest s) (q : Rest r.val) : Rest s :=
  ⟨q.val, Nat.le_trans q.property r.property⟩

/-- The rest of a text without its first character is a rest of the text. -/
def ofTail {c : Char} {s : List Char} (r : Rest s) : Rest (c :: s) :=
  ⟨r.val, Nat.le_trans r.property (Nat.le_succ _)⟩

/-- The rest after the characters that satisfy a test. -/
def dropWhile (p : Char → Bool) : (s : List Char) → Rest s
  | [] => all []
  | c :: s => if p c then (dropWhile p s).ofTail else all (c :: s)

/-- What follows the first character of a rest is shorter than the text. -/
theorem length_tail {s t : List Char} {c : Char} (r : Rest s) (h : r.val = c :: t) :
    t.length < s.length := by
  have := r.property
  rw [h] at this
  exact this

end Rest

/-- The value of a hexadecimal digit of either case. -/
def hexValue? (c : Char) : Option Nat :=
  if '0' ≤ c && c ≤ '9' then some (c.toNat - '0'.toNat)
  else if 'a' ≤ c && c ≤ 'f' then some (c.toNat - 'a'.toNat + 10)
  else if 'A' ≤ c && c ≤ 'F' then some (c.toNat - 'A'.toNat + 10)
  else none

/-- The code unit of four hexadecimal digits. -/
def codeUnit? (a b c d : Char) : Option Nat := do
  return (((← hexValue? a) * 16 + (← hexValue? b)) * 16 + (← hexValue? c)) * 16 + (← hexValue? d)

/-- The character that an escape of one letter stands for. -/
def escaped? (c : Char) : Option Char :=
  if c = '"' then some '"'
  else if c = '\\' then some '\\'
  else if c = '/' then some '/'
  else if c = 'b' then some '\x08'
  else if c = 'f' then some '\x0c'
  else if c = 'n' then some '\n'
  else if c = 'r' then some '\r'
  else if c = 't' then some '\t'
  else none

/-- What follows the letter of a numeric escape is too short for four digits, by its bytes. -/
def isShort (s : List Char) : Bool := s.foldr (fun c n ↦ c.utf8Size + n) 0 < 4

/-- Read the rest of a string, after its opening quote. -/
def readString (s : List Char) : StringToken × Rest s :=
  match s with
  | [] => (⟨[], some .truncated⟩, .all [])
  | '\\' :: 'u' :: rest =>
    match rest with
    | a :: b :: c :: d :: rest =>
      match codeUnit? a b c d with
      | some n =>
        let (t, r) := readString rest
        ({ t with units := .code n :: t.units }, r.ofTail.ofTail.ofTail.ofTail.ofTail.ofTail)
      | none => (⟨[], some .malformed⟩, .nothing _)
    | short => (⟨[], some (if isShort short then .truncated else .malformed)⟩, .nothing _)
  | '\\' :: e :: rest =>
    match escaped? e with
    | some c =>
      let (t, r) := readString rest
      ({ t with units := .char c :: t.units }, r.ofTail.ofTail)
    | none => (⟨[], some .malformed⟩, .nothing _)
  | ['\\'] => (⟨[], some .truncated⟩, .nothing _)
  | '"' :: rest => (⟨[], none⟩, (Rest.all rest).ofTail)
  | c :: rest =>
    if c.toNat < 0x20 then (⟨[], some .malformed⟩, .nothing _)
    else
      let (t, r) := readString rest
      ({ t with units := .char c :: t.units }, r.ofTail)
termination_by s.length

/-- What is wrong where a digit should stand. -/
def digitFault : List Char → Fault
  | [] => .truncated
  | _ :: _ => .malformed

/-- Read the exponent of a number, if there is one. -/
def readExponent (t : NumberToken) (s : List Char) : Node × Rest s :=
  match s with
  | [] => (.number t, .all [])
  | c :: rest =>
    if c = 'e' || c = 'E' then
      let signed : Rest rest := match rest with
        | [] => .all []
        | sign :: rest => if sign = '+' || sign = '-' then (Rest.all rest).ofTail else .all _
      let digits := signed.val.takeWhile isDigit
      if digits.isEmpty then (.brokenNumber (digitFault signed.val), .nothing _)
      else
        let t := { t with
          exponentNegative := rest.head? = some '-', exponent := digits, hasExponent := true }
        (.number t, (signed.trans (.dropWhile isDigit _)).ofTail)
    else (.number t, .all _)

/-- Read the fraction of a number, if there is one, and what comes after it. -/
def readFraction (t : NumberToken) (s : List Char) : Node × Rest s :=
  match s with
  | '.' :: rest =>
    let digits := rest.takeWhile isDigit
    if digits.isEmpty then (.brokenNumber (digitFault rest), .nothing _)
    else
      let after := Rest.dropWhile isDigit rest
      let (n, r) := readExponent { t with fraction := digits, hasFraction := true } after.val
      (n, (after.trans r).ofTail)
  | s => readExponent t s

/-- Read a number after its sign. A zero stands alone before the point. -/
def readNumber (negative : Bool) (s : List Char) : Node × Rest s :=
  match s with
  | '0' :: rest =>
    if rest.head?.any isDigit then (.brokenNumber .malformed, .nothing _)
    else
      let (n, r) := readFraction { negative, integer := ['0'] } rest
      (n, r.ofTail)
  | s =>
    let digits := s.takeWhile isDigit
    if digits.isEmpty then (.brokenNumber (digitFault s), .nothing _)
    else
      let after := Rest.dropWhile isDigit s
      let (n, r) := readFraction { negative, integer := digits } after.val
      (n, after.trans r)

/-- Read the rest of a word that stands for a value. -/
def readWord (n : Node) : (word s : List Char) → Node × Rest s
  | [], s => (n, .all s)
  | _ :: _, [] => (.brokenWord .truncated, .nothing _)
  | w :: word, c :: s =>
    if w = c then
      let (n, r) := readWord n word s
      (n, r.ofTail)
    else (.brokenWord .malformed, .nothing _)

/-- Read a token that starts with a character. -/
def readToken (c : Char) (s : List Char) : Node × Rest (c :: s) :=
  if c = 'n' then let (n, r) := readWord .null ['u', 'l', 'l'] s; (n, r.ofTail)
  else if c = 't' then let (n, r) := readWord (.bool true) ['r', 'u', 'e'] s; (n, r.ofTail)
  else if c = 'f' then
    let (n, r) := readWord (.bool false) ['a', 'l', 's', 'e'] s
    (n, r.ofTail)
  else if c = '"' then let (t, r) := readString s; (.string t, r.ofTail)
  else if c = '-' then let (n, r) := readNumber true s; (n, r.ofTail)
  else if isDigit c then readNumber false (c :: s)
  else (.missing .malformed, .nothing _)

/-- What comes next in a list of items or members. -/
inductive Next (s : List Char) where
  /-- The list ends here. -/
  | ending (e : Ending) (rest : Rest s)
  /-- Another item or member. -/
  | more (rest : Rest s)

/-- After the opening bracket: the closing one, or the first item or member. -/
def opened (close : Char) (s : List Char) : Next s :=
  let start := Rest.dropWhile isBlank s
  match h : start.val with
  | [] => .ending (.cut false .truncated) (.nothing _)
  | c :: rest =>
    if c = close then
      .ending .closed ⟨rest, Nat.le_of_lt (start.length_tail h)⟩
    else .more start

/-- After an item or a member: the closing bracket, or a comma and another one. -/
def continued (close : Char) (s : List Char) :
    Ending × Rest s ⊕ { r : List Char // r.length < s.length } :=
  let start := Rest.dropWhile isBlank s
  match h : start.val with
  | [] => .inl (.cut false .truncated, .nothing _)
  | c :: rest =>
    have hlt : rest.length < s.length := start.length_tail h
    if c = close then .inl (.closed, ⟨rest, Nat.le_of_lt hlt⟩)
    else if c = ',' then
      match opened close rest with
      | .ending (.cut _ f) _ => .inl (.cut true f, .nothing _)
      | .ending .closed _ => .inl (.cut true .malformed, .nothing _)
      | .more r => .inr ⟨r.val, Nat.lt_of_le_of_lt r.property hlt⟩
    else .inl (.cut false .malformed, .nothing _)

/-- The colon after a key. -/
def colon (s : List Char) : Except Fault (Rest s) :=
  let start := Rest.dropWhile isBlank s
  match h : start.val with
  | [] => .error .truncated
  | c :: rest =>
    if c = ':' then .ok ⟨rest, Nat.le_of_lt (start.length_tail h)⟩
    else .error .malformed

mutual

/-- Read a value. -/
def readValue (s : List Char) : Node × Rest s :=
  let start := Rest.dropWhile isBlank s
  match h : start.val with
  | [] => (.missing .truncated, .nothing _)
  | c :: rest =>
    have hlt := start.length_tail h
    let whole : Rest s := ⟨c :: rest, hlt⟩
    if c = '[' then
      match opened ']' rest with
      | .ending e r => (.array (.done e), whole.trans r.ofTail)
      | .more r =>
        have := r.property
        let (items, q) := readItems r.val
        (.array items, whole.trans (r.trans q).ofTail)
    else if c = '\x7b' then
      match opened '\x7d' rest with
      | .ending e r => (.object (.done e), whole.trans r.ofTail)
      | .more r =>
        have := r.property
        let (members, q) := readMembers r.val
        (.object members, whole.trans (r.trans q).ofTail)
    else
      let (n, r) := readToken c rest
      (n, whole.trans r)
termination_by 4 * s.length

/-- Read an item of an array and those after it. -/
def readItems (s : List Char) : Items × Rest s :=
  let (n, r) := readValue s
  have := r.property
  match continued ']' r.val with
  | .inl (e, q) => (.item n (.done e), r.trans q)
  | .inr q =>
    have := q.property
    let (items, t) := readItems q.val
    (.item n items, r.trans ⟨t.val, Nat.le_trans t.property (Nat.le_of_lt q.property)⟩)
termination_by 4 * s.length + 1

/-- Read a member of an object and those after it. -/
def readMembers (s : List Char) : Members × Rest s :=
  let (key, r) := readValue s
  have := r.property
  match key with
  | .string _ =>
    match colon r.val with
    | .error f => (.member key (.missing f) (.done (.cut false f)), .nothing _)
    | .ok r' =>
      have := r'.property
      let (value, q) := readValue r'.val
      have := q.property
      match continued '\x7d' q.val with
      | .inl (e, t) => (.member key value (.done e), ((r.trans r').trans q).trans t)
      | .inr t =>
        have := t.property
        let (members, u) := readMembers t.val
        (.member key value members,
          ((r.trans r').trans q).trans ⟨u.val, Nat.le_trans u.property (Nat.le_of_lt t.property)⟩)
  | _ => (.member key (.missing .malformed) (.done (.cut false .malformed)), .nothing _)
termination_by 4 * s.length + 1

end

/-- Read a whole text: one value, and nothing but blanks after it. Gives the value and what is
wrong with the text after it. -/
def readText (s : String) : Node × Option Fault :=
  let (n, r) := readValue s.toList
  (n, if r.val.all isBlank then none else some .malformed)

end Wiring.Json
