import Wiring.Proofs.Json.Stands

/-!
# Reading what was written

The reader takes the compact text of a value apart again. Whatever stands after the text, as long as
it can follow a value, the reader stops right there with a node that stands for the value.
-/

namespace Wiring.Json

@[simp] theorem Rest.val_trans {s : List Char} (r : Rest s) (q : Rest r.val) :
    (r.trans q).val = q.val := rfl

@[simp] theorem Rest.val_ofTail {c : Char} {s : List Char} (r : Rest s) :
    (r.ofTail : Rest (c :: s)).val = r.val := rfl

/-- What is left of a text after the characters that satisfy a test. -/
@[simp] theorem Rest.val_dropWhile (p : Char → Bool) (s : List Char) :
    (Rest.dropWhile p s).val = s.dropWhile p := by
  induction s with
  | nil => rfl
  | cons c s ih =>
    rw [Rest.dropWhile, List.dropWhile_cons]
    split
    · exact ih
    · rfl

/-- Nothing is passed over before a character that is not blank. -/
theorem dropWhile_isBlank {c : Char} (h : isBlank c = false) (s : List Char) :
    (Rest.dropWhile isBlank (c :: s)).val = c :: s := by
  rw [Rest.val_dropWhile, List.dropWhile_cons, h]
  rfl

/-! ## Strings -/

/-- The unit stands for the character, whatever comes after it. -/
def Spells (u : StringUnit) (c : Char) : Prop :=
  ∀ ending rest, StringToken.characters ending (u :: rest) =
    (StringToken.characters ending rest).map (c :: ·)

theorem spells_char (c : Char) : Spells (.char c) c := fun _ _ ↦ rfl

/-- A code unit outside the pairs is a character by itself. -/
theorem spells_code {n : Nat} (hhigh : StringToken.isHighSurrogate n = false)
    (hlow : StringToken.isLowSurrogate n = false) : Spells (.code n) (Char.ofNat n) := by
  intro ending rest
  cases rest with
  | nil => cases ending <;> simp [StringToken.characters, hhigh, hlow, Except.map]
  | cons u rest => cases u <;> simp [StringToken.characters, hhigh, hlow]

/-- Reading the rest of a string gives the characters and stops before the rest of the text. -/
def ReadsString (s l rest : List Char) : Prop :=
  StringToken.characters (readString s).1.fault (readString s).1.units = .ok l ∧
    (readString s).2.val = rest

namespace ReadsString

variable {s l rest : List Char}

/-- One more unit is one more character. -/
theorem characters_cons {u : StringUnit} {c : Char} (hu : Spells u c) (h : ReadsString s l rest) :
    StringToken.characters (readString s).1.fault (u :: (readString s).1.units) = .ok (c :: l) := by
  rw [hu, h.1]
  rfl

/-- The closing quote. -/
theorem quote (rest : List Char) : ReadsString ('"' :: rest) [] rest := by
  unfold ReadsString
  rw [readString]
  exact ⟨rfl, rfl⟩

/-- An escape of one letter. -/
theorem letter {e c : Char} (hu : e ≠ 'u') (he : escaped? e = some c)
    (h : ReadsString s l rest) : ReadsString ('\\' :: e :: s) (c :: l) rest := by
  unfold ReadsString
  rw [readString, he]
  · exact ⟨h.characters_cons (spells_char c), h.2⟩
  · exact hu

/-- A numeric escape. -/
theorem numeric {a b c d : Char} {n : Nat} (hn : codeUnit? a b c d = some n)
    (hspells : Spells (.code n) (Char.ofNat n)) (h : ReadsString s l rest) :
    ReadsString ('\\' :: 'u' :: a :: b :: c :: d :: s) (Char.ofNat n :: l) rest := by
  unfold ReadsString
  rw [readString, hn]
  exact ⟨h.characters_cons hspells, h.2⟩

/-- A character that stands for itself. -/
theorem plain {c : Char} (hquote : c ≠ '"') (hbackslash : c ≠ '\\') (hcontrol : ¬ c.toNat < 0x20)
    (h : ReadsString s l rest) : ReadsString (c :: s) (c :: l) rest := by
  unfold ReadsString
  rw [readString, if_neg hcontrol]
  · exact ⟨h.characters_cons (spells_char c), h.2⟩
  · exact fun _ hc _ ↦ hbackslash hc
  · exact fun _ _ hc _ ↦ hbackslash hc
  · exact fun hc _ ↦ hbackslash hc
  · exact hquote

/-- A control character by its two digits. -/
theorem control {c : Char} (hc : c.toNat < 0x20) (h : ReadsString s l rest) :
    ReadsString ('\\' :: 'u' :: '0' :: '0' :: Text.hexDigit (c.toNat / 16) ::
      Text.hexDigit (c.toNat % 16) :: s) (c :: l) rest := by
  have hdigits : ∀ n < 0x20, codeUnit? '0' '0' (Text.hexDigit (n / 16)) (Text.hexDigit (n % 16)) =
      some n := by
    decide
  have hpairs : ∀ n < 0x20, StringToken.isHighSurrogate n = false ∧
      StringToken.isLowSurrogate n = false := by
    decide
  obtain ⟨hhigh, hlow⟩ := hpairs c.toNat hc
  have hread := numeric (hdigits c.toNat hc) (spells_code hhigh hlow) h
  rwa [Char.ofNat_toNat] at hread

/-- A character as it is written. -/
theorem escape (c : Char) (h : ReadsString s l rest) :
    ReadsString (Json.escape c ++ s) (c :: l) rest := by
  fun_cases Json.escape c
  case case8 hcontrol => exact control hcontrol h
  case case9 hquote hbackslash _ _ _ _ _ hcontrol => exact plain hquote hbackslash hcontrol h
  all_goals
    subst c
    exact letter (by decide) rfl h

/-- A whole string after its opening quote. -/
theorem flatMap_escape (l rest : List Char) :
    ReadsString (l.flatMap Json.escape ++ '"' :: rest) l rest := by
  induction l with
  | nil => exact quote rest
  | cons c l ih =>
    rw [List.flatMap_cons, List.append_assoc]
    exact ih.escape c

end ReadsString

/-! ## Numbers and words -/

/-- What can follow a value: nothing, or what separates or closes. -/
def Delimited : List Char → Prop
  | [] => True
  | c :: _ => c = ',' ∨ c = ']' ∨ c = '\x7d'

/-- No digit follows. -/
theorem Delimited.head?_isDigit {rest : List Char} (h : Delimited rest) :
    rest.head?.any isDigit = false := by
  cases rest with
  | nil => rfl
  | cons c rest => rcases h with rfl | rfl | rfl <;> rfl

/-- The digits of a number are what is read as digits. -/
theorem takeWhile_isDigit_append (n : Nat) {rest : List Char} (h : Delimited rest) :
    (digits n ++ rest).takeWhile isDigit = digits n := by
  rw [List.takeWhile_append_of_pos fun _ ↦ isDigit_of_mem_digits]
  cases rest with
  | nil => simp
  | cons c rest =>
    have hc : isDigit c = false := h.head?_isDigit
    simp [hc]

theorem dropWhile_isDigit_append (n : Nat) {rest : List Char} (h : Delimited rest) :
    (digits n ++ rest).dropWhile isDigit = rest := by
  rw [List.dropWhile_append_of_pos fun _ ↦ isDigit_of_mem_digits]
  cases rest with
  | nil => rfl
  | cons c rest =>
    have hc : isDigit c = false := h.head?_isDigit
    simp [hc]

/-- A number has no fraction and no exponent unless they follow. -/
theorem readFraction_of_delimited (t : NumberToken) {rest : List Char} (h : Delimited rest) :
    (readFraction t rest).1 = .number t ∧ (readFraction t rest).2.val = rest := by
  cases rest with
  | nil => exact ⟨rfl, rfl⟩
  | cons c rest => rcases h with rfl | rfl | rfl <;> exact ⟨rfl, rfl⟩

/-- A number after its sign. -/
theorem readNumber_digits (negative : Bool) (n : Nat) {rest : List Char} (h : Delimited rest) :
    (readNumber negative (digits n ++ rest)).1 = .number { negative, integer := digits n } ∧
      (readNumber negative (digits n ++ rest)).2.val = rest := by
  rcases Nat.eq_zero_or_pos n with rfl | hn
  · have hzero : digits 0 = ['0'] := rfl
    obtain ⟨hnode, hrest⟩ := readFraction_of_delimited { negative, integer := ['0'] } h
    rw [hzero, List.cons_append, List.nil_append, readNumber, h.head?_isDigit]
    exact ⟨hnode, hrest⟩
  · obtain ⟨c, l, hcl⟩ := List.exists_cons_of_ne_nil (digits_ne_nil n)
    have hne : c ≠ '0' := head_digits_ne_zero hn hcl
    have hdigits : (digits n).isEmpty = false := by
      rw [hcl]
      rfl
    have hafter : (Rest.dropWhile isDigit (digits n ++ rest)).val = rest := by
      rw [Rest.val_dropWhile, dropWhile_isDigit_append n h]
    have hfraction (s : List Char) (hs : s = rest) (t : NumberToken) :
        (readFraction t s).1 = .number t ∧ (readFraction t s).2.val = rest := by
      subst hs
      exact readFraction_of_delimited t h
    rw [readNumber]
    · rw [takeWhile_isDigit_append n h, hdigits, if_neg Bool.false_ne_true]
      dsimp only
      rw [Rest.val_trans]
      exact hfraction _ hafter _
    · intro s hs
      rw [hcl] at hs
      exact hne (List.cons.inj hs).1

/-- A word that stands for a value. -/
theorem readWord_append (n : Node) (word rest : List Char) :
    (readWord n word (word ++ rest)).1 = n ∧ (readWord n word (word ++ rest)).2.val = rest := by
  induction word with
  | nil => exact ⟨rfl, rfl⟩
  | cons c word ih =>
    rw [List.cons_append, readWord, if_pos rfl]
    exact ih

/-! ## Between values -/

section Between

variable (close : Char) {c : Char} {s t : List Char}

/-- The closing bracket right after the opening one. -/
theorem opened_closed (hclose : isBlank close = false) (hs : s = close :: t) :
    ∃ r : Rest s, opened close s = .ending .closed r ∧ r.val = t := by
  subst hs
  unfold opened
  dsimp only
  split
  · next h => cases (dropWhile_isBlank hclose t).symm.trans h
  · next c rest h =>
    cases (dropWhile_isBlank hclose t).symm.trans h
    rw [if_pos rfl]
    exact ⟨_, rfl, rfl⟩

/-- An item or a member right after the opening bracket. -/
theorem opened_more (hc : isBlank c = false) (hne : c ≠ close) (hs : s = c :: t) :
    ∃ r : Rest s, opened close s = .more r ∧ r.val = s := by
  subst hs
  unfold opened
  dsimp only
  split
  · next h => cases (dropWhile_isBlank hc t).symm.trans h
  · next c rest h =>
    cases (dropWhile_isBlank hc t).symm.trans h
    rw [if_neg hne]
    exact ⟨_, rfl, h⟩

/-- The closing bracket after an item or a member. -/
theorem continued_closed (hclose : isBlank close = false) (hs : s = close :: t) :
    ∃ q, continued close s = .inl (.closed, q) ∧ q.val = t := by
  subst hs
  unfold continued
  dsimp only
  split
  · next h => cases (dropWhile_isBlank hclose t).symm.trans h
  · next c rest h =>
    cases (dropWhile_isBlank hclose t).symm.trans h
    rw [if_pos rfl]
    exact ⟨_, rfl, rfl⟩

/-- A comma and another item or member. -/
theorem continued_more (hclose : close ≠ ',') (hc : isBlank c = false) (hne : c ≠ close)
    (hs : s = ',' :: c :: t) : ∃ q, continued close s = .inr q ∧ q.val = c :: t := by
  subst hs
  unfold continued
  dsimp only
  split
  · next h => cases (dropWhile_isBlank (c := ',') rfl (c :: t)).symm.trans h
  · next d rest h =>
    cases (dropWhile_isBlank (c := ',') rfl (c :: t)).symm.trans h
    obtain ⟨r, hr, hval⟩ := opened_more close hc hne (rfl : c :: t = c :: t)
    rw [if_neg hclose.symm, if_pos rfl]
    split
    · next heq => cases hr.symm.trans heq
    · next heq => cases hr.symm.trans heq
    · next heq =>
      cases hr.symm.trans heq
      exact ⟨_, rfl, hval⟩

/-- The colon after a key. -/
theorem colon_cons (hs : s = ':' :: t) : ∃ r, colon s = .ok r ∧ r.val = t := by
  subst hs
  unfold colon
  dsimp only
  split
  · next h => cases (dropWhile_isBlank (c := ':') rfl t).symm.trans h
  · next c rest h =>
    cases (dropWhile_isBlank (c := ':') rfl t).symm.trans h
    exact ⟨_, rfl, rfl⟩

end Between

/-! ## Values -/

/-- Reading gives a node for the value and stops before the rest of the text. -/
def ReadsValue (s : List Char) (v : Json) (rest : List Char) : Prop :=
  Stands (readValue s).1 v ∧ (readValue s).2.val = rest

/-- Reading gives the items of an array and stops before the rest of the text. -/
def ReadsItems (s : List Char) (l : List Json) (rest : List Char) : Prop :=
  ItemsStand (readItems s).1 l ∧ (readItems s).2.val = rest

/-- Reading gives the members of an object and stops before the rest of the text. -/
def ReadsMembers (s : List Char) (m : List (String × Json)) (rest : List Char) : Prop :=
  MembersStand (readMembers s).1 m ∧ (readMembers s).2.val = rest

/-- A character that a value can start with. -/
def Opens (c : Char) : Prop := isBlank c = false ∧ c ≠ ']' ∧ c ≠ '\x7d'

instance (c : Char) : Decidable (Opens c) :=
  inferInstanceAs (Decidable (isBlank c = false ∧ c ≠ ']' ∧ c ≠ '\x7d'))

variable {c : Char} {s t rest : List Char} {k : String} {v : Json} {l : List Json}
  {m : List (String × Json)}

namespace ReadsValue

/-- A value that is one token. -/
theorem token (hc : isBlank c = false) (harray : c ≠ '[') (hobject : c ≠ '\x7b')
    (hstands : Stands (readToken c s).1 v) (hrest : (readToken c s).2.val = rest) :
    ReadsValue (c :: s) v rest := by
  unfold ReadsValue
  rw [readValue]
  dsimp only
  split
  · next h => cases (dropWhile_isBlank hc s).symm.trans h
  · next c' s' h =>
    cases (dropWhile_isBlank hc s).symm.trans h
    rw [if_neg harray, if_neg hobject]
    exact ⟨hstands, hrest⟩

/-- After an opening bracket comes the closing one or the items. -/
theorem readValue_bracket (s : List Char) : readValue ('[' :: s) =
    match opened ']' s with
    | .ending e r => (.array (.done e), r.ofTail)
    | .more r => (.array (readItems r.val).1, (r.trans (readItems r.val).2).ofTail) := by
  rw [readValue]
  rfl

/-- After an opening brace comes the closing one or the members. -/
theorem readValue_brace (s : List Char) : readValue ('\x7b' :: s) =
    match opened '\x7d' s with
    | .ending e r => (.object (.done e), r.ofTail)
    | .more r => (.object (readMembers r.val).1, (r.trans (readMembers r.val).2).ofTail) := by
  rw [readValue]
  rfl

/-- An array without items. -/
theorem empty_array (rest : List Char) : ReadsValue ('[' :: ']' :: rest) (.array []) rest := by
  obtain ⟨r, hr, hval⟩ := opened_closed ']' rfl (rfl : ']' :: rest = _)
  unfold ReadsValue
  rw [readValue_bracket, hr]
  exact ⟨.array .done, hval⟩

/-- An array with items. -/
theorem array (hc : Opens c) (h : ReadsItems (c :: s) l rest) :
    ReadsValue ('[' :: c :: s) (.array l) rest := by
  obtain ⟨r, hr, hval⟩ := opened_more ']' hc.1 hc.2.1 (rfl : c :: s = _)
  rw [← hval] at h
  unfold ReadsValue
  rw [readValue_bracket, hr]
  exact ⟨.array h.1, h.2⟩

/-- An object without members. -/
theorem empty_object (rest : List Char) :
    ReadsValue ('\x7b' :: '\x7d' :: rest) (.object []) rest := by
  obtain ⟨r, hr, hval⟩ := opened_closed '\x7d' rfl (rfl : '\x7d' :: rest = _)
  unfold ReadsValue
  rw [readValue_brace, hr]
  exact ⟨.object (.refl _) .done, hval⟩

/-- An object with members. -/
theorem object (hc : Opens c) (h : ReadsMembers (c :: s) m rest) :
    ReadsValue ('\x7b' :: c :: s) (.object m) rest := by
  obtain ⟨r, hr, hval⟩ := opened_more '\x7d' hc.1 hc.2.2 (rfl : c :: s = _)
  rw [← hval] at h
  unfold ReadsValue
  rw [readValue_brace, hr]
  exact ⟨.object (.refl _) h.1, h.2⟩

end ReadsValue

namespace ReadsItems

/-- The last item. -/
theorem last (h : ReadsValue s v (']' :: rest)) : ReadsItems s [v] rest := by
  obtain ⟨q, hq, hval⟩ := continued_closed ']' rfl h.2
  unfold ReadsItems
  rw [readItems]
  dsimp only
  rw [hq]
  exact ⟨.item h.1 .done, hval⟩

/-- An item and others after it. -/
theorem more (h : ReadsValue s v (',' :: c :: t)) (hc : Opens c)
    (hrest : ReadsItems (c :: t) l rest) : ReadsItems s (v :: l) rest := by
  obtain ⟨q, hq, hval⟩ := continued_more ']' (by decide) hc.1 hc.2.1 h.2
  unfold ReadsItems
  rw [readItems]
  dsimp only
  rw [hq]
  rw [← hval] at hrest
  exact ⟨.item h.1 hrest.1, hrest.2⟩

end ReadsItems

namespace ReadsMembers

/-- A node that stands for a string is one. -/
theorem exists_key (h : ReadsValue s (.string k) t) :
    ∃ token, (readValue s).1 = .string token ∧ token.value = .ok k := by
  obtain ⟨hkey, -⟩ := h
  cases hn : (readValue s).1 <;> rw [hn] at hkey <;> cases hkey
  exact ⟨_, rfl, ‹_›⟩

/-- The last member. -/
theorem last (hkey : ReadsValue s (.string k) (':' :: t)) (h : ReadsValue t v ('\x7d' :: rest)) :
    ReadsMembers s [(k, v)] rest := by
  obtain ⟨token, htoken, hvalue⟩ := exists_key hkey
  obtain ⟨r, hr, hval⟩ := colon_cons hkey.2
  rw [← hval] at h
  obtain ⟨q, hq, hend⟩ := continued_closed '\x7d' rfl h.2
  unfold ReadsMembers
  rw [readMembers]
  dsimp only
  rw [htoken]
  dsimp only
  rw [hr]
  dsimp only
  rw [hq]
  exact ⟨.member hvalue h.1 .done, hend⟩

/-- A member and others after it. -/
theorem more (hkey : ReadsValue s (.string k) (':' :: t)) {u : List Char}
    (h : ReadsValue t v (',' :: c :: u)) (hc : Opens c) (hrest : ReadsMembers (c :: u) m rest) :
    ReadsMembers s ((k, v) :: m) rest := by
  obtain ⟨token, htoken, hvalue⟩ := exists_key hkey
  obtain ⟨r, hr, hval⟩ := colon_cons hkey.2
  rw [← hval] at h
  obtain ⟨q, hq, hmore⟩ := continued_more '\x7d' (by decide) hc.1 hc.2.2 h.2
  unfold ReadsMembers
  rw [readMembers]
  dsimp only
  rw [htoken]
  dsimp only
  rw [hr]
  dsimp only
  rw [hq]
  rw [← hmore] at hrest
  exact ⟨.member hvalue h.1 hrest.1, hrest.2⟩

end ReadsMembers

/-! ## The text of a value -/

/-- A string. -/
theorem readsValue_renderString (k : String) (rest : List Char) :
    ReadsValue (renderString k ++ rest) (.string k) rest := by
  obtain ⟨hcharacters, hrest⟩ := ReadsString.flatMap_escape k.toList rest
  have hvalue : (readString (k.toList.flatMap escape ++ '"' :: rest)).1.value = .ok k := by
    rw [StringToken.value, hcharacters]
    exact congrArg Except.ok k.ofList_toList
  rw [renderString, List.cons_append, List.cons_append, List.append_assoc]
  exact .token rfl (by decide) (by decide) (.string hvalue) hrest

/-- A digit is none of the other characters. -/
theorem ne_of_isDigit {c d : Char} (hc : isDigit c) (hd : isDigit d = false) : c ≠ d := by
  rintro rfl
  rw [hd] at hc
  cases hc

theorem isBlank_of_isDigit (hc : isDigit c) : isBlank c = false := by
  simp only [isBlank, ne_of_isDigit hc (d := ' ') rfl, ne_of_isDigit hc (d := '\n') rfl,
    ne_of_isDigit hc (d := '\t') rfl, ne_of_isDigit hc (d := '\r') rfl, decide_false, Bool.or_false]

/-- A token that starts with a digit is a number without a sign. -/
theorem readToken_of_isDigit (hc : isDigit c) (s : List Char) :
    readToken c s = readNumber false (c :: s) := by
  simp only [readToken, hc, if_true, ne_of_isDigit hc (d := 'n') rfl,
    ne_of_isDigit hc (d := 't') rfl, ne_of_isDigit hc (d := 'f') rfl,
    ne_of_isDigit hc (d := '"') rfl, ne_of_isDigit hc (d := '-') rfl, if_false]

/-- A token that starts with a minus sign is a number. -/
theorem readToken_minus (s : List Char) :
    readToken '-' s = ((readNumber true s).1, (readNumber true s).2.ofTail) := rfl

/-- The text of a natural number. -/
theorem text_ofNat (n : Nat) : (toString (Int.ofNat n)).toList = digits n := rfl

/-- The text of a negative integer. -/
theorem text_negSucc (n : Nat) : (toString (Int.negSucc n)).toList = '-' :: digits (n + 1) := by
  rw [digits, ← List.singleton_append]
  exact String.toList_append

/-- An integer. -/
theorem readsValue_int (i : Int) (h : Delimited rest) :
    ReadsValue ((toString i).toList ++ rest) (.int i) rest := by
  have hstands : Stands (.number (.ofInt i)) (.int i) := .int i
  cases i with
  | ofNat n =>
    obtain ⟨hnode, hrest⟩ := readNumber_digits false n h
    obtain ⟨c, l, hcl⟩ := List.exists_cons_of_ne_nil (digits_ne_nil n)
    have hc : isDigit c := isDigit_of_mem_digits (n := n) (by simp [hcl])
    have htoken : NumberToken.ofInt (.ofNat n) = { negative := false, integer := digits n } := rfl
    rw [htoken, ← hnode] at hstands
    rw [hcl, List.cons_append, ← readToken_of_isDigit hc] at hstands hrest
    rw [text_ofNat, hcl, List.cons_append]
    exact .token (isBlank_of_isDigit hc) (ne_of_isDigit hc rfl) (ne_of_isDigit hc rfl) hstands hrest
  | negSucc n =>
    obtain ⟨hnode, hrest⟩ := readNumber_digits true (n + 1) h
    have htoken : NumberToken.ofInt (.negSucc n) =
        { negative := true, integer := digits (n + 1) } := by
      simp [NumberToken.ofInt, digits, Int.negSucc_lt_zero]
    rw [htoken, ← hnode] at hstands
    rw [text_negSucc, List.cons_append]
    refine .token rfl (by decide) (by decide) ?_ ?_ <;> rw [readToken_minus]
    · exact hstands
    · rw [Rest.val_ofTail, hrest]

/-- The text of a value starts with a character that a value can start with. -/
theorem render_eq_cons (v : Json) : ∃ c s, v.render = c :: s ∧ Opens c := by
  cases v with
  | null => exact ⟨'n', ['u', 'l', 'l'], rfl, by decide⟩
  | bool b =>
    cases b with
    | false => exact ⟨'f', ['a', 'l', 's', 'e'], rfl, by decide⟩
    | true => exact ⟨'t', ['r', 'u', 'e'], rfl, by decide⟩
  | int i =>
    cases i with
    | ofNat n =>
      obtain ⟨c, l, hcl⟩ := List.exists_cons_of_ne_nil (digits_ne_nil n)
      have hc : isDigit c := isDigit_of_mem_digits (n := n) (by simp [hcl])
      exact ⟨c, l, hcl, isBlank_of_isDigit hc, ne_of_isDigit hc rfl, ne_of_isDigit hc rfl⟩
    | negSucc n => exact ⟨'-', _, text_negSucc n, by decide⟩
  | string s => exact ⟨'"', _, rfl, by decide⟩
  | array l => exact ⟨'[', _, rfl, by decide⟩
  | object m => exact ⟨'\x7b', _, rfl, by decide⟩

/-- The text of items: the first one, a comma, and the others. -/
theorem renderItems_cons_cons (v w : Json) (l : List Json) : render.renderItems (v :: w :: l) =
    v.render ++ ',' :: render.renderItems (w :: l) := rfl

/-- The text of members: the first one, a comma, and the others. -/
theorem renderMembers_cons_cons (k : String) (v : Json) (member : String × Json)
    (m : List (String × Json)) : render.renderMembers ((k, v) :: member :: m) =
      renderString k ++ ':' :: v.render ++ ',' :: render.renderMembers (member :: m) := rfl

/-- The text of items starts as that of the first of them. -/
theorem renderItems_eq_cons (v : Json) (l : List Json) :
    ∃ c s, render.renderItems (v :: l) = c :: s ∧ Opens c := by
  obtain ⟨c, s, hs, hc⟩ := v.render_eq_cons
  cases l with
  | nil => exact ⟨c, s, hs, hc⟩
  | cons w l => exact ⟨c, _, by rw [renderItems_cons_cons, hs, List.cons_append], hc⟩

/-- The text of members starts with a quote. -/
theorem renderMembers_eq_cons (k : String) (v : Json) (m : List (String × Json)) :
    ∃ s, render.renderMembers ((k, v) :: m) = '"' :: s := by
  cases m with
  | nil => exact ⟨_, rfl⟩
  | cons _ _ => exact ⟨_, rfl⟩

mutual

/-- The text of a value is read as the value. -/
theorem readsValue_render : (v : Json) → (rest : List Char) → Delimited rest →
    ReadsValue (v.render ++ rest) v rest
  | .null, rest, _ =>
    have ⟨hnode, hrest⟩ := readWord_append .null ['u', 'l', 'l'] rest
    .token (c := 'n') rfl (by decide) (by decide) (hnode ▸ .null) hrest
  | .bool true, rest, _ =>
    have ⟨hnode, hrest⟩ := readWord_append (.bool true) ['r', 'u', 'e'] rest
    .token (c := 't') rfl (by decide) (by decide) (hnode ▸ .bool true) hrest
  | .bool false, rest, _ =>
    have ⟨hnode, hrest⟩ := readWord_append (.bool false) ['a', 'l', 's', 'e'] rest
    .token (c := 'f') rfl (by decide) (by decide) (hnode ▸ .bool false) hrest
  | .int i, _, h => readsValue_int i h
  | .string s, rest, _ => readsValue_renderString s rest
  | .array [], rest, _ => .empty_array rest
  | .array (v :: l), rest, _ => by
    -- the first item starts right after the bracket, so the reader cannot take it for an end
    obtain ⟨c, s, hs, hc⟩ := renderItems_eq_cons v l
    have h := readsItems_render (v :: l) (List.cons_ne_nil v l) rest
    rw [render, List.cons_append, List.cons_append, List.append_assoc]
    change ReadsValue ('[' :: (render.renderItems (v :: l) ++ ']' :: rest)) _ _
    rw [hs, List.cons_append] at h ⊢
    exact .array hc h
  | .object [], rest, _ => .empty_object rest
  | .object ((k, v) :: m), rest, _ => by
    obtain ⟨s, hs⟩ := renderMembers_eq_cons k v m
    have h := readsMembers_render ((k, v) :: m) (List.cons_ne_nil _ m) rest
    rw [render, List.cons_append, List.cons_append, List.append_assoc]
    change ReadsValue ('\x7b' :: (render.renderMembers ((k, v) :: m) ++ '\x7d' :: rest)) _ _
    rw [hs, List.cons_append] at h ⊢
    exact .object (by decide) h

theorem readsItems_render : (l : List Json) → l ≠ [] → (rest : List Char) →
    ReadsItems (render.renderItems l ++ ']' :: rest) l rest
  | [], hne, _ => absurd rfl hne
  | [v], _, rest => .last (readsValue_render v _ (.inr (.inl rfl)))
  | v :: w :: l, _, rest => by
    -- what follows the first item is a comma, and then the start of the second one
    obtain ⟨c, s, hs, hc⟩ := renderItems_eq_cons w l
    have hrest := readsItems_render (w :: l) (List.cons_ne_nil w l) rest
    have h := readsValue_render v (',' :: (render.renderItems (w :: l) ++ ']' :: rest))
      (.inl rfl)
    rw [hs, List.cons_append] at h hrest
    rw [renderItems_cons_cons, hs, List.append_assoc, List.cons_append, List.cons_append]
    exact .more h hc hrest

theorem readsMembers_render : (m : List (String × Json)) → m ≠ [] → (rest : List Char) →
    ReadsMembers (render.renderMembers m ++ '\x7d' :: rest) m rest
  | [], hne, _ => absurd rfl hne
  | [(k, v)], _, rest => by
    have h := readsValue_render v ('\x7d' :: rest) (.inr (.inr rfl))
    have hkey := readsValue_renderString k (':' :: (v.render ++ '\x7d' :: rest))
    rw [render.renderMembers, List.append_assoc, List.cons_append]
    exact .last hkey h
  | (k, v) :: (k', w) :: m, _, rest => by
    obtain ⟨s, hs⟩ := renderMembers_eq_cons k' w m
    have hrest := readsMembers_render ((k', w) :: m) (List.cons_ne_nil _ m) rest
    have h := readsValue_render v (',' :: ('"' :: s ++ '\x7d' :: rest)) (.inl rfl)
    have hkey := readsValue_renderString k
      (':' :: (v.render ++ ',' :: ('"' :: s ++ '\x7d' :: rest)))
    rw [hs] at hrest
    rw [renderMembers_cons_cons, hs]
    simp only [List.append_assoc, List.cons_append] at h hkey hrest ⊢
    exact .more hkey h (by decide) hrest

end

/-- The text of a value is read to its end, as a node that stands for the value. -/
theorem readText_text (v : Json) : Stands (readText v.text).1 v ∧ (readText v.text).2 = none := by
  have htext : v.text.toList = v.render ++ [] := by
    rw [text, String.toList_ofList, List.append_nil]
  obtain ⟨hstands, hrest⟩ := readsValue_render v [] trivial
  unfold readText
  dsimp only
  rw [htext, hrest]
  exact ⟨hstands, rfl⟩

end Wiring.Json
