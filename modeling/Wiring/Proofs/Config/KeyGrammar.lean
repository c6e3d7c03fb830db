import Wiring.Proofs.Config.LetterCase

/-!
# The grammar of keys

Keys are told by the bytes at fixed offsets, whatever characters a text is made of. A key is read by
a library that knows identifiers of 16 octets, that reads other spellings of them besides, and that
prints them in two ways; what is known of the library is what its documentation promises. Which
texts are keys, and what their canonical form is, comes out the same.
-/

namespace Wiring.Config

namespace IdentityKey

/-! ### Places of a key -/

/-- Where the hyphens stand. -/
def hyphenOffsets : List Nat := [8, 13, 18, 23]

/-- What stands at the offset. -/
def slotAt (n : Nat) : Slot :=
  if n ∈ hyphenOffsets then .hyphen else if n = 19 then .variant else .digit

theorem slots_eq : slots = (List.range 36).map slotAt := by decide

theorem lt_of_mem_hyphenOffsets : ∀ n ∈ hyphenOffsets, n < 36 := by decide

/-- Where there is no hyphen there is a digit. -/
theorem admits_digit_of_slotAt {n : Nat} {c : Char} (hn : n ∉ hyphenOffsets)
    (h : (slotAt n).admits c) : Slot.digit.admits c := by
  rw [slotAt, if_neg hn] at h
  split at h
  · simp only [Slot.admits, Bool.or_eq_true, decide_eq_true_eq] at h
    rcases h with ((((rfl | rfl) | rfl) | rfl) | rfl) | rfl <;> decide
  · exact h

theorem fits_iff_forall₂ {l : List Slot} {cs : List Char} :
    fits l cs ↔ List.Forall₂ (fun s c ↦ s.admits c) l cs := by
  induction l generalizing cs with
  | nil => cases cs <;> simp [fits]
  | cons s l ih => cases cs <;> simp [fits, ih]

/-- Characters fit a key if there are as many as it has places, and each place admits its own. -/
theorem fits_slots_iff {cs : List Char} : fits slots cs ↔
    cs.length = 36 ∧ ∀ n < 36, ∃ c, cs[n]? = some c ∧ (slotAt n).admits c := by
  rw [fits_iff_forall₂, slots_eq, List.forall₂_map_left_iff, List.forall₂_iff_get]
  simp only [List.length_range, List.get_eq_getElem, List.getElem_range]
  constructor
  · rintro ⟨hlen, h⟩
    exact ⟨hlen.symm, fun n hn ↦ ⟨cs[n], List.getElem?_eq_getElem (by omega), h n hn (by omega)⟩⟩
  · rintro ⟨hlen, h⟩
    refine ⟨hlen.symm, fun n hn hn' ↦ ?_⟩
    obtain ⟨c, hc, hadmits⟩ := h n hn
    obtain ⟨_, rfl⟩ := List.getElem?_eq_some_iff.mp hc
    exact hadmits

/-! ### Bytes of a key -/

/-- The bytes of the text. -/
def bytes (s : String) : List UInt8 := s.toByteArray.data.toList

theorem length_bytes (s : String) : (bytes s).length = s.utf8ByteSize := rfl

theorem bytes_eq (s : String) : bytes s = s.toList.flatMap String.utf8EncodeChar := by
  unfold bytes
  rw [← String.utf8Encode_toList, List.utf8Encode, List.toList_data_toByteArray]

/-- No place admits a character that takes more than one byte. -/
theorem Slot.admits_le {s : Slot} {c : Char} (h : s.admits c) : c.val ≤ 127 := by
  rw [UInt32.le_iff_toNat_le]
  cases s with
  | hyphen =>
    obtain rfl : c = '-' := by simpa [admits] using h
    decide
  | digit =>
    simp [admits, isHexDigit, Char.le_def, UInt32.le_iff_toNat_le] at *
    omega
  | variant =>
    simp only [admits, Bool.or_eq_true, decide_eq_true_eq] at h
    rcases h with ((((rfl | rfl) | rfl) | rfl) | rfl) | rfl <;> decide

theorem val_ofUInt8 (b : UInt8) : (Char.ofUInt8 b).val = b.toUInt32 := rfl

/-- A character of one byte is that byte. -/
theorem ofUInt8_of_le {c : Char} (h : c.val ≤ 127) : Char.ofUInt8 c.val.toUInt8 = c := by
  rw [UInt32.le_iff_toNat_le] at h
  have hmod : c.val.toNat % 2 ^ 8 = c.val.toNat :=
    Nat.mod_eq_of_lt (Nat.lt_of_le_of_lt h (by decide))
  apply Char.ext
  rw [← UInt32.toNat_inj, val_ofUInt8, UInt8.toNat_toUInt32, UInt32.toNat_toUInt8, hmod]

/-- A character of several bytes starts with a byte that is no character of one byte. -/
theorem utf8EncodeChar_of_lt {c : Char} (h : 127 < c.val) :
    ∃ b l, String.utf8EncodeChar c = b :: l ∧ 128 ≤ b := by
  have hone : c.utf8Size ≠ 1 := fun hc ↦
    UInt32.not_le.mpr h (Char.utf8Size_eq_one_iff.mp hc)
  have hcases : c.utf8Size = 2 ∨ c.utf8Size = 3 ∨ c.utf8Size = 4 := by
    have := c.utf8Size_pos
    have := c.utf8Size_le_four
    omega
  rcases hcases with h | h | h
  · exact ⟨_, _, String.utf8EncodeChar_eq_cons_cons h,
      UInt8.le_trans (by decide) UInt8.right_le_or⟩
  · exact ⟨_, _, String.utf8EncodeChar_eq_cons_cons_cons h,
      UInt8.le_trans (by decide) UInt8.right_le_or⟩
  · exact ⟨_, _, String.utf8EncodeChar_eq_cons_cons_cons_cons h,
      UInt8.le_trans (by decide) UInt8.right_le_or⟩

/-- Whether a text fits can be told from its bytes, each taken for a character. -/
theorem fits_flatMap_utf8EncodeChar {l : List Slot} {cs : List Char} :
    fits l ((cs.flatMap String.utf8EncodeChar).map Char.ofUInt8) ↔ fits l cs := by
  induction cs generalizing l with
  | nil => rfl
  | cons c cs ih =>
    rw [List.flatMap_cons, List.map_append]
    by_cases hc : c.val ≤ 127
    · rw [String.utf8EncodeChar_eq_singleton (Char.utf8Size_eq_one_iff.mpr hc)]
      rw [List.map_singleton, ofUInt8_of_le hc, List.singleton_append]
      cases l with
      | nil => simp [fits]
      | cons s l => simp [fits, ih]
    -- neither the character nor its first byte is admitted anywhere
    · obtain ⟨b, bs, hbs, hb⟩ := utf8EncodeChar_of_lt (UInt32.not_le.mp hc)
      have hb' : ¬ (Char.ofUInt8 b).val ≤ 127 := by
        rw [val_ofUInt8, UInt32.le_iff_toNat_le, UInt8.toNat_toUInt32]
        exact Nat.not_le.mpr (UInt8.le_iff_toNat_le.mp hb)
      rw [hbs, List.map_cons, List.cons_append]
      cases l with
      | nil => simp [fits]
      | cons s l =>
        simp only [fits, Bool.and_eq_true]
        exact ⟨fun h ↦ absurd (Slot.admits_le h.1) hb', fun h ↦ absurd (Slot.admits_le h.1) hc⟩

/-- The byte is a hexadecimal digit of either case. -/
def IsHexByte (b : UInt8) : Prop :=
  (0x30 ≤ b ∧ b ≤ 0x39) ∨ (0x41 ≤ b ∧ b ≤ 0x46) ∨ (0x61 ≤ b ∧ b ≤ 0x66)

/-- The grammar of keys: 36 bytes, with hyphens at four offsets and hexadecimal digits of either
case at the others, one of which says that the identifier is of the standard variant. -/
structure Grammatical (key : String) : Prop where
  size : key.utf8ByteSize = 36
  hyphens : ∀ n ∈ hyphenOffsets, (bytes key)[n]? = some '-'.toUInt8
  digits : ∀ n < 36, n ∉ hyphenOffsets → ∃ b, (bytes key)[n]? = some b ∧ IsHexByte b
  variant : ∃ b ∈ ['8', '9', 'a', 'b', 'A', 'B'].map Char.toUInt8, (bytes key)[19]? = some b

theorem admits_digit_iff {b : UInt8} : Slot.digit.admits (Char.ofUInt8 b) ↔ IsHexByte b := by
  simp [Slot.admits, isHexDigit, IsHexByte, Char.le_def, val_ofUInt8, UInt32.le_iff_toNat_le,
    UInt8.le_iff_toNat_le]
  omega

theorem admits_hyphen_iff {b : UInt8} :
    Slot.hyphen.admits (Char.ofUInt8 b) ↔ b = '-'.toUInt8 := by
  have hval : '-'.toUInt8 = 45 := by decide
  simp [Slot.admits, Char.ext_iff, val_ofUInt8, ← UInt32.toNat_inj, ← UInt8.toNat_inj, hval]

/-- The bytes of the digits that say that an identifier is of the standard variant. -/
theorem admits_variant_iff {b : UInt8} : Slot.variant.admits (Char.ofUInt8 b) ↔
    b ∈ ['8', '9', 'a', 'b', 'A', 'B'].map Char.toUInt8 := by
  have hval : ['8', '9', 'a', 'b', 'A', 'B'].map Char.toUInt8 = [56, 57, 97, 98, 65, 66] := by
    decide
  simp [Slot.admits, Char.ext_iff, val_ofUInt8, ← UInt32.toNat_inj, ← UInt8.toNat_inj, hval,
    or_assoc]

/-- The keys are the texts of the grammar. -/
theorem isKey_iff_grammatical {key : String} : isKey key ↔ Grammatical key := by
  unfold isKey
  rw [← fits_flatMap_utf8EncodeChar, ← bytes_eq, fits_slots_iff, List.length_map, length_bytes]
  simp only [List.getElem?_map, Option.map_eq_some_iff, exists_exists_and_eq_and]
  constructor
  · rintro ⟨hlen, h⟩
    refine ⟨hlen, fun n hn ↦ ?_, fun n hn hn' ↦ ?_, ?_⟩
    · obtain ⟨b, hb, hadmits⟩ := h n (lt_of_mem_hyphenOffsets n hn)
      rw [slotAt, if_pos hn] at hadmits
      rw [hb, admits_hyphen_iff.mp hadmits]
    · obtain ⟨b, hb, hadmits⟩ := h n hn
      exact ⟨b, hb, admits_digit_iff.mp (admits_digit_of_slotAt hn' hadmits)⟩
    · obtain ⟨b, hb, hadmits⟩ := h 19 (by decide)
      exact ⟨b, admits_variant_iff.mp hadmits, hb⟩
  · intro h
    refine ⟨h.size, fun n hn ↦ ?_⟩
    unfold slotAt
    split
    · next hyphen => exact ⟨_, h.hyphens n hyphen, admits_hyphen_iff.mpr rfl⟩
    · next hyphen =>
      split
      · next hvariant =>
        obtain ⟨b, hb, hget⟩ := h.variant
        exact ⟨b, hvariant ▸ hget, admits_variant_iff.mpr hb⟩
      · obtain ⟨b, hb, hdigit⟩ := h.digits n hn hyphen
        exact ⟨b, hb, admits_digit_iff.mpr hdigit⟩

/-! ### Letter case -/

/-- An upper-case letter is moved by 32, and nothing else is moved. -/
theorem toLower_cases (c : Char) :
    (65 ≤ c.toNat ∧ c.toNat ≤ 90 ∧ c.toLower.toNat = c.toNat + 32) ∨
      ((c.toNat < 65 ∨ 90 < c.toNat) ∧ c.toLower.toNat = c.toNat) := by
  unfold Char.toLower
  split
  · next h =>
    have hlow : 65 ≤ c.toNat := UInt32.le_iff_toNat_le.mp h.1
    have hhigh : c.toNat ≤ 90 := UInt32.le_iff_toNat_le.mp h.2
    have hsum : (c.toNat + 32) % 2 ^ 32 = c.toNat + 32 := Nat.mod_eq_of_lt (by omega)
    exact .inl ⟨hlow, hhigh, (UInt32.toNat_add c.val 32).trans hsum⟩
  · next h =>
    refine .inr ⟨?_, rfl⟩
    by_contra hc
    exact h ⟨UInt32.le_iff_toNat_le.mpr (show 65 ≤ c.toNat by omega),
      UInt32.le_iff_toNat_le.mpr (show c.toNat ≤ 90 by omega)⟩

/-- Texts differ only in letter case if and only if they are the same in lower case. -/
theorem recased_iff {s t : String} : Recased s t ↔ lower t = lower s := by
  refine ⟨Recased.lower_eq, fun h ↦ ?_⟩
  have hmap : List.Forall₂ (· = ·) (s.toList.map Char.toLower) (t.toList.map Char.toLower) := by
    rw [List.forall₂_eq_eq_eq]
    exact (String.ofList_inj.mp h).symm
  rw [List.forall₂_map_left_iff, List.forall₂_map_right_iff] at hmap
  refine hmap.imp fun c d hcd ↦ ?_
  have hnat : c.toLower.toNat = d.toLower.toNat := by rw [hcd]
  simp only [← Char.toNat_inj]
  have := toLower_cases c
  have := toLower_cases d
  omega

/-! ### Digits -/

/-- What a hexadecimal digit of either case stands for. -/
def hexValue? (c : Char) : Option Nat :=
  if '0' ≤ c ∧ c ≤ '9' then some (c.toNat - 48)
  else if 'a' ≤ c ∧ c ≤ 'f' then some (c.toNat - 87)
  else if 'A' ≤ c ∧ c ≤ 'F' then some (c.toNat - 55)
  else none

/-- The digits in lower case. -/
def hexDigits : List Char := "0123456789abcdef".toList

theorem char_le_iff {c d : Char} : c ≤ d ↔ c.toNat ≤ d.toNat := by
  rw [Char.le_def, UInt32.le_iff_toNat_le]
  rfl

/-- What a character stands for, told by its number. -/
theorem hexValue?_eq_some_iff {c : Char} {v : Nat} : hexValue? c = some v ↔
    (48 ≤ c.toNat ∧ c.toNat ≤ 57 ∧ v + 48 = c.toNat) ∨
      (97 ≤ c.toNat ∧ c.toNat ≤ 102 ∧ v + 87 = c.toNat) ∨
      (65 ≤ c.toNat ∧ c.toNat ≤ 70 ∧ v + 55 = c.toNat) := by
  simp only [hexValue?, char_le_iff, Char.reduceToNat]
  split
  · rw [Option.some.injEq]; omega
  · split
    · rw [Option.some.injEq]; omega
    · split
      · rw [Option.some.injEq]; omega
      · simp only [reduceCtorEq, false_iff]; omega

/-- A character stands for what its lower case is the digit of. -/
theorem hexValue?_eq_some_iff_toLower {c : Char} {v : Nat} :
    hexValue? c = some v ↔ v < 16 ∧ c.toLower = hexDigits.getD v '0' := by
  have hdigit : ∀ v < 16, (hexDigits.getD v '0').toNat = if v < 10 then 48 + v else 87 + v := by
    decide
  have := toLower_cases c
  rw [hexValue?_eq_some_iff, ← Char.toNat_inj]
  constructor
  · intro h
    have hv : v < 16 := by omega
    rw [hdigit v hv]
    split <;> omega
  · rintro ⟨hv, h⟩
    rw [hdigit v hv] at h
    split at h <;> omega

theorem isHexDigit_iff {c : Char} : isHexDigit c ↔ ∃ v, hexValue? c = some v := by
  simp only [isHexDigit, hexValue?_eq_some_iff, Bool.or_eq_true, Bool.and_eq_true,
    decide_eq_true_eq, char_le_iff, Char.reduceToNat]
  constructor
  · rintro ((h | h) | h)
    · exact ⟨c.toNat - 48, by omega⟩
    · exact ⟨c.toNat - 87, by omega⟩
    · exact ⟨c.toNat - 55, by omega⟩
  · rintro ⟨v, h⟩
    omega

/-- The standard variant is told by the two high bits of what a digit stands for. -/
theorem Slot.admits_variant_iff_hexValue? {c : Char} :
    variant.admits c ↔ ∃ v, hexValue? c = some v ∧ v / 4 = 2 := by
  simp only [admits, Bool.or_eq_true, decide_eq_true_eq]
  constructor
  · rintro (((((rfl | rfl) | rfl) | rfl) | rfl) | rfl) <;> exact ⟨_, rfl, by decide⟩
  · rintro ⟨v, h, hv⟩
    rw [hexValue?_eq_some_iff] at h
    simp only [← Char.toNat_inj, Char.reduceToNat]
    omega

end IdentityKey

/-! ### The library of identifiers -/

/-- An identifier: 16 octets. -/
abbrev Uuid := Vector UInt8 16

namespace Uuid

open IdentityKey (hyphenOffsets hexDigits hexValue? lower)

/-- The half octets, the high half of each octet first. -/
def nibble (u : Uuid) (i : Nat) : Nat :=
  let octet := (u[i / 2]?.getD 0).toNat
  if i % 2 = 0 then octet / 16 else octet % 16

/-- Which digit stands at an offset that has no hyphen. -/
def digitIndex (n : Nat) : Nat := n - hyphenOffsets.countP (· < n)

/-- The text is the identifier as five hyphenated groups of hexadecimal digits of either case. -/
structure SpelledBy (u : Uuid) (text : String) : Prop where
  length : text.toList.length = 36
  hyphens : ∀ n ∈ hyphenOffsets, text.toList[n]? = some '-'
  digits : ∀ n < 36, n ∉ hyphenOffsets →
    text.toList[n]?.bind hexValue? = some (u.nibble (digitIndex n))

/-- The identifier in its canonical form: hyphenated, with the digits in lower case. -/
def hyphenated (u : Uuid) : String :=
  .ofList <| (List.range 36).map fun n ↦
    if n ∈ hyphenOffsets then '-' else hexDigits.getD (u.nibble (digitIndex n)) '0'

/-- The identifier is of the standard variant: the top bits of the octet at 8 are one and zero. -/
def IsStandard (u : Uuid) : Prop := u[8].toNat / 64 = 2

variable {u : Uuid} {text : String}

theorem nibble_lt (u : Uuid) (i : Nat) : u.nibble i < 16 := by
  have := (u[i / 2]?.getD 0).toNat_lt
  unfold nibble
  dsimp only
  split <;> omega

/-- The spellings of an identifier are the texts that have its canonical form in lower case. -/
theorem spelledBy_iff : u.SpelledBy text ↔ lower text = u.hyphenated := by
  unfold lower hyphenated
  rw [String.ofList_inj]
  constructor
  · intro h
    apply List.ext_getElem
    · rw [List.length_map, List.length_map, List.length_range, h.length]
    · intro n hn hn'
      have hlt : n < 36 := by simpa using hn'
      have hget := List.getElem?_eq_getElem (h.length ▸ hlt : n < text.toList.length)
      rw [List.getElem_map, List.getElem_map, List.getElem_range]
      split
      · next hyphen =>
        have hc := h.hyphens n hyphen
        rw [hget, Option.some.injEq] at hc
        rw [hc]
        decide
      · next hyphen =>
        have hv := h.digits n hlt hyphen
        rw [hget, Option.bind_some] at hv
        exact (IdentityKey.hexValue?_eq_some_iff_toLower.mp hv).2
  · intro h
    have hlen : text.toList.length = 36 := by simpa using congrArg List.length h
    have hget (n : Nat) (hn : n < 36) : ∃ c, text.toList[n]? = some c ∧ c.toLower =
        if n ∈ hyphenOffsets then '-' else hexDigits.getD (u.nibble (digitIndex n)) '0' := by
      have hmap := congrArg (·[n]?) h
      simpa [hn] using hmap
    refine ⟨hlen, fun n hyphen ↦ ?_, fun n hn hyphen ↦ ?_⟩
    · obtain ⟨c, hc, hlower⟩ := hget n (IdentityKey.lt_of_mem_hyphenOffsets n hyphen)
      have hval : '-'.toNat = 45 := rfl
      rw [if_pos hyphen, ← Char.toNat_inj] at hlower
      rw [hc, Option.some.injEq, ← Char.toNat_inj]
      have := IdentityKey.toLower_cases c
      omega
    · obtain ⟨c, hc, hlower⟩ := hget n hn
      rw [if_neg hyphen] at hlower
      rw [hc, Option.bind_some]
      exact IdentityKey.hexValue?_eq_some_iff_toLower.mpr ⟨u.nibble_lt _, hlower⟩

/-- Whether the spelling of an identifier is a key is told by its variant. -/
theorem SpelledBy.isKey_iff (h : u.SpelledBy text) : IdentityKey.isKey text ↔ u.IsStandard := by
  -- the digit at 19 is the high half of the octet at 8
  have hbit : u.nibble (digitIndex 19) / 4 = u[8].toNat / 64 := by
    change u[8].toNat / 16 / 4 = _
    omega
  unfold IdentityKey.isKey IsStandard
  rw [IdentityKey.fits_slots_iff, ← hbit]
  constructor
  · rintro ⟨-, hadmits⟩
    obtain ⟨c, hc, hvariant⟩ := hadmits 19 (by decide)
    obtain ⟨v, hv, htop⟩ := IdentityKey.Slot.admits_variant_iff_hexValue?.mp hvariant
    have hdigit := h.digits 19 (by decide) (by decide)
    rw [hc, Option.bind_some, hv, Option.some.injEq] at hdigit
    rw [← hdigit, htop]
  · intro htop
    refine ⟨h.length, fun n hn ↦ ?_⟩
    unfold IdentityKey.slotAt
    split
    · next hyphen => exact ⟨'-', h.hyphens n hyphen, by decide⟩
    · next hyphen =>
      obtain ⟨c, hc, hv⟩ := Option.bind_eq_some_iff.mp (h.digits n hn hyphen)
      refine ⟨c, hc, ?_⟩
      split
      · next hn => exact IdentityKey.Slot.admits_variant_iff_hexValue?.mpr ⟨_, hv, hn ▸ htop⟩
      · exact IdentityKey.isHexDigit_iff.mpr ⟨_, hv⟩

/-- The offset at which a digit stands. -/
def digitOffset (i : Nat) : Nat := ((List.range 36).filter (· ∉ hyphenOffsets)).getD i 0

theorem digitOffset_digitIndex : ∀ n < 36, n ∉ hyphenOffsets →
    digitIndex n < 32 ∧ digitOffset (digitIndex n) = n := by decide

theorem digitIndex_digitOffset : ∀ i < 32,
    digitOffset i < 36 ∧ digitOffset i ∉ hyphenOffsets ∧ digitIndex (digitOffset i) = i := by decide

/-- What the digit of the text stands for. -/
def valueAt (text : String) (i : Nat) : Nat :=
  (text.toList[digitOffset i]?.bind hexValue?).getD 0

/-- The identifier whose digits stand in the text. -/
def ofText (text : String) : Uuid :=
  .ofFn fun m ↦ .ofNat (16 * valueAt text (2 * m) + valueAt text (2 * m + 1))

theorem valueAt_lt (text : String) (i : Nat) : valueAt text i < 16 := by
  unfold valueAt
  cases h : text.toList[digitOffset i]?.bind hexValue? with
  | none => decide
  | some v =>
    obtain ⟨c, -, hv⟩ := Option.bind_eq_some_iff.mp h
    exact (IdentityKey.hexValue?_eq_some_iff_toLower.mp hv).1

/-- The half octets of the identifier are what the digits stand for. -/
theorem nibble_ofText (text : String) {i : Nat} (hi : i < 32) :
    (ofText text).nibble i = valueAt text i := by
  -- the digit is one of the two of its octet, and neither reaches into the half of the other
  have hhigh := valueAt_lt text (2 * (i / 2))
  have hlow := valueAt_lt text (2 * (i / 2) + 1)
  unfold nibble ofText
  rw [Vector.getElem?_ofFn, dif_pos (by omega), Option.getD_some, UInt8.toNat_ofNat']
  dsimp only
  split
  · next heven =>
    have hvalue : valueAt text i = valueAt text (2 * (i / 2)) := by congr 1; omega
    omega
  · next hodd =>
    have hvalue : valueAt text i = valueAt text (2 * (i / 2) + 1) := by congr 1; omega
    omega

/-- A key spells the identifier whose digits stand in it. -/
theorem spelledBy_ofText (h : IdentityKey.isKey text) : (ofText text).SpelledBy text := by
  obtain ⟨hlen, hadmits⟩ := IdentityKey.fits_slots_iff.mp h
  refine ⟨hlen, fun n hyphen ↦ ?_, fun n hn hyphen ↦ ?_⟩
  · obtain ⟨c, hc, hadmits⟩ := hadmits n (IdentityKey.lt_of_mem_hyphenOffsets n hyphen)
    rw [IdentityKey.slotAt, if_pos hyphen] at hadmits
    rw [hc, of_decide_eq_true hadmits]
  · obtain ⟨hindex, hoffset⟩ := digitOffset_digitIndex n hn hyphen
    obtain ⟨c, hc, hadmits⟩ := hadmits n hn
    obtain ⟨v, hv⟩ :=
      IdentityKey.isHexDigit_iff.mp (IdentityKey.admits_digit_of_slotAt hyphen hadmits)
    rw [nibble_ofText text hindex, valueAt, hoffset, hc, Option.bind_some, hv, Option.getD_some]

/-- A text spells no other identifier. -/
theorem SpelledBy.ofText_eq (h : u.SpelledBy text) : ofText text = u := by
  have hvalue (i : Nat) (hi : i < 32) : valueAt text i = u.nibble i := by
    obtain ⟨hlt, hyphen, hindex⟩ := digitIndex_digitOffset i hi
    rw [valueAt, h.digits _ hlt hyphen, hindex, Option.getD_some]
  apply Vector.ext
  intro m hm
  rw [← UInt8.toNat_inj, ofText, Vector.getElem_ofFn, hvalue _ (by omega), hvalue _ (by omega),
    UInt8.toNat_ofNat']
  have hhigh : u.nibble (2 * m) = u[m].toNat / 16 := by
    simp [nibble, hm]
  have hlow : u.nibble (2 * m + 1) = u[m].toNat % 16 := by
    have hdiv : (2 * m + 1) / 2 = m := by omega
    simp [nibble, hdiv, hm]
  have := u[m].toNat_lt
  rw [hhigh, hlow]
  omega

end Uuid

/-- What is used of a library of identifiers. -/
structure UuidLibrary where
  /-- Reads an identifier. -/
  tryParse : String → Option Uuid
  /-- The identifier is of the standard variant. -/
  isStandard : Uuid → Bool
  /-- Prints the identifier. -/
  print : Uuid → String
  /-- Prints the identifier with hyphens. -/
  printHyphenated : Uuid → String

namespace UuidLibrary

/-- What the documentation of the library promises. Of the texts of other lengths than 36 bytes,
some may be read too. -/
structure Documented (lib : UuidLibrary) : Prop where
  tryParse {text : String} {u : Uuid} (h : text.utf8ByteSize = 36) :
    lib.tryParse text = some u ↔ u.SpelledBy text
  isStandard (u : Uuid) : lib.isStandard u ↔ u.IsStandard
  print (u : Uuid) : lib.print u = u.hyphenated
  printHyphenated (u : Uuid) : lib.printHyphenated u = u.hyphenated

/-- Reads a key: a text of 36 bytes that the library reads as an identifier of the standard
variant. -/
def parseKey (lib : UuidLibrary) (key : String) : Option Uuid :=
  if key.utf8ByteSize ≠ 36 then none else (lib.tryParse key).filter lib.isStandard

variable {lib : UuidLibrary}

/-- A library that reads nothing but hyphenated texts. -/
def hyphenatedOnly : UuidLibrary where
  tryParse text :=
    if IdentityKey.lower text = (Uuid.ofText text).hyphenated then some (.ofText text) else none
  isStandard u := u[8].toNat / 64 = 2
  print := Uuid.hyphenated
  printHyphenated := Uuid.hyphenated

theorem documented_hyphenatedOnly : hyphenatedOnly.Documented where
  tryParse {text u} _ := by
    simp only [hyphenatedOnly, Option.ite_none_right_eq_some, Option.some.injEq,
      ← Uuid.spelledBy_iff]
    constructor
    · rintro ⟨h, rfl⟩
      exact h
    · intro h
      rw [h.ofText_eq]
      exact ⟨h, rfl⟩
  isStandard _ := decide_eq_true_iff
  print _ := rfl
  printHyphenated _ := rfl

/-- What is read as a key are the spellings of identifiers of the standard variant. -/
theorem Documented.parseKey_eq_some_iff (hlib : lib.Documented) {key : String} {u : Uuid} :
    lib.parseKey key = some u ↔ u.SpelledBy key ∧ u.IsStandard := by
  unfold parseKey
  constructor
  · intro h
    split at h
    · simp at h
    · next hsize =>
      obtain ⟨hread, hstandard⟩ := Option.filter_eq_some_iff.mp h
      exact ⟨(hlib.tryParse (not_not.mp hsize)).mp hread, (hlib.isStandard u).mp hstandard⟩
  · rintro ⟨hspelled, hstandard⟩
    have hkey := IdentityKey.isKey_iff_grammatical.mp (hspelled.isKey_iff.mpr hstandard)
    rw [if_neg (not_not.mpr hkey.size), Option.filter_eq_some_iff]
    exact ⟨(hlib.tryParse hkey.size).mpr hspelled, (hlib.isStandard u).mpr hstandard⟩

/-- The canonical form of a key is that of the identifier that is read. -/
theorem Documented.canonical?_eq (hlib : lib.Documented) (key : String) :
    IdentityKey.canonical? key = (lib.parseKey key).map Uuid.hyphenated := by
  unfold IdentityKey.canonical?
  split
  · next hkey =>
    have hspelled := Uuid.spelledBy_ofText hkey
    have hread := hlib.parseKey_eq_some_iff.mpr ⟨hspelled, hspelled.isKey_iff.mp hkey⟩
    rw [hread, Option.map_some, ← Uuid.spelledBy_iff.mp hspelled]
  · next hkey =>
    have hread : lib.parseKey key = none := by
      refine Option.eq_none_iff_forall_ne_some.mpr fun u hu ↦ hkey ?_
      obtain ⟨hspelled, hstandard⟩ := hlib.parseKey_eq_some_iff.mp hu
      exact hspelled.isKey_iff.mpr hstandard
    rw [hread, Option.map_none]

end UuidLibrary

namespace Identity

open IdentityKey (Grammatical Recased lower isKey canonical?)

variable {i j : Identity}

theorem canonicalKey_eq_some_iff {c : String} :
    i.canonicalKey = some c ↔ ∃ key, i.key = some key ∧ Grammatical key ∧ c = lower key := by
  simp only [canonicalKey, canonical?, Option.bind_eq_some_iff, Option.ite_none_right_eq_some,
    IdentityKey.isKey_iff_grammatical, Option.some.injEq, @eq_comm _ c]

theorem sameKey_iff :
    i.sameKey j ↔ ∃ c, i.canonicalKey = some c ∧ j.canonicalKey = some c := by
  unfold sameKey
  cases i.canonicalKey <;> cases j.canonicalKey <;> simp [eq_comm]

/-- Keys are read by one grammar. There is a canonical key for exactly the keys of the grammar, and
it is the key in lower case; it is its own canonical key and the key that normalization leaves. Two
identities have the same key exactly if both keys are of the grammar and differ in letter case only.
Reading keys with any library that does what is documented, and printing them with it in either way,
gives the same canonical key and the same normalized key. -/
theorem canonicalKey_grammar (i j : Identity) :
    (∀ c, i.canonicalKey = some c ↔
      ∃ key, i.key = some key ∧ Grammatical key ∧ c = lower key) ∧
    (∀ c, i.canonicalKey = some c →
      { i with key := some c }.canonicalKey = some c ∧ i.normalize.key = some c) ∧
    (i.sameKey j ↔ ∃ k l, i.key = some k ∧ j.key = some l ∧
      Grammatical k ∧ Grammatical l ∧ Recased k l) ∧
    ∀ lib : UuidLibrary, lib.Documented →
      i.canonicalKey = (i.key.bind lib.parseKey).map lib.print ∧
      i.normalize.key =
        i.key.map fun key ↦ ((lib.parseKey key).map lib.printHyphenated).getD key := by
  refine ⟨fun c ↦ canonicalKey_eq_some_iff, fun c hc ↦ ?_, ?_, fun lib hlib ↦ ⟨?_, ?_⟩⟩
  · obtain ⟨key, hkey, hvalid, rfl⟩ := canonicalKey_eq_some_iff.mp hc
    have hvalid := IdentityKey.isKey_iff_grammatical.mpr hvalid
    refine ⟨canonicalKey_eq_some_iff.mpr ⟨_, rfl, ?_, (IdentityKey.lower_lower key).symm⟩, ?_⟩
    · exact IdentityKey.isKey_iff_grammatical.mp (IdentityKey.isKey_lower hvalid)
    · simp only [normalize, hkey, Option.map_some, canonical?, if_pos hvalid, Option.getD_some]
  · rw [sameKey_iff]
    constructor
    · rintro ⟨c, hi, hj⟩
      obtain ⟨k, hk, hkvalid, rfl⟩ := canonicalKey_eq_some_iff.mp hi
      obtain ⟨l, hl, hlvalid, hsame⟩ := canonicalKey_eq_some_iff.mp hj
      exact ⟨k, l, hk, hl, hkvalid, hlvalid, IdentityKey.recased_iff.mpr hsame.symm⟩
    · rintro ⟨k, l, hk, hl, hkvalid, hlvalid, hsame⟩
      exact ⟨lower k, canonicalKey_eq_some_iff.mpr ⟨k, hk, hkvalid, rfl⟩,
        canonicalKey_eq_some_iff.mpr ⟨l, hl, hlvalid, hsame.lower_eq.symm⟩⟩
  · have hprint : lib.print = Uuid.hyphenated := funext hlib.print
    rw [hprint, canonicalKey, Option.map_bind]
    congr 1
    funext key
    exact hlib.canonical?_eq key
  · have hprint : lib.printHyphenated = Uuid.hyphenated := funext hlib.printHyphenated
    simp only [normalize, hlib.canonical?_eq, hprint]

/-- Two spellings of one key, read with a library that reads nothing but hyphenated texts. -/
theorem canonicalKey_grammar_recased :
    let i : Identity := { key := some "123E4567-e89b-12D3-A456-426614174000" }
    let j : Identity := { key := some "123e4567-E89B-12d3-a456-426614174000" }
    let lib := UuidLibrary.hyphenatedOnly
    lib.Documented ∧ i.canonicalKey = some "123e4567-e89b-12d3-a456-426614174000" ∧ i.sameKey j ∧
    i.normalize.key = i.canonicalKey ∧
    (i.key.bind lib.parseKey).map lib.print = i.canonicalKey := by
  intro i j lib
  have hi : Grammatical "123E4567-e89b-12D3-A456-426614174000" :=
    IdentityKey.isKey_iff_grammatical.mp (by decide)
  have hj : Grammatical "123e4567-E89B-12d3-a456-426614174000" :=
    IdentityKey.isKey_iff_grammatical.mp (by decide)
  have hlib : lib.Documented := UuidLibrary.documented_hyphenatedOnly
  obtain ⟨hcanonical, hnormal, hsame, hread⟩ := canonicalKey_grammar i j
  have hc : i.canonicalKey = some "123e4567-e89b-12d3-a456-426614174000" :=
    (hcanonical _).mpr ⟨_, rfl, hi, by decide⟩
  refine ⟨hlib, hc, ?_, ?_, ?_⟩
  · exact hsame.mpr ⟨_, _, rfl, rfl, hi, hj, IdentityKey.recased_iff.mpr (by decide)⟩
  · rw [hc, (hnormal _ hc).2]
  · exact (hread lib hlib).1.symm

end Identity
end Wiring.Config
