import LS8.Listing
import Mathlib

/-!
# The syntax of a byte

`Listing.byte?` reads a byte in three passes: it looks at the underscores of the whole code, cuts a mark
off its start, and throws the underscores away before it reads the rest as a numeral.  What it accepts
is described here by a grammar (`Spells`): a mark, a plus sign and digits, each of the first two
optional and with an optional underscore behind it, and with at most one underscore between neighbouring
digits.  The value is the number that the digits stand for, which a byte has to hold; leading zeros do
not count.

`byte?_eq_some_iff` says that the two agree.  The proof goes through the grammar from the inside out.
For the digits, then for digits behind a sign, and then for these behind a mark, it shows that a code is
of this form exactly when its underscores are placed well and the rest, without them, is what it should
be.  All three rest on one fact about underscores, `underscoresOk_cons`: behind a character that is none,
there are well placed underscores, or there is one underscore and then these.
-/

namespace LS8.Listing

/-! ## The grammar -/

/-- A binary digit as it is written. -/
def digit (b : Bool) : Char := if b then '1' else '0'

/-- The number with these binary digits, the most significant first. -/
def number (bits : List Bool) : ℕ := Nat.ofDigits 2 (bits.reverse.map Bool.toNat)

/-- The digits of a numeral as they are written, with at most one underscore between neighbours. -/
inductive Digits : List Bool → List Char → Prop
  | last (b : Bool) : Digits [b] [digit b]
  | next (b : Bool) {bits : List Bool} {code : List Char} :
      Digits bits code → Digits (b :: bits) (digit b :: code)
  | separated (b : Bool) {bits : List Bool} {code : List Char} :
      Digits bits code → Digits (b :: bits) (digit b :: '_' :: code)

/-- What may stand in front of the digits for a sign. -/
def signs : List String := ["", "+", "+_"]

/-- What may stand in front of the sign to mark a binary numeral. -/
def marks : List String := ["", "0b", "0b_", "0B", "0B_"]

/-- Digits behind a sign, if there is one. -/
def Signed (bits : List Bool) (code : List Char) : Prop :=
  ∃ sign ∈ signs, ∃ digits, code = sign.toList ++ digits ∧ Digits bits digits

/-- A mark, a sign and digits, of which the first two may be missing. -/
def Marked (bits : List Bool) (code : List Char) : Prop :=
  ∃ mark ∈ marks, ∃ signed, code = mark.toList ++ signed ∧ Signed bits signed

/-- The code is a way of writing the byte. -/
def Spells (code : List Char) (v : UInt8) : Prop :=
  ∃ bits, Marked bits code ∧ number bits = v.toNat

/-! ## Underscores -/

/-- The code without its underscores. -/
def bare (code : List Char) : List Char := code.filter (· ≠ '_')

@[simp] theorem bare_nil : bare [] = [] := rfl

@[simp] theorem bare_underscore (code : List Char) : bare ('_' :: code) = bare code := by
  simp [bare]

theorem bare_cons {c : Char} (h : c ≠ '_') (code : List Char) : bare (c :: code) = c :: bare code := by
  simp [bare, h]

theorem head_ne_of_underscoresOk {c : Char} {code : List Char} (h : underscoresOk (c :: code)) :
    c ≠ '_' := by
  rintro rfl
  simp [underscoresOk] at h

theorem eq_nil_of_bare_eq_nil {code : List Char} (hok : underscoresOk code) (h : bare code = []) :
    code = [] := by
  cases code with
  | nil => rfl
  | cons c code =>
    rw [bare_cons (head_ne_of_underscoresOk hok)] at h
    cases h

/-- Behind a character that is no underscore, the underscores are placed well, or there is one more in
front of a rest in which they are. -/
theorem underscoresOk_cons {c : Char} (hc : c ≠ '_') (code : List Char) :
    underscoresOk (c :: code) ↔
      underscoresOk code ∨ ∃ rest, code = '_' :: rest ∧ rest ≠ [] ∧ underscoresOk rest := by
  cases code with
  | nil => simp [underscoresOk, hc]
  | cons d code =>
    by_cases hd : d = '_'
    · subst hd
      cases code with
      | nil => simp [underscoresOk]
      | cons e code => simp [underscoresOk, hc, Ne.symm hc, and_assoc, and_left_comm, @eq_comm _ '_' e]
    · simp [underscoresOk, hc, Ne.symm hc, hd]

/-! ## Digits -/

theorem digit_ne_underscore (b : Bool) : digit b ≠ '_' := by
  cases b <;> decide

theorem Digits.ne_nil {bits : List Bool} {code : List Char} (h : Digits bits code) :
    bits ≠ [] ∧ code ≠ [] := by
  cases h <;> simp

/-- Digits with underscores between them are a code with well placed underscores that has nothing but
the digits otherwise. -/
theorem digits_iff {bits : List Bool} {code : List Char} :
    Digits bits code ↔ underscoresOk code ∧ bare code = bits.map digit ∧ bits ≠ [] := by
  constructor
  · intro h
    induction h with
    | last b => cases b <;> decide
    | next b hrest ih =>
      obtain ⟨hok, hbare, -⟩ := ih
      refine ⟨(underscoresOk_cons (digit_ne_underscore b) _).mpr (.inl hok), ?_, by simp⟩
      rw [bare_cons (digit_ne_underscore b), hbare, List.map_cons]
    | separated b hrest ih =>
      obtain ⟨hok, hbare, -⟩ := ih
      have hsplit := (underscoresOk_cons (digit_ne_underscore b) _).mpr
        (.inr ⟨_, rfl, hrest.ne_nil.2, hok⟩)
      refine ⟨hsplit, ?_, by simp⟩
      rw [bare_cons (digit_ne_underscore b), bare_underscore, hbare, List.map_cons]
  · rintro ⟨hok, hbare, hne⟩
    induction bits generalizing code with
    | nil => exact absurd rfl hne
    | cons b bits ih =>
      cases code with
      | nil => simp at hbare
      | cons c code =>
        have hc : c ≠ '_' := head_ne_of_underscoresOk hok
        rw [bare_cons hc, List.map_cons] at hbare
        obtain ⟨rfl, hrest⟩ := List.cons.inj hbare
        rcases (underscoresOk_cons hc code).mp hok with hok' | ⟨rest, rfl, hne', hok'⟩
        · cases bits with
          | nil =>
            obtain rfl := eq_nil_of_bare_eq_nil hok' hrest
            exact .last b
          | cons b' bits => exact .next b (ih hok' hrest (by simp))
        · rw [bare_underscore] at hrest
          cases bits with
          | nil => exact absurd (eq_nil_of_bare_eq_nil hok' hrest) hne'
          | cons b' bits => exact .separated b (ih hok' hrest (by simp))

/-! ## Sign and mark -/

theorem dropPlus_digits (bits : List Bool) :
    Numeral.dropPlus (bits.map digit) = bits.map digit := by
  cases bits with
  | nil => rfl
  | cons b bits => cases b <;> rfl

theorem dropPlus_of_ne {c : Char} (h : c ≠ '+') (code : List Char) :
    Numeral.dropPlus (c :: code) = c :: code := by
  unfold Numeral.dropPlus
  split
  · next digits heq => exact absurd (List.cons.inj heq).1 h
  · rfl

theorem Signed.ne_nil {bits : List Bool} {code : List Char} (h : Signed bits code) : code ≠ [] := by
  obtain ⟨sign, -, digits, rfl, hdigits⟩ := h
  simp [hdigits.ne_nil.2]

/-- Digits behind a sign are a code with well placed underscores that has nothing but the digits behind
one plus at most. -/
theorem signed_iff {bits : List Bool} {code : List Char} :
    Signed bits code ↔
      underscoresOk code ∧ Numeral.dropPlus (bare code) = bits.map digit ∧ bits ≠ [] := by
  have hplus : '+' ≠ '_' := by decide
  constructor
  · rintro ⟨sign, hsign, digits, rfl, hdigits⟩
    obtain ⟨hok, hbare, hne⟩ := digits_iff.mp hdigits
    simp only [signs, List.mem_cons, List.not_mem_nil, or_false] at hsign
    rcases hsign with rfl | rfl | rfl
    · refine ⟨hok, ?_, hne⟩
      show Numeral.dropPlus (bare digits) = bits.map digit
      rw [hbare, dropPlus_digits]
    · refine ⟨(underscoresOk_cons hplus digits).mpr (.inl hok), ?_, hne⟩
      show Numeral.dropPlus (bare ('+' :: digits)) = bits.map digit
      rw [bare_cons hplus, hbare]
      rfl
    · have hsplit := (underscoresOk_cons hplus ('_' :: digits)).mpr
        (.inr ⟨digits, rfl, hdigits.ne_nil.2, hok⟩)
      refine ⟨hsplit, ?_, hne⟩
      show Numeral.dropPlus (bare ('+' :: '_' :: digits)) = bits.map digit
      rw [bare_cons hplus, bare_underscore, hbare]
      rfl
  · rintro ⟨hok, hbare, hne⟩
    cases code with
    | nil =>
      have hnil : bits = [] := by simpa [Numeral.dropPlus] using hbare.symm
      exact absurd hnil hne
    | cons c code =>
      rw [bare_cons (head_ne_of_underscoresOk hok)] at hbare
      by_cases hc : c = '+'
      · subst hc
        have hrest : bare code = bits.map digit := hbare
        rcases (underscoresOk_cons hplus code).mp hok with hok' | ⟨rest, rfl, -, hok'⟩
        · exact ⟨"+", by simp [signs], code, rfl, digits_iff.mpr ⟨hok', hrest, hne⟩⟩
        · rw [bare_underscore] at hrest
          exact ⟨"+_", by simp [signs], rest, rfl, digits_iff.mpr ⟨hok', hrest, hne⟩⟩
      · rw [dropPlus_of_ne hc, ← bare_cons (head_ne_of_underscoresOk hok)] at hbare
        exact ⟨"", by simp [signs], c :: code, rfl, digits_iff.mpr ⟨hok, hbare, hne⟩⟩

/-- A mark is the digit zero and one of two letters. -/
theorem dropMark_eq (code : List Char) :
    dropMark code = code ∨
      ∃ letter ∈ ['b', 'B'], ∃ rest, code = '0' :: letter :: rest ∧ dropMark code = rest := by
  unfold dropMark
  split
  · exact .inr ⟨'b', by simp, _, rfl, rfl⟩
  · exact .inr ⟨'B', by simp, _, rfl, rfl⟩
  · exact .inl rfl

section
variable {letter : Char} (hletter : letter ∈ ['b', 'B'])
include hletter

theorem dropMark_mark (rest : List Char) : dropMark ('0' :: letter :: rest) = rest := by
  rcases List.mem_pair.mp hletter with rfl | rfl <;> rfl

theorem letter_ne : letter ≠ '_' ∧ ∀ b, digit b ≠ letter := by
  rcases List.mem_pair.mp hletter with rfl | rfl <;> decide

theorem underscoresOk_mark (code : List Char) :
    underscoresOk ('0' :: letter :: code) ↔
      underscoresOk code ∨ ∃ rest, code = '_' :: rest ∧ rest ≠ [] ∧ underscoresOk rest := by
  obtain ⟨hne, -⟩ := letter_ne hletter
  rw [underscoresOk_cons (by decide), underscoresOk_cons hne, or_iff_left]
  rintro ⟨rest, heq, -⟩
  exact hne (List.cons.inj heq).1

/-- Behind a mark there may be an underscore. -/
theorem marked_of_signed {bits : List Bool} {code : List Char} (h : Signed bits code) :
    Marked bits ('0' :: letter :: code) ∧ Marked bits ('0' :: letter :: '_' :: code) := by
  rcases List.mem_pair.mp hletter with rfl | rfl
  · exact ⟨⟨"0b", by simp [marks], code, rfl, h⟩, ⟨"0b_", by simp [marks], code, rfl, h⟩⟩
  · exact ⟨⟨"0B", by simp [marks], code, rfl, h⟩, ⟨"0B_", by simp [marks], code, rfl, h⟩⟩

end

theorem Marked.cases {bits : List Bool} {code : List Char} (h : Marked bits code) :
    Signed bits code ∨ ∃ letter ∈ ['b', 'B'], ∃ signed, Signed bits signed ∧
      (code = '0' :: letter :: signed ∨ code = '0' :: letter :: '_' :: signed) := by
  obtain ⟨mark, hmark, signed, rfl, hsigned⟩ := h
  simp only [marks, List.mem_cons, List.not_mem_nil, or_false] at hmark
  rcases hmark with rfl | rfl | rfl | rfl | rfl
  · exact .inl hsigned
  · exact .inr ⟨'b', by simp, signed, hsigned, .inl rfl⟩
  · exact .inr ⟨'b', by simp, signed, hsigned, .inr rfl⟩
  · exact .inr ⟨'B', by simp, signed, hsigned, .inl rfl⟩
  · exact .inr ⟨'B', by simp, signed, hsigned, .inr rfl⟩

/-- A code with a mark and digits is one with well placed underscores that has nothing but the digits
behind the mark and one plus at most. -/
theorem marked_iff {bits : List Bool} {code : List Char} :
    Marked bits code ↔
      underscoresOk code ∧ Numeral.dropPlus (bare (dropMark code)) = bits.map digit ∧
        bits ≠ [] := by
  constructor
  · intro h
    rcases h.cases with hsigned | ⟨letter, hletter, signed, hsigned, rfl | rfl⟩
    · obtain ⟨hok, hbare, hne⟩ := signed_iff.mp hsigned
      rcases dropMark_eq code with hsame | ⟨letter, hletter, rest, rfl, -⟩
      · rw [hsame]
        exact ⟨hok, hbare, hne⟩
      · -- The letter of a mark would have to be a digit.
        obtain ⟨hunderscore, hdigit⟩ := letter_ne hletter
        rw [bare_cons (by decide), bare_cons hunderscore, dropPlus_of_ne (by decide)] at hbare
        have hmem : letter ∈ bits.map digit := by simp [← hbare]
        obtain ⟨b, -, hb⟩ := List.mem_map.mp hmem
        exact absurd hb (hdigit b)
    · obtain ⟨hok, hbare, hne⟩ := signed_iff.mp hsigned
      refine ⟨(underscoresOk_mark hletter _).mpr (.inl hok), ?_, hne⟩
      rw [dropMark_mark hletter, hbare]
    · obtain ⟨hok, hbare, hne⟩ := signed_iff.mp hsigned
      refine ⟨(underscoresOk_mark hletter _).mpr (.inr ⟨_, rfl, hsigned.ne_nil, hok⟩), ?_, hne⟩
      rw [dropMark_mark hletter, bare_underscore, hbare]
  · rintro ⟨hok, hbare, hne⟩
    rcases dropMark_eq code with hsame | ⟨letter, hletter, rest, rfl, hdrop⟩
    · rw [hsame] at hbare
      exact ⟨"", by simp [marks], code, rfl, signed_iff.mpr ⟨hok, hbare, hne⟩⟩
    · rw [hdrop] at hbare
      rcases (underscoresOk_mark hletter rest).mp hok with hok' | ⟨rest', rfl, -, hok'⟩
      · exact (marked_of_signed hletter (signed_iff.mpr ⟨hok', hbare, hne⟩)).1
      · rw [bare_underscore] at hbare
        exact (marked_of_signed hletter (signed_iff.mpr ⟨hok', hbare, hne⟩)).2

/-! ## The value -/

theorem number_cons (b : Bool) (bits : List Bool) :
    number (b :: bits) = b.toNat * 2 ^ bits.length + number bits := by
  rw [number, List.reverse_cons, List.map_append, Nat.ofDigits_append, number]
  simp [Nat.mul_comm, Nat.add_comm]

/-- Reading digits one after the other gives the number that they stand for. -/
theorem ofDigitChars_digits (bits : List Bool) (n : ℕ) :
    Nat.ofDigitChars 2 (bits.map digit) n = n * 2 ^ bits.length + number bits := by
  induction bits generalizing n with
  | nil => simp [number]
  | cons b bits ih =>
    have hdigit : (digit b).toNat - '0'.toNat = b.toNat := by cases b <;> rfl
    rw [List.map_cons, Nat.ofDigitChars_cons, ih, hdigit, number_cons, List.length_cons]
    ring

theorem isDigitOf_two_iff {c : Char} : Numeral.isDigitOf 2 c ↔ ∃ b, digit b = c := by
  constructor
  · intro h
    simp only [Numeral.isDigitOf, Bool.and_eq_true, decide_eq_true_eq] at h
    have hcases : c.toNat = '0'.toNat ∨ c.toNat = '1'.toNat := by
      have : '1'.toNat = '0'.toNat + 1 := rfl
      omega
    rcases hcases with hzero | hone
    · exact ⟨false, (Char.toNat_inj.mp hzero).symm⟩
    · exact ⟨true, (Char.toNat_inj.mp hone).symm⟩
  · rintro ⟨b, rfl⟩
    cases b <;> decide

theorem all_isDigitOf_two_iff {text : List Char} :
    text.all (Numeral.isDigitOf 2) ↔ ∃ bits : List Bool, bits.map digit = text := by
  rw [List.all_eq_true, ← Set.mem_range]
  simp only [Set.range_list_map, isDigitOf_two_iff]
  rfl

/-- A binary numeral is read if there are digits behind one plus at most, and nothing else, and their
value is within the bound. -/
theorem unsigned?_two_eq_some_iff {bound n : ℕ} {text : List Char} :
    Numeral.unsigned? 2 bound text = some n ↔
      ∃ bits : List Bool, Numeral.dropPlus text = bits.map digit ∧ bits ≠ [] ∧ number bits = n ∧
        n ≤ bound := by
  have hvalue (bits : List Bool) : Nat.ofDigitChars 2 (bits.map digit) 0 = number bits := by
    rw [ofDigitChars_digits, Nat.zero_mul, Nat.zero_add]
  simp only [Numeral.unsigned?]
  constructor
  · intro h
    split_ifs at h with hdigits hbound
    obtain ⟨hne, hall⟩ := hdigits
    obtain ⟨bits, hbits⟩ := all_isDigitOf_two_iff.mp hall
    rw [← hbits, hvalue] at hbound h
    refine ⟨bits, hbits.symm, ?_, Option.some.inj h, Option.some.inj h ▸ hbound⟩
    rintro rfl
    exact hne hbits.symm
  · rintro ⟨bits, hbits, hne, rfl, hbound⟩
    have hdigits : bits.map digit ≠ [] ∧ (bits.map digit).all (Numeral.isDigitOf 2) :=
      ⟨by simpa using hne, all_isDigitOf_two_iff.mpr ⟨bits, rfl⟩⟩
    rw [hbits, if_pos hdigits, hvalue, if_pos hbound]

/-- A code is read as a byte exactly when it is a way of writing that byte. -/
theorem byte?_eq_some_iff {code : List Char} {v : UInt8} : byte? code = some v ↔ Spells code v := by
  unfold byte?
  constructor
  · intro h
    split_ifs at h with hok
    obtain ⟨n, hn, rfl⟩ := Option.map_eq_some_iff.mp h
    obtain ⟨bits, hbits, hne, rfl, hbound⟩ := unsigned?_two_eq_some_iff.mp hn
    have hnumber : (number bits).toUInt8.toNat = number bits :=
      Nat.mod_eq_of_lt (Nat.lt_succ_of_le hbound)
    exact ⟨bits, marked_iff.mpr ⟨hok, hbits, hne⟩, hnumber.symm⟩
  · rintro ⟨bits, hmarked, hnumber⟩
    obtain ⟨hok, hbits, hne⟩ := marked_iff.mp hmarked
    have hbound : v.toNat ≤ 255 := Nat.le_of_lt_succ v.toNat_lt
    have hread := unsigned?_two_eq_some_iff.mpr ⟨bits, hbits, hne, hnumber, hbound⟩
    rw [if_pos hok, Option.map_eq_some_iff]
    exact ⟨v.toNat, hread, by simp⟩

theorem Spells.ne_nil {code : List Char} {v : UInt8} (h : Spells code v) : code ≠ [] := by
  rintro rfl
  have hnone : byte? [] = none := by decide
  rw [byte?_eq_some_iff.mpr h] at hnone
  cases hnone

end LS8.Listing
