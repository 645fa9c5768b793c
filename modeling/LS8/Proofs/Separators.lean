import LS8.Proofs.ListingLayout

/-!
# Where underscores may stand

Underscores separate digits, and one may stand behind the mark of a binary numeral.  A code that is read
as a byte has its underscores in these places, and in one more: behind a plus sign.  The checks of
`underscoresOk` see to it that no underscore stands at an end of the code or next to another one.  They do
not ask which characters it stands between.  Most of the wrong ones are turned down later, because they
are no digits, but a plus sign is not, since a numeral may start with one.

An underscore is described here by the text in front of it and the text behind it.  Its place is found in
the grammar of a byte, from the inside out as in `ByteSyntax`: among digits, among digits behind a sign,
and among all that behind a mark.  `Spells.separated_iff` then says that it takes a plus sign with an
underscore behind it to misplace an underscore in a byte, and nothing else does.
-/

namespace LS8.Listing

variable {before after text : List Char} {bits : List Bool} {v : UInt8}

/-! ## Places -/

/-- An underscore between these two texts stands between two digits. -/
def BetweenDigits (before after : List Char) : Prop :=
  ∃ front left right rest, before = front ++ [digit left] ∧ after = digit right :: rest

/-- An underscore behind this text stands behind the mark of a binary numeral. -/
def BehindMark (before : List Char) : Prop := before = ['0', 'b'] ∨ before = ['0', 'B']

/-- An underscore behind this text stands behind a plus sign. -/
def BehindPlus (before : List Char) : Prop := ∃ front, before = front ++ ['+']

/-- Every underscore of a code stands between two digits or behind the mark. -/
def Separated (text : List Char) : Prop :=
  ∀ before after, text = before ++ '_' :: after → BetweenDigits before after ∨ BehindMark before

theorem BetweenDigits.append_left (h : BetweenDigits before after) (start : List Char) :
    BetweenDigits (start ++ before) after := by
  obtain ⟨front, left, right, rest, rfl, rfl⟩ := h
  exact ⟨start ++ front, left, right, rest, (List.append_assoc ..).symm, rfl⟩

theorem BehindPlus.append_left (h : BehindPlus before) (start : List Char) :
    BehindPlus (start ++ before) := by
  obtain ⟨front, rfl⟩ := h
  exact ⟨start ++ front, (List.append_assoc ..).symm⟩

/-- Neither a digit nor the letter of a mark is a plus sign. -/
theorem not_behindPlus (h : BetweenDigits before after ∨ BehindMark before) : ¬ BehindPlus before := by
  rintro ⟨front, hplus⟩
  have hlast : before.getLast? = some '+' := by rw [hplus, List.getLast?_concat]
  rcases h with ⟨front', left, right, rest, rfl, -⟩ | rfl | rfl
  · rw [List.getLast?_concat, Option.some.injEq] at hlast
    cases left <;> exact absurd hlast (by decide)
  · exact absurd hlast (by decide)
  · exact absurd hlast (by decide)

/-! ## The underscores of a byte -/

/-- Behind another character, the underscores are those of the rest. -/
theorem exists_of_cons_eq {c : Char} (hc : c ≠ '_') (h : c :: text = before ++ '_' :: after) :
    ∃ start, before = c :: start ∧ text = start ++ '_' :: after := by
  cases before with
  | nil => exact absurd (List.cons.inj h).1 hc
  | cons d start =>
    obtain ⟨rfl, hrest⟩ := List.cons.inj h
    exact ⟨start, rfl, hrest⟩

/-- Behind an underscore, there are that one and those of the rest. -/
theorem cases_of_underscore_eq (h : '_' :: text = before ++ '_' :: after) :
    before = [] ∧ after = text ∨ ∃ start, before = '_' :: start ∧ text = start ++ '_' :: after := by
  cases before with
  | nil => exact .inl ⟨rfl, (List.cons.inj h).2.symm⟩
  | cons d start =>
    obtain ⟨rfl, hrest⟩ := List.cons.inj h
    exact .inr ⟨start, rfl, hrest⟩

theorem Digits.exists_head (h : Digits bits text) : ∃ b rest, text = digit b :: rest := by
  cases h with
  | last b | next b | separated b => exact ⟨b, _, rfl⟩

/-- Underscores among digits have a digit on either side. -/
theorem Digits.place (h : Digits bits text) (hsplit : text = before ++ '_' :: after) :
    BetweenDigits before after := by
  induction h generalizing before with
  | last b =>
    obtain ⟨start, -, hrest⟩ := exists_of_cons_eq (digit_ne_underscore b) hsplit
    simp at hrest
  | next b _ ih =>
    obtain ⟨start, rfl, hrest⟩ := exists_of_cons_eq (digit_ne_underscore b) hsplit
    exact (ih hrest).append_left [digit b]
  | separated b hdigits ih =>
    obtain ⟨start, rfl, hrest⟩ := exists_of_cons_eq (digit_ne_underscore b) hsplit
    rcases cases_of_underscore_eq hrest with ⟨rfl, rfl⟩ | ⟨start, rfl, hmore⟩
    · obtain ⟨right, rest, rfl⟩ := hdigits.exists_head
      exact ⟨[], b, right, rest, rfl, rfl⟩
    · exact (ih hmore).append_left [digit b, '_']

/-- A sign adds a place for an underscore, the one behind it. -/
theorem Signed.place (h : Signed bits text) (hsplit : text = before ++ '_' :: after) :
    BetweenDigits before after ∨ BehindPlus before := by
  have hplus : '+' ≠ '_' := by decide
  obtain ⟨sign, hsign, digits, rfl, hdigits⟩ := h
  simp only [signs, List.mem_cons, List.not_mem_nil, or_false] at hsign
  rcases hsign with rfl | rfl | rfl
  · exact .inl (hdigits.place hsplit)
  · obtain ⟨start, rfl, hrest⟩ := exists_of_cons_eq hplus hsplit
    exact .inl ((hdigits.place hrest).append_left ['+'])
  · obtain ⟨start, rfl, hrest⟩ := exists_of_cons_eq hplus hsplit
    rcases cases_of_underscore_eq hrest with ⟨rfl, -⟩ | ⟨start, rfl, hmore⟩
    · exact .inr ⟨[], rfl⟩
    · exact .inl ((hdigits.place hmore).append_left ['+', '_'])

/-- A mark adds another one. -/
theorem Marked.place (h : Marked bits text) (hsplit : text = before ++ '_' :: after) :
    BetweenDigits before after ∨ BehindMark before ∨ BehindPlus before := by
  have hzero : '0' ≠ '_' := by decide
  -- What stands in front of the mark's rest changes no place in it.
  have hbehind {signed start : List Char} (front : List Char) (hsigned : Signed bits signed)
      (hrest : signed = start ++ '_' :: after) :
      BetweenDigits (front ++ start) after ∨ BehindMark (front ++ start) ∨
        BehindPlus (front ++ start) :=
    (hsigned.place hrest).imp (·.append_left front) fun h => .inr (h.append_left front)
  rcases h.cases with hsigned | ⟨letter, hletter, signed, hsigned, rfl | rfl⟩
  · exact hbehind [] hsigned hsplit
  · obtain ⟨hne, -⟩ := letter_ne hletter
    obtain ⟨start, rfl, hrest⟩ := exists_of_cons_eq hzero hsplit
    obtain ⟨start, rfl, hmore⟩ := exists_of_cons_eq hne hrest
    exact hbehind ['0', letter] hsigned hmore
  · obtain ⟨hne, -⟩ := letter_ne hletter
    obtain ⟨start, rfl, hrest⟩ := exists_of_cons_eq hzero hsplit
    obtain ⟨start, rfl, hmore⟩ := exists_of_cons_eq hne hrest
    rcases cases_of_underscore_eq hmore with ⟨rfl, -⟩ | ⟨start, rfl, hlast⟩
    · rcases List.mem_pair.mp hletter with rfl | rfl
      · exact .inr (.inl (.inl rfl))
      · exact .inr (.inl (.inr rfl))
    · exact hbehind ['0', letter, '_'] hsigned hlast

theorem Spells.place (h : Spells text v) (hsplit : text = before ++ '_' :: after) :
    BetweenDigits before after ∨ BehindMark before ∨ BehindPlus before := by
  obtain ⟨bits, hmarked, -⟩ := h
  exact hmarked.place hsplit

/-- A byte has its underscores in the right places unless there is one behind a plus sign. -/
theorem Spells.separated_iff (h : Spells text v) : Separated text ↔ ¬ ['+', '_'] <:+: text := by
  constructor
  · rintro hseparated ⟨front, after, rfl⟩
    have hsplit : front ++ ['+', '_'] ++ after = front ++ ['+'] ++ '_' :: after := by simp
    exact not_behindPlus (hseparated _ _ hsplit) ⟨front, rfl⟩
  · rintro hnone before after rfl
    rcases h.place rfl with hdigits | hmark | ⟨front, rfl⟩
    · exact .inl hdigits
    · exact .inr hmark
    · exact absurd ⟨front, after, by simp⟩ hnone

/-! ## Listings -/

/-- **Underscores are accepted where the format has them, and behind a plus sign.**  Each underscore in
the code of a line that adds a byte stands between two digits, behind the mark or behind a plus sign.  All
of them stand in the first two places exactly if the code does not have a plus sign with an underscore
behind it.  So a line without that sequence that has an underscore anywhere else adds no byte. -/
theorem separated_iff_no_signed_underscore (source : String) :
    ∀ line ∈ Text.lines source.toList,
      (∀ v, (Line.ofText line).byte? = some v →
        (∀ before after, code line = before ++ '_' :: after →
          BetweenDigits before after ∨ BehindMark before ∨ BehindPlus before) ∧
        (Separated (code line) ↔ ¬ ['+', '_'] <:+: code line)) ∧
      (¬ Separated (code line) → ¬ ['+', '_'] <:+: code line → (Line.ofText line).byte? = none) := by
  intro line _
  rw [byte?_ofText]
  refine ⟨fun v hv => ?_, fun hmisplaced hnone => ?_⟩
  · have hspells : Spells (code line) v := byte?_eq_some_iff.mp hv
    exact ⟨fun before after hsplit => hspells.place hsplit, hspells.separated_iff⟩
  · rw [Option.eq_none_iff_forall_ne_some]
    intro v hv
    exact hmisplaced ((byte?_eq_some_iff.mp hv).separated_iff.mpr hnone)

/-- An underscore behind the mark, and one behind the last digit, with which a line adds no byte. -/
theorem separated_iff_no_signed_underscore_mark :
    let source := "0b_1\n1_\n"
    let marked := ['0', 'b', '_', '1']
    let trailing := ['1', '_']
    (marked ∈ Text.lines source.toList ∧ (Line.ofText marked).byte? = some 1 ∧
      ¬ ['+', '_'] <:+: code marked ∧ trailing ∈ Text.lines source.toList ∧
      ¬ Separated (code trailing) ∧ ¬ ['+', '_'] <:+: code trailing) ∧
    Separated (code marked) ∧ (Line.ofText trailing).byte? = none := by
  intro source marked trailing
  have hmarked : marked ∈ Text.lines source.toList := by decide +kernel
  have hbyte : (Line.ofText marked).byte? = some 1 := by decide +kernel
  have hplus : ¬ ['+', '_'] <:+: code marked := by decide +kernel
  have htrailing : trailing ∈ Text.lines source.toList := by decide +kernel
  have hplus' : ¬ ['+', '_'] <:+: code trailing := by decide +kernel
  have hmisplaced : ¬ Separated (code trailing) := by
    intro hseparated
    have hcode : code trailing = ['1'] ++ '_' :: [] := by decide +kernel
    rcases hseparated _ _ hcode with ⟨_, _, _, _, -, hdigit⟩ | hmark | hmark
    · exact List.cons_ne_nil _ _ hdigit.symm
    · exact absurd hmark (by decide)
    · exact absurd hmark (by decide)
  obtain ⟨haccepted, -⟩ := separated_iff_no_signed_underscore source marked hmarked
  obtain ⟨-, hnone⟩ := separated_iff_no_signed_underscore source trailing htrailing
  exact ⟨⟨hmarked, hbyte, hplus, htrailing, hmisplaced, hplus'⟩,
    ((haccepted 1 hbyte).2).mpr hplus, hnone hmisplaced hplus'⟩

/-- A line that adds a byte although its underscore stands between a sign and a digit. -/
theorem byte_with_signed_underscore :
    bytes "+_1" = [1] ∧ ['+', '_', '1'] ∈ Text.lines "+_1".toList ∧
      (Line.ofText ['+', '_', '1']).byte? = some 1 ∧ ¬ Separated (code ['+', '_', '1']) := by
  refine ⟨by decide +kernel, by decide +kernel, by decide +kernel, fun hseparated => ?_⟩
  have hcode : code ['+', '_', '1'] = ['+'] ++ '_' :: ['1'] := by decide +kernel
  exact not_behindPlus (hseparated _ _ hcode) ⟨[], rfl⟩

end LS8.Listing
