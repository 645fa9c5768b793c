import LS8.Numeral

/-!
# Text for a terminal

A terminal obeys some characters instead of showing them.  A log may quote anything, the name of a
file or a line of a program, so a character that could start a command to the terminal is spelled
out before the text is shown: the escape character, bell, backspace, form feed and delete as `\x`
with two hexadecimal digits, and the control characters from 128 to 159 as `\u` with their number in
braces.

All other characters are shown as they are, line feeds and tabs among them.  So is a backslash, so a
text cannot be recovered from what is shown of it.
-/

namespace LS8.Text

/-- The characters below 128 that are spelled out. -/
def shortCommands : List Char := ['\u0007', '\u0008', '\u000c', '\u001b', '\u007f']

/-- Whether the character is one of the control characters from 128 to 159. -/
def isLongCommand (c : Char) : Bool := decide (128 ≤ c.toNat) && decide (c.toNat ≤ 159)

/-- What a terminal is given for a character. -/
def spelled (c : Char) : List Char :=
  if shortCommands.contains c then
    '\\' :: 'x' :: (Numeral.lowerHex c.toNat).toList.leftpad 2 '0'
  else if isLongCommand c then
    '\\' :: 'u' :: '\x7b' :: (Numeral.lowerHex c.toNat).toList ++ ['\x7d']
  else
    [c]

/-- What a terminal is given for a text. -/
def display (text : String) : String := String.ofList (text.toList.flatMap spelled)

/-- A text without such characters is shown as it is. -/
theorem display_eq_self {text : String}
    (h : ∀ c ∈ text.toList, shortCommands.contains c = false ∧ isLongCommand c = false) :
    display text = text := by
  have hs : text.toList.flatMap spelled = text.toList := by
    generalize text.toList = cs at h
    induction cs with
    | nil => rfl
    | cons c cs ih =>
      obtain ⟨⟨h1, h2⟩, h3⟩ := List.forall_mem_cons.mp h
      simp only [List.flatMap_cons, spelled, h1, h2, ih h3, Bool.false_eq_true, if_false,
        List.cons_append, List.nil_append]
  rw [display, hs, String.ofList_toList]

end LS8.Text
