import LS8.Proofs.ListingSyntax

/-!
# The layout of a listing

The program of a listing is read off its stretches between line feeds, one after the other and each on its
own (`bytes_eq`).  A carriage return at the end of a stretch is blank, so it makes no difference whether it
belongs to the line ending.  Hence a listing can be cut at any line feed, and the programs of the parts make
up the program of the whole.

Of a stretch, nothing but its code matters.  What is added in front of it or behind it does no harm if it
leaves the code alone: blank characters on either side, and a comment behind (`Trails`).  With the cut at
line feeds this carries over to the lines of any listing (`bytes_blind_to_layout`).
-/

namespace LS8

/-! ## Stretches between line feeds -/

namespace Text

theorem addToPieces_append {ps : List (List Char)} (h : ps ≠ []) (c : Char) (qs : List (List Char)) :
    addToPieces c (ps ++ qs) = addToPieces c ps ++ qs := by
  obtain ⟨piece, rest, rfl⟩ := List.exists_cons_of_ne_nil h
  unfold addToPieces
  split_ifs <;> rfl

/-- A line feed separates the stretches in front of it from those behind. -/
theorem pieces_append_feed (front rest : List Char) :
    pieces (front ++ '\n' :: rest) = pieces front ++ pieces rest := by
  induction front with
  | nil => rfl
  | cons c front ih =>
    show addToPieces c (pieces (front ++ '\n' :: rest)) = addToPieces c (pieces front) ++ pieces rest
    rw [ih, addToPieces_append (pieces_ne_nil front)]

end Text

namespace Listing

variable {line text tail blank rest : List Char}

/-! ## Codes -/

/-- What may stand behind a code: blank characters, and then perhaps a comment. -/
def Trails (tail : List Char) : Prop :=
  ∃ blank comment, tail = blank ++ comment ∧ (∀ c ∈ blank, Text.isBlank c) ∧
    (comment = [] ∨ comment.head? = some '#')

theorem trails_of_blank (h : ∀ c ∈ blank, Text.isBlank c) : Trails blank :=
  ⟨blank, [], (List.append_nil _).symm, h, .inl rfl⟩

theorem IsCode.append (h : IsCode line text) (htail : Trails tail) : IsCode (line ++ tail) text := by
  obtain ⟨before, after, comment, rfl, hblank, htext, hcomment, hhead, hlast⟩ := h
  rcases hcomment with rfl | hcomment
  · obtain ⟨blank, comment, rfl, hblank', hcomment⟩ := htail
    refine ⟨before, after ++ blank, comment, by simp, ?_, htext, hcomment, hhead, hlast⟩
    intro c hc
    rw [← List.append_assoc, List.mem_append] at hc
    exact hc.elim (hblank c) (hblank' c)
  · refine ⟨before, after, comment ++ tail, by simp, hblank, htext, .inr ?_, hhead, hlast⟩
    rw [List.head?_append, hcomment]
    rfl

theorem IsCode.prepend (h : IsCode line text) (hblank : ∀ c ∈ blank, Text.isBlank c) :
    IsCode (blank ++ line) text := by
  obtain ⟨before, after, comment, rfl, hblank', htext, hcomment, hhead, hlast⟩ := h
  refine ⟨blank ++ before, after, comment, by simp, ?_, htext, hcomment, hhead, hlast⟩
  intro c hc
  rw [List.append_assoc, List.mem_append] at hc
  exact hc.elim (hblank c) (hblank' c)

theorem code_append (h : Trails tail) (line : List Char) : code (line ++ tail) = code line :=
  isCode_iff.mp ((isCode_iff.mpr rfl).append h)

theorem code_prepend (h : ∀ c ∈ blank, Text.isBlank c) (line : List Char) :
    code (blank ++ line) = code line :=
  isCode_iff.mp ((isCode_iff.mpr rfl).prepend h)

/-- A carriage return at the end of a line is not part of its code. -/
theorem code_append_return (line : List Char) : code (line ++ ['\r']) = code line := by
  have hreturn : ∀ c ∈ ['\r'], Text.isBlank c := by simp [Text.isBlank, Text.blanks]
  exact code_append (trails_of_blank hreturn) line

theorem code_dropReturn (line : List Char) : code (Text.dropReturn line) = code line := by
  unfold Text.dropReturn
  split_ifs with h
  · obtain ⟨start, rfl⟩ := List.getLast?_eq_some_iff.mp h
    rw [List.dropLast_concat, code_append_return]
  · rfl

/-! ## Programs -/

/-- The program of a text, stretch by stretch. -/
def program (text : List Char) : List UInt8 :=
  (Text.pieces text).filterMap fun piece => byte? (code piece)

theorem byte?_ofText (line : List Char) : (Line.ofText line).byte? = byte? (code line) := by
  unfold Line.ofText
  split
  · next h =>
    rw [h]
    rfl
  · split
    · next hbyte => exact hbyte.symm
    · next hbyte => exact hbyte.symm

/-- The lines of a list of stretches add the same bytes as the stretches. -/
theorem filterMap_linesOfPieces (ps : List (List Char)) :
    (Text.linesOfPieces ps).filterMap (fun line => byte? (code line)) =
      ps.filterMap fun piece => byte? (code piece) := by
  induction ps using Text.linesOfPieces.induct with
  | case1 => rfl
  | case2 => rfl
  | case3 last h => rw [Text.linesOfPieces, if_neg h]
  | case4 piece next rest ih =>
    rw [Text.linesOfPieces, List.filterMap_cons, List.filterMap_cons, code_dropReturn, ih]

/-- The program of a listing is made of the bytes of its stretches between line feeds. -/
theorem bytes_eq (source : String) : bytes source = program source.toList := by
  rw [bytes, lines, List.filterMap_map, program, ← filterMap_linesOfPieces]
  exact List.filterMap_congr fun line _ => byte?_ofText line

theorem program_append_feed (front rest : List Char) :
    program (front ++ '\n' :: rest) = program front ++ program rest := by
  rw [program, Text.pieces_append_feed, List.filterMap_append]
  rfl

theorem program_of_notMem (h : '\n' ∉ line) : program line = (byte? (code line)).toList := by
  rw [program, Text.pieces_of_notMem h]
  cases hbyte : byte? (code line) <;> simp [hbyte]

theorem program_append_returnFeed (h : '\n' ∉ line) (rest : List Char) :
    program (line ++ '\r' :: '\n' :: rest) = program line ++ program rest := by
  have hreturn : '\n' ∉ line ++ ['\r'] := by simp [h]
  rw [List.append_cons, program_append_feed, program_of_notMem hreturn, program_of_notMem h,
    code_append_return]

/-- Where the rests of two texts agree behind every line in front of them, so do the texts. -/
theorem program_append_congr {rest' : List Char}
    (h : ∀ line, '\n' ∉ line → program (line ++ rest) = program (line ++ rest')) (front : List Char) :
    program (front ++ rest) = program (front ++ rest') := by
  induction front using Text.line_induction with
  | last line hline => exact h line hline
  | feed line front _ ih =>
    rw [List.append_assoc, List.append_assoc, List.cons_append, List.cons_append,
      program_append_feed, program_append_feed, ih]

/-! ## Changes of the layout -/

/-- The text with a carriage return in front of each line feed. -/
def withReturns (text : List Char) : List Char :=
  text.flatMap fun c => if c = '\n' then ['\r', '\n'] else [c]

/-- What begins at the end of a line: nothing at all, or the ending of the line. -/
def EndsLine (rest : List Char) : Prop :=
  rest = [] ∨ ∃ more, rest = '\n' :: more ∨ rest = '\r' :: '\n' :: more

/-- What ends where a line begins: nothing at all, or a text with a line feed at its end. -/
def StartsLine (front : List Char) : Prop := front = [] ∨ ∃ earlier, front = earlier ++ ['\n']

theorem withReturns_of_notMem (h : '\n' ∉ line) : withReturns line = line := by
  have hsingle : ∀ c ∈ line, (if c = '\n' then ['\r', '\n'] else [c]) = [c] := by
    intro c hc
    rw [if_neg]
    rintro rfl
    exact h hc
  rw [withReturns, List.flatMap_congr hsingle, List.flatMap_singleton']

theorem program_withReturns (text : List Char) : program (withReturns text) = program text := by
  induction text using Text.line_induction with
  | last line hline => rw [withReturns_of_notMem hline]
  | feed line rest hline ih =>
    have hsplit : withReturns (line ++ '\n' :: rest) = line ++ '\r' :: '\n' :: withReturns rest := by
      nth_rewrite 2 [← withReturns_of_notMem hline]
      exact List.flatMap_append
    rw [hsplit, program_append_returnFeed hline, program_append_feed, ih]

/-- What may stand behind a code may be added at the end of a line. -/
theorem program_insert_end (htail : Trails tail) (hfeed : '\n' ∉ tail) (hrest : EndsLine rest)
    (front : List Char) : program (front ++ (tail ++ rest)) = program (front ++ rest) := by
  refine program_append_congr (fun line hline => ?_) front
  have hline' : '\n' ∉ line ++ tail := by simp [hline, hfeed]
  rcases hrest with rfl | ⟨more, rfl | rfl⟩
  · rw [List.append_nil, List.append_nil, program_of_notMem hline', program_of_notMem hline,
      code_append htail]
  · rw [← List.append_assoc, program_append_feed, program_append_feed, program_of_notMem hline',
      program_of_notMem hline, code_append htail]
  · rw [← List.append_assoc, program_append_returnFeed hline', program_append_returnFeed hline,
      program_of_notMem hline', program_of_notMem hline, code_append htail]

/-- Blank characters may be added at the beginning of a line. -/
theorem program_insert_start (hblank : ∀ c ∈ blank, Text.isBlank c) (hfeed : '\n' ∉ blank)
    {front : List Char} (hfront : StartsLine front) (rest : List Char) :
    program (front ++ (blank ++ rest)) = program (front ++ rest) := by
  have hfirst : program (blank ++ rest) = program rest := by
    induction rest using Text.line_induction with
    | last line hline =>
      have hline' : '\n' ∉ blank ++ line := by simp [hline, hfeed]
      rw [program_of_notMem hline', program_of_notMem hline, code_prepend hblank]
    | feed line rest hline _ =>
      have hline' : '\n' ∉ blank ++ line := by simp [hline, hfeed]
      rw [← List.append_assoc, program_append_feed, program_append_feed, program_of_notMem hline',
        program_of_notMem hline, code_prepend hblank]
  rcases hfront with rfl | ⟨earlier, rfl⟩
  · exact hfirst
  · rw [List.append_assoc, List.append_assoc, List.singleton_append, List.singleton_append,
      program_append_feed, program_append_feed, hfirst]

/-- **A listing is read line by line, and its layout does not matter.**  Two texts with a line feed between
them list what the first does and then what the second does, however the first ends.  A text lists the same
bytes with a carriage return in front of each line feed, with a comment added at the end of a line, and with
blank characters added at the beginning or at the end of one. -/
theorem bytes_blind_to_layout (s t : String) :
    bytes (s ++ "\n" ++ t) = bytes s ++ bytes t ∧
    bytes (String.ofList (withReturns s.toList)) = bytes s ∧
    (∀ comment : String, '\n' ∉ comment.toList → EndsLine t.toList →
      bytes (s ++ (" #" ++ comment) ++ t) = bytes (s ++ t)) ∧
    ∀ blank : String, (∀ c ∈ blank.toList, Text.isBlank c ∧ c ≠ '\n') →
      (EndsLine t.toList → bytes (s ++ blank ++ t) = bytes (s ++ t)) ∧
      (StartsLine s.toList → bytes (s ++ blank ++ t) = bytes (s ++ t)) := by
  simp only [bytes_eq, String.toList_append, String.toList_ofList, List.append_assoc]
  refine ⟨program_append_feed _ _, program_withReturns _, fun comment hcomment hend => ?_,
    fun blank hblank => ?_⟩
  · have htail : Trails ([' ', '#'] ++ comment.toList) :=
      ⟨[' '], '#' :: comment.toList, rfl, by simp [Text.isBlank, Text.blanks], .inr rfl⟩
    have hfeed : '\n' ∉ [' ', '#'] ++ comment.toList := by simpa using hcomment
    have hinsert := program_insert_end htail hfeed hend s.toList
    rwa [List.append_assoc] at hinsert
  · have hall : ∀ c ∈ blank.toList, Text.isBlank c := fun c hc => (hblank c hc).1
    have hfeed : '\n' ∉ blank.toList := fun h => (hblank '\n' h).2 rfl
    exact ⟨fun hend => program_insert_end (trails_of_blank hall) hfeed hend _,
      fun hstart => program_insert_start hall hfeed hstart _⟩

/-- A line that ends in a carriage return and a line feed, between two others, with a comment added to it
and with blank characters beyond ASCII added on either side. -/
theorem bytes_blind_to_layout_three_lines :
    let s := "1\n0b1_0"
    let t := "\r\n+11\r"
    let blank := String.ofList ['\u2003', '\r']
    (EndsLine t.toList ∧ '\n' ∉ "two\r#".toList ∧
      (∀ c ∈ blank.toList, Text.isBlank c ∧ c ≠ '\n') ∧ StartsLine "1\n".toList) ∧
    bytes (s ++ (" #" ++ "two\r#") ++ t) = bytes (s ++ t) ∧ bytes (s ++ blank ++ t) = bytes (s ++ t) ∧
    bytes ("1\n" ++ blank ++ ("0b1_0" ++ t)) = bytes ("1\n" ++ ("0b1_0" ++ t)) ∧
    bytes (s ++ t) = [1, 2, 3] := by
  intro s t blank
  have hend : EndsLine t.toList := .inr ⟨['+', '1', '1', '\r'], .inr (by decide)⟩
  have hcomment : '\n' ∉ "two\r#".toList := by decide
  have hblank : ∀ c ∈ blank.toList, Text.isBlank c ∧ c ≠ '\n' := by
    simp [blank, Text.isBlank, Text.blanks]
  have hstart : StartsLine "1\n".toList := .inr ⟨['1'], rfl⟩
  obtain ⟨-, -, hadd, hpad⟩ := bytes_blind_to_layout s t
  obtain ⟨-, -, -, hpad'⟩ := bytes_blind_to_layout "1\n" ("0b1_0" ++ t)
  exact ⟨⟨hend, hcomment, hblank, hstart⟩, hadd _ hcomment hend, (hpad blank hblank).1 hend,
    (hpad' blank hblank).2 hstart, by decide +kernel⟩

end Listing

end LS8
