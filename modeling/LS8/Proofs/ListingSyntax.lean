import LS8.Proofs.ByteSyntax

/-!
# The syntax of a listing

What a listing says is described here by relations that do not compute anything.  `Lines` cuts a text
into lines, each ended by a line feed or by a carriage return and a line feed.  `IsCode` finds the code
of a line between blank characters and in front of a comment.  `Reads` goes through the codes with their
numbers: a code that spells a byte adds the byte to the program, an empty one says nothing, and any
other is reported with its number and adds nothing.

`reads_iff_bytes_and_log` says that each listing is read in exactly one way, and that its program and
its log are the ones that the functions `bytes` and `log` compute, and how the log is worded.
-/

namespace LS8

/-! ## Lines -/

namespace Text

/-- A text and its lines.  What follows the last line feed is a line unless it is empty. -/
inductive Lines : List Char → List (List Char) → Prop
  | nil : Lines [] []
  | last {line : List Char} (hne : line ≠ []) (hfeed : '\n' ∉ line) : Lines line [line]
  | feed {line rest : List Char} {lines : List (List Char)} (hfeed : '\n' ∉ line)
      (hreturn : line.getLast? ≠ some '\r') :
      Lines rest lines → Lines (line ++ '\n' :: rest) (line :: lines)
  | returnFeed {line rest : List Char} {lines : List (List Char)} (hfeed : '\n' ∉ line) :
      Lines rest lines → Lines (line ++ '\r' :: '\n' :: rest) (line :: lines)

theorem pieces_ne_nil (text : List Char) : pieces text ≠ [] := by
  cases text with
  | nil => simp [pieces]
  | cons c text =>
    show addToPieces c (pieces text) ≠ []
    unfold addToPieces
    split_ifs
    · simp
    · split <;> simp

theorem pieces_of_notMem {line : List Char} (h : '\n' ∉ line) : pieces line = [line] := by
  induction line with
  | nil => rfl
  | cons c line ih =>
    obtain ⟨hc, hline⟩ := not_or.mp (List.mem_cons.not.mp h)
    show addToPieces c (pieces line) = [c :: line]
    rw [ih hline, addToPieces, if_neg (Ne.symm hc)]

theorem pieces_append {line : List Char} (h : '\n' ∉ line) (rest : List Char) :
    pieces (line ++ '\n' :: rest) = line :: pieces rest := by
  induction line with
  | nil => rfl
  | cons c line ih =>
    obtain ⟨hc, hline⟩ := not_or.mp (List.mem_cons.not.mp h)
    show addToPieces c (pieces (line ++ '\n' :: rest)) = (c :: line) :: pieces rest
    rw [ih hline, addToPieces, if_neg (Ne.symm hc)]

theorem lines_of_notMem {line : List Char} (h : '\n' ∉ line) :
    lines line = if line = [] then [] else [line] := by
  rw [lines, pieces_of_notMem h, linesOfPieces]

/-- The first line of a text ends at the first line feed. -/
theorem lines_append {line : List Char} (h : '\n' ∉ line) (rest : List Char) :
    lines (line ++ '\n' :: rest) = dropReturn line :: lines rest := by
  rw [lines, pieces_append h, lines]
  cases hpieces : pieces rest with
  | nil => exact absurd hpieces (pieces_ne_nil rest)
  | cons piece more => rfl

theorem dropReturn_append (line : List Char) : dropReturn (line ++ ['\r']) = line := by
  simp [dropReturn]

/-- Induction on a text, line by line. -/
@[elab_as_elim]
theorem line_induction {motive : List Char → Prop} (last : ∀ line, '\n' ∉ line → motive line)
    (feed : ∀ line rest, '\n' ∉ line → motive rest → motive (line ++ '\n' :: rest))
    (text : List Char) : motive text := by
  induction hlength : text.length using Nat.strong_induction_on generalizing text with
  | _ n ih =>
    by_cases hfeed : '\n' ∈ text
    · obtain ⟨line, rest, rfl, hline⟩ := List.eq_append_cons_of_mem hfeed
      have hshorter : rest.length < n := by
        rw [← hlength, List.length_append, List.length_cons]
        omega
      exact feed line rest hline (ih _ hshorter rest rfl)
    · exact last text hfeed

/-- A text has its lines and no others. -/
theorem lines_iff {text : List Char} {ls : List (List Char)} : Lines text ls ↔ lines text = ls := by
  constructor
  · intro h
    induction h with
    | nil => rfl
    | last hne hfeed => rw [lines_of_notMem hfeed, if_neg hne]
    | feed hfeed hreturn _ ih => rw [lines_append hfeed, dropReturn, if_neg hreturn, ih]
    | @returnFeed line rest _ hfeed _ ih =>
      have hfeed' : '\n' ∉ line ++ ['\r'] := by simp [hfeed]
      rw [List.append_cons, lines_append hfeed', dropReturn_append, ih]
  · rintro rfl
    induction text using line_induction with
    | last line hline =>
      rw [lines_of_notMem hline]
      split_ifs with hempty
      · rw [hempty]
        exact .nil
      · exact .last hempty hline
    | feed line rest hline hrest =>
      rw [lines_append hline]
      by_cases hreturn : line.getLast? = some '\r'
      · obtain ⟨start, rfl⟩ := List.getLast?_eq_some_iff.mp hreturn
        have hstart : '\n' ∉ start := fun h => hline (List.mem_append_left _ h)
        rw [dropReturn_append, ← List.append_cons]
        exact .returnFeed hstart hrest
      · rw [dropReturn, if_neg hreturn]
        exact .feed hline hreturn hrest

/-! ## Blank characters at the ends -/

theorem dropWhile_append_of_head {p : Char → Bool} {before text : List Char}
    (hbefore : ∀ c ∈ before, p c) (htext : ∀ c ∈ text.head?, ¬ p c) :
    (before ++ text).dropWhile p = text := by
  rw [List.dropWhile_append_of_pos hbefore]
  cases text with
  | nil => rfl
  | cons c text =>
    have hc : ¬ p c := htext c rfl
    rw [List.dropWhile_cons_of_neg hc]

theorem head_dropWhile (p : Char → Bool) (text : List Char) {c : Char}
    (h : c ∈ (text.dropWhile p).head?) : ¬ p c := by
  have hnot := List.head?_dropWhile_not p text
  rw [Option.mem_def.mp h] at hnot
  simp [hnot]

/-- Trimming gives what lies between blank characters and is not blank at either end. -/
theorem trim_eq_iff {text inner : List Char} :
    trim text = inner ↔
      (∃ before after, text = before ++ inner ++ after ∧ ∀ c ∈ before ++ after, isBlank c) ∧
        (∀ c ∈ inner.head?, ¬ isBlank c) ∧ ∀ c ∈ inner.getLast?, ¬ isBlank c := by
  constructor
  · rintro rfl
    have hfront := List.takeWhile_append_dropWhile (p := isBlank) (l := text)
    have hback := List.takeWhile_append_dropWhile (p := isBlank)
      (l := (text.dropWhile isBlank).reverse)
    have hrest : text.dropWhile isBlank =
        trim text ++ ((text.dropWhile isBlank).reverse.takeWhile isBlank).reverse := by
      rw [trim, trimEnd, ← List.reverse_append, hback, List.reverse_reverse]
    refine ⟨⟨text.takeWhile isBlank,
      ((text.dropWhile isBlank).reverse.takeWhile isBlank).reverse, ?_, ?_⟩, ?_, ?_⟩
    · rw [List.append_assoc, ← hrest, hfront]
    · intro c hc
      rcases List.mem_append.mp hc with hbefore | hafter
      · exact List.mem_takeWhile_imp hbefore
      · exact List.mem_takeWhile_imp (List.mem_reverse.mp hafter)
    · intro c hc
      refine head_dropWhile isBlank text ?_
      rw [hrest, List.head?_append, Option.mem_def.mp hc]
      rfl
    · intro c hc
      refine head_dropWhile isBlank (text.dropWhile isBlank).reverse ?_
      rwa [trim, trimEnd, List.getLast?_reverse] at hc
  · rintro ⟨⟨before, after, rfl, hblank⟩, hhead, hlast⟩
    have hbefore : ∀ c ∈ before, isBlank c := fun c hc => hblank c (List.mem_append_left _ hc)
    have hafter : ∀ c ∈ after, isBlank c := fun c hc => hblank c (List.mem_append_right _ hc)
    cases inner with
    | nil =>
      have hall : (before ++ [] ++ after).dropWhile isBlank = [] := by
        rw [List.dropWhile_eq_nil_iff, List.append_nil]
        exact hblank
      rw [trim, hall]
      rfl
    | cons c inner =>
      rw [trim, List.append_assoc, dropWhile_append_of_head hbefore (by simpa using hhead), trimEnd,
        List.reverse_append, dropWhile_append_of_head, List.reverse_reverse]
      · intro d hd
        exact hafter d (List.mem_reverse.mp hd)
      · rw [List.head?_reverse]
        exact hlast

end Text

namespace Listing

/-! ## Codes -/

/-- A line and its code.  Around the code are blank characters, and behind it may be a comment. -/
def IsCode (line code : List Char) : Prop :=
  ∃ before after comment, line = before ++ code ++ after ++ comment ∧
    (∀ c ∈ before ++ after, Text.isBlank c) ∧ '#' ∉ code ∧
    (comment = [] ∨ comment.head? = some '#') ∧
    (∀ c ∈ code.head?, ¬ Text.isBlank c) ∧ ∀ c ∈ code.getLast?, ¬ Text.isBlank c

/-- A line has one code. -/
theorem isCode_iff {line text : List Char} : IsCode line text ↔ code line = text := by
  constructor
  · rintro ⟨before, after, comment, rfl, hblank, htext, hcomment, hhead, hlast⟩
    have hnot : ∀ c ∈ before ++ text ++ after, decide (c ≠ '#') = true := by
      intro c hc
      rw [decide_eq_true_eq]
      rintro rfl
      have hmem : '#' ∈ before ++ after ∨ '#' ∈ text := by
        simp only [List.mem_append] at hc ⊢
        tauto
      rcases hmem with hspace | hinside
      · exact absurd (hblank '#' hspace) (by decide)
      · exact htext hinside
    have htake : (before ++ text ++ after ++ comment).takeWhile (· ≠ '#') =
        before ++ text ++ after := by
      rw [List.takeWhile_append_of_pos hnot]
      rcases hcomment with rfl | hstart
      · simp
      · obtain ⟨rest, rfl⟩ := List.head?_eq_some_iff.mp hstart
        simp
    rw [code, htake, Text.trim_eq_iff]
    exact ⟨⟨before, after, rfl, hblank⟩, hhead, hlast⟩
  · rintro rfl
    obtain ⟨⟨before, after, hsplit, hblank⟩, hhead, hlast⟩ :=
      Text.trim_eq_iff.mp (Eq.refl (code line))
    refine ⟨before, after, line.dropWhile (· ≠ '#'), ?_, hblank, ?_, ?_, hhead, hlast⟩
    · rw [← hsplit, List.takeWhile_append_dropWhile]
    · intro hmem
      have htake : '#' ∈ line.takeWhile (· ≠ '#') := by
        rw [hsplit]
        simp [hmem]
      simpa using List.mem_takeWhile_imp htake
    · cases hrest : line.dropWhile (· ≠ '#') with
      | nil => exact .inl rfl
      | cons c rest =>
        have hc : ¬ decide (c ≠ '#') = true :=
          Text.head_dropWhile (· ≠ '#') line (by rw [hrest]; rfl)
        right
        simpa using hc

/-! ## Listings -/

/-- The codes of a listing from a line with this number on, the program, and the report. -/
inductive Reads : ℕ → List (List Char) → List UInt8 → List Event → Prop
  | nil {n : ℕ} : Reads n [] [] []
  | byte {n : ℕ} {text : List Char} {v : UInt8} {texts : List (List Char)} {program : List UInt8}
      {log : List Event} (hv : Spells text v) :
      Reads (n + 1) texts program log → Reads n (text :: texts) (v :: program) log
  | blank {n : ℕ} {texts : List (List Char)} {program : List UInt8} {log : List Event} :
      Reads (n + 1) texts program log → Reads n ([] :: texts) program log
  | skipped {n : ℕ} {text : List Char} {texts : List (List Char)} {program : List UInt8}
      {log : List Event} (hne : text ≠ []) (hnone : ∀ v, ¬ Spells text v) :
      Reads (n + 1) texts program log →
        Reads n (text :: texts) program (.lineSkipped n (String.ofList text) :: log)

/-- What a line with this code says. -/
def Line.ofCode (text : List Char) : Line :=
  match text with
  | [] => .blank
  | text =>
    match Listing.byte? text with
    | some v => .byte v
    | none => .other (String.ofList text)

theorem Line.ofText_eq (line : List Char) : Line.ofText line = Line.ofCode (code line) := rfl

theorem Line.ofCode_of_spells {text : List Char} {v : UInt8} (h : Spells text v) :
    Line.ofCode text = .byte v := by
  cases text with
  | nil => exact absurd rfl h.ne_nil
  | cons c text => simp [Line.ofCode, byte?_eq_some_iff.mpr h]

theorem Line.ofCode_of_not {text : List Char} (hne : text ≠ []) (h : ∀ v, ¬ Spells text v) :
    Line.ofCode text = .other (String.ofList text) := by
  have hnone : Listing.byte? text = none := by
    rw [Option.eq_none_iff_forall_ne_some]
    intro v hv
    exact h v (byte?_eq_some_iff.mp hv)
  cases text with
  | nil => exact absurd rfl hne
  | cons c text => simp [Line.ofCode, hnone]

/-- The codes of a listing are read in one way. -/
theorem reads_iff {n : ℕ} {texts : List (List Char)} {program : List UInt8} {log : List Event} :
    Reads n texts program log ↔
      (texts.map Line.ofCode).filterMap Line.byte? = program ∧
        ((texts.map Line.ofCode).zipIdx n).filterMap (fun (line, number) => line.event? number) =
          log := by
  constructor
  · intro h
    induction h with
    | nil => exact ⟨rfl, rfl⟩
    | byte hv _ ih =>
      obtain ⟨rfl, rfl⟩ := ih
      rw [List.map_cons, Line.ofCode_of_spells hv]
      exact ⟨rfl, rfl⟩
    | blank _ ih =>
      obtain ⟨rfl, rfl⟩ := ih
      exact ⟨rfl, rfl⟩
    | skipped hne hnone _ ih =>
      obtain ⟨rfl, rfl⟩ := ih
      rw [List.map_cons, Line.ofCode_of_not hne hnone]
      exact ⟨rfl, rfl⟩
  · rintro ⟨rfl, rfl⟩
    induction texts generalizing n with
    | nil => exact .nil
    | cons text texts ih =>
      by_cases hspells : ∃ v, Spells text v
      · obtain ⟨v, hv⟩ := hspells
        rw [List.map_cons, Line.ofCode_of_spells hv]
        exact .byte hv ih
      · by_cases hne : text = []
        · subst hne
          exact .blank ih
        · have hnone : ∀ v, ¬ Spells text v := fun v hv => hspells ⟨v, hv⟩
          rw [List.map_cons, Line.ofCode_of_not hne hnone]
          exact .skipped hne hnone ih

/-- Nothing but skipped lines is reported. -/
theorem exists_of_mem_log {source : String} {e : Event} (h : e ∈ log source) :
    ∃ number code, e = .lineSkipped number code := by
  obtain ⟨⟨line, number⟩, -, hevent⟩ := List.mem_filterMap.mp h
  cases line with
  | other code => exact ⟨number, code, (Option.some.inj hevent).symm⟩
  | blank | byte => cases hevent

theorem line_lineSkipped (number : ℕ) (code : String) :
    (Event.lineSkipped number code).line =
      "TRACE skipping line " ++ number.repr ++ ": '" ++ code ++ "'" := by
  have hfront : "TRACE skipping line " = "TRACE" ++ " " ++ "skipping line " := by decide
  rw [hfront]
  show "TRACE" ++ " " ++ ("skipping line " ++ number.repr ++ ": '" ++ code ++ "'") = _
  simp only [String.append_assoc]

/-- **A listing is read in one way, and the functions read it so.**  The program and the log of a text
are those that come from its lines, in order: each line whose code spells a byte adds that byte, each
line with another code is reported with its number, counted from one, and with its code, and the other
lines do nothing.  The report is of the least severe level, and tells number and code. -/
theorem reads_iff_bytes_and_log (source : String) (program : List UInt8) (events : List Event) :
    ((∃ ls texts, Text.Lines source.toList ls ∧ List.Forall₂ IsCode ls texts ∧
      Reads 1 texts program events) ↔ bytes source = program ∧ log source = events) ∧
    ∀ e ∈ log source, ∃ number code, e = .lineSkipped number code ∧ e.level = .trace ∧
      e.line = "TRACE skipping line " ++ number.repr ++ ": '" ++ code ++ "'" := by
  have hlines : (Text.lines source.toList).map Line.ofText =
      ((Text.lines source.toList).map code).map Line.ofCode := by
    rw [List.map_map]
    exact List.map_congr_left fun line _ => Line.ofText_eq line
  refine ⟨?_, fun e he => ?_⟩
  · rw [bytes, log, lines, hlines, ← reads_iff]
    constructor
    · rintro ⟨ls, texts, hls, htexts, hreads⟩
      have hcodes : ls.map code = texts := by
        rw [← List.forall₂_eq_eq_eq, List.forall₂_map_left_iff]
        exact htexts.imp fun line text => isCode_iff.mp
      rwa [Text.lines_iff.mp hls, hcodes]
    · intro hreads
      refine ⟨_, _, Text.lines_iff.mpr rfl, ?_, hreads⟩
      rw [List.forall₂_map_right_iff]
      exact List.forall₂_same.mpr fun line _ => isCode_iff.mpr rfl
  · obtain ⟨number, code, rfl⟩ := exists_of_mem_log he
    exact ⟨number, code, rfl, rfl, line_lineSkipped number code⟩

/-- A byte with a comment, an empty line, and a digit that is not binary. -/
theorem reads_iff_bytes_and_log_third_skipped :
    let source := "1 # one\n\n 2\n"
    (∃ ls texts, Text.Lines source.toList ls ∧ List.Forall₂ IsCode ls texts ∧
      Reads 1 texts [1] [.lineSkipped 3 "2"]) ∧
    (log source).map Event.line = ["TRACE skipping line 3: '2'"] := by
  intro source
  have hbytes : bytes source = [1] := by decide +kernel
  have hlog : log source = [.lineSkipped 3 "2"] := by decide +kernel
  clear_value source
  obtain ⟨hreads, hworded⟩ := reads_iff_bytes_and_log source [1] [.lineSkipped 3 "2"]
  obtain ⟨number, code, he, -, hline⟩ := hworded (.lineSkipped 3 "2") (by simp [hlog])
  obtain ⟨rfl, rfl⟩ := Event.lineSkipped.inj he
  refine ⟨hreads.mpr ⟨hbytes, hlog⟩, ?_⟩
  rw [hlog, List.map_singleton, hline]
  decide

end Listing

end LS8
