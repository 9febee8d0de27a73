import PageAsm.Proofs.Placement

/-!
# PageAsm.Proofs.LineSpans

Where the lines that are read stand in the source text.  The span of a line
covers the operand field, or the mnemonic if there are no operands, and the line
is counted by the newlines in front of it:

```
source     front                            slice       back
           ... newline MSG      .STRZ       "a;b"       ; comment ...
                                            ~~~~~
```

`IsRead` lists what is taken from a line, field by field, and `readFields_ok_iff`
states that lines are read in this way only.  Where a field is not empty, its
span covers it in the text (`PhysicalLine.exists_covers`), and a line ends in
front of those that follow it (`pairwise_numberLines`).
-/

namespace PageAsm

open Outcome

/-- The span covers `slice`, which stands behind `front` in the text. -/
structure Span.Covers (s : Span) (source front slice : List Char) : Prop where
  text : ∃ back, source = front ++ (slice ++ back)
  offset : s.offset = Text.byteSize front
  length : s.length = Text.byteSize slice

namespace Text

theorem byteSize_le_of_isPrefix {xs ys : List Char} (h : xs <+: ys) :
    byteSize xs ≤ byteSize ys := by
  obtain ⟨more, rfl⟩ := h
  rw [byteSize_append]
  exact Nat.le_add_right _ _

end Text

namespace SourceText

/-! ## fields -/

/-- What is read from the code of a line: its gaps are blank, its operation is known, and the
fields of the line are those of the code. -/
structure IsRead (code : List Char) (start number : Nat) (line : Line) : Prop where
  firstGap : Columns.firstGap.field code = []
  secondGap : Columns.secondGap.field code = []
  known : ∃ operation, line.operation? = some operation
  label : line.label = String.ofList (Columns.label.field code)
  mnemonic : line.mnemonic = String.ofList (Columns.operation.field code)
  operands : line.operands = String.ofList
    (if line.operation? = some (.directive .strz) then
      stripQuotes ((Columns.operands code).field code)
    else (Columns.operands code).field code)
  number : line.number = number
  span : line.span =
    if (Columns.operands code).field code = [] then Columns.operation.span code start
    else (Columns.operands code).span code start

theorem readFields_ok_iff {code : List Char} {start number : Nat} {line : Line} :
    readFields code start number = .ok line ↔ IsRead code start number line := by
  unfold readFields
  constructor
  · intro h
    split at h
    · cases h
    · next hfirst =>
      split at h
      · cases h
      · next hsecond =>
        dsimp only at h
        split at h
        · cases h
        · next operation hparse =>
          cases h
          have hoperation : ∀ operands span, Line.operation?
              { label := String.ofList (Columns.label.field code)
                mnemonic := String.ofList (Columns.operation.field code)
                operands, number, span } = some operation := fun _ _ => hparse
          refine ⟨Classical.not_not.mp hfirst, Classical.not_not.mp hsecond, ⟨operation, hparse⟩,
            rfl, rfl, ?_, rfl, rfl⟩
          simp only [hoperation, Option.some.injEq]
  · intro h
    obtain ⟨operation, hknown⟩ := h.known
    have hparse : Operation.parse? (String.ofList (Columns.operation.field code)) =
        some operation := by
      rw [← h.mnemonic]
      exact hknown
    simp only [h.firstGap, h.secondGap, hparse]
    have hoperands := h.operands
    simp only [hknown, Option.some.injEq] at hoperands
    simp [← hoperands, ← h.label, ← h.mnemonic, ← h.span, ← h.number]

namespace IsRead

variable {code : List Char} {start number : Nat} {line : Line}

theorem toList_label (h : IsRead code start number line) :
    line.label.toList = Columns.label.field code := by
  rw [h.label, String.toList_ofList]

theorem toList_mnemonic (h : IsRead code start number line) :
    line.mnemonic.toList = Columns.operation.field code := by
  rw [h.mnemonic, String.toList_ofList]

/-- The operation is known, so it is not empty. -/
theorem operation_ne_nil (h : IsRead code start number line) :
    Columns.operation.field code ≠ [] := by
  obtain ⟨operation, hknown⟩ := h.known
  intro hnil
  rw [Line.operation?, h.mnemonic, hnil] at hknown
  cases hknown

end IsRead

/-- A field that has its quotes dropped, or stays as it is. -/
theorem stripQuotes_cases (cs : List Char) :
    stripQuotes cs = cs ∨ cs = '"' :: stripQuotes cs ++ ['"'] := by
  unfold stripQuotes
  split
  · next inner =>
    split
    · next hlast =>
      right
      obtain ⟨string, rfl⟩ := List.getLast?_eq_some_iff.mp hlast
      simp
    · exact .inl rfl
  · exact .inl rfl

namespace PhysicalLine

variable {source : List Char} {p q : PhysicalLine} {line : Line}

theorem isRead_of_read (h : p.read = .ok line) : IsRead p.code p.start p.number line :=
  readFields_ok_iff.mp h

/-- The code of a line in the text. -/
theorem exists_code (h : p ∈ physicalLines source) :
    ∃ front back, source = front ++ (p.code ++ back) ∧ p.start = Text.byteSize front ∧
      p.number = front.count '\n' + 1 ∧ '\n' ∉ p.code := by
  obtain ⟨front, hline, hstart⟩ := isLine_of_mem_physicalLines h
  obtain ⟨whole, rest, rfl, hnewline, -, htext⟩ := hline.ends
  have hprefix : p.code <+: whole := by
    refine (stripComment_isPrefix false p.text).trans ?_
    rw [htext]
    exact Text.dropEndWhile_isPrefix isTerminator whole
  obtain ⟨more, rfl⟩ := hprefix
  refine ⟨front, more ++ rest, by simp, hstart, hline.number.symm, ?_⟩
  exact fun hmem => hnewline (List.mem_append_left _ hmem)

/-- The span of a field covers it, and no newline stands between the start of the line and
the field. -/
theorem exists_covers {cols : Columns} (h : p ∈ physicalLines source)
    (hfield : cols.field p.code ≠ []) :
    ∃ front, (cols.span p.code p.start).Covers source front (cols.field p.code) ∧
      p.number = front.count '\n' + 1 := by
  obtain ⟨front, back, rfl, hstart, hnumber, hnewline⟩ := exists_code h
  obtain ⟨before, lead, behind, hcode, -, hspan⟩ :=
    cols.span_of_raw_ne_nil (Columns.raw_ne_nil hfield) p.start
  have hcount : (before ++ lead).count '\n' = 0 := by
    rw [List.count_eq_zero]
    intro hmem
    apply hnewline
    rw [hcode, ← List.append_assoc]
    exact List.mem_append_left _ hmem
  refine ⟨front ++ (before ++ lead), ⟨⟨behind ++ back, ?_⟩, ?_, ?_⟩, ?_⟩
  · conv => lhs; rw [hcode]
    simp
  · rw [hspan, hstart, Text.byteSize_append front]
  · rw [hspan]
  · rw [List.count_append, hcount, hnumber, Nat.add_zero]

/-- The span of a line that is read is behind the start of the line, and ends in it. -/
theorem bounds_of_read (h : p.read = .ok line) :
    p.start < line.span.offset ∧ line.span.stop ≤ p.start + Text.byteSize p.text := by
  have hread := isRead_of_read h
  obtain ⟨-, ⟨column, hoffset, -, hboundary⟩, -⟩ := marks_of_read h
  have hle := hboundary.le
  constructor
  · rw [hread.span]
    split
    · simp only [Columns.span, Columns.operation]
      omega
    · simp only [Columns.span, Columns.operands]
      omega
  · rw [Span.stop, hoffset]
    omega

end PhysicalLine

end SourceText

/-- What the span of a line can cover: its operands, or the string that they are with its
quotes, or the mnemonic where there are none. -/
inductive Line.Shows (line : Line) : List Char → Prop where
  | operands (some : line.operands ≠ "") : Shows line line.operands.toList
  | quoted (strz : line.operation? = some (.directive .strz)) :
      Shows line ('"' :: line.operands.toList ++ ['"'])
  | mnemonic (none : line.operands = "") : Shows line line.mnemonic.toList

namespace SourceText

variable {source : List Char} {p : PhysicalLine} {line : Line}

/-- The operand field of a line is shown, if it is not empty. -/
theorem IsRead.shows {code : List Char} {start number : Nat}
    (h : IsRead code start number line) (hfield : (Columns.operands code).field code ≠ []) :
    line.Shows ((Columns.operands code).field code) := by
  have hoperands : line.operands.toList = _ := congrArg String.toList h.operands
  rw [String.toList_ofList] at hoperands
  generalize (Columns.operands code).field code = field at hfield hoperands ⊢
  have hplain : line.operands.toList = field → line.Shows field := by
    intro heq
    rw [← heq]
    refine .operands fun hnone => hfield ?_
    rw [← heq, hnone]
    rfl
  split at hoperands
  · next hstrz =>
    obtain hsame | hquoted := stripQuotes_cases field
    · exact hplain (hoperands.trans hsame)
    · rw [hquoted, ← hoperands]
      exact .quoted hstrz
  · exact hplain hoperands

/-- A line that is read shows a part of itself. -/
theorem PhysicalLine.exists_shows (hmem : p ∈ physicalLines source) (h : p.read = .ok line) :
    ∃ front slice, line.span.Covers source front slice ∧ line.number = front.count '\n' + 1 ∧
      line.Shows slice := by
  have hread := isRead_of_read h
  rw [hread.number, hread.span]
  split
  · next hnone =>
    obtain ⟨front, hcovers, hnumber⟩ := exists_covers hmem hread.operation_ne_nil
    refine ⟨front, _, hcovers, hnumber, ?_⟩
    rw [← hread.toList_mnemonic]
    apply Line.Shows.mnemonic
    rw [hread.operands, hnone]
    exact congrArg String.ofList (ite_self _)
  · next hfield =>
    obtain ⟨front, hcovers, hnumber⟩ := exists_covers hmem hfield
    exact ⟨front, _, hcovers, hnumber, hread.shows hfield⟩

/-! ## order -/

theorem start_le_of_mem_numberLines {number start : Nat} {pieces : List (List Char)}
    (h : p ∈ numberLines number start pieces) : start ≤ p.start := by
  induction pieces generalizing number start with
  | nil => cases h
  | cons piece pieces ih =>
      rw [numberLines] at h
      cases h with
      | head => exact Nat.le_refl _
      | tail _ h => exact Nat.le_of_add_right_le (ih h)

/-- A line ends in front of those that follow it. -/
theorem pairwise_numberLines (number start : Nat) (pieces : List (List Char)) :
    (numberLines number start pieces).Pairwise
      fun p q => p.start + Text.byteSize p.text ≤ q.start := by
  induction pieces generalizing number start with
  | nil => exact .nil
  | cons piece pieces ih =>
      rw [numberLines, List.pairwise_cons]
      refine ⟨fun q hq => ?_, ih _ _⟩
      have hpiece := Text.byteSize_le_of_isPrefix (Text.dropEndWhile_isPrefix isTerminator piece)
      have hstart := start_le_of_mem_numberLines hq
      dsimp only
      omega

/-- The spans of lines follow each other as the lines do. -/
theorem pairwise_spans {ps : List PhysicalLine} {lines : List Line}
    (hps : ps.Pairwise fun p q => p.start + Text.byteSize p.text ≤ q.start)
    (h : readLines ps = .ok lines) :
    lines.Pairwise fun a b => a.span.stop < b.span.offset := by
  induction ps generalizing lines with
  | nil =>
      cases h
      exact .nil
  | cons p ps ih =>
      obtain ⟨hbehind, hps⟩ := List.pairwise_cons.mp hps
      rw [readLines] at h
      split at h
      · exact ih hps h
      · simp only [bind_eq_ok, pure_eq_ok] at h
        obtain ⟨first, hfirst, rest, hrest, rfl⟩ := h
        refine List.pairwise_cons.mpr ⟨fun other hother => ?_, ih hps hrest⟩
        obtain ⟨q, hq, hread⟩ := exists_read_of_mem hrest hother
        have hstop := (PhysicalLine.bounds_of_read hfirst).2
        have hoffset := (PhysicalLine.bounds_of_read hread).1
        have hstart := hbehind q hq
        omega

end SourceText

/-- The span of every line that is read covers its operands or its mnemonic in the text, the
line is counted by the newlines in front, and the spans follow each other in the order of the
lines. -/
theorem spans_cover_fields {source : String} {lines : List Line}
    (h : SourceText.read source = .ok lines) :
    (∀ line ∈ lines, ∃ front slice, line.span.Covers source.toList front slice ∧
      line.number = front.count '\n' + 1 ∧ line.Shows slice) ∧
    lines.Pairwise fun a b => a.span.stop < b.span.offset := by
  have hlines := SourceText.readLines_of_read h
  constructor
  · intro line hline
    obtain ⟨p, hmem, hread⟩ := SourceText.exists_read_of_mem hlines hline
    exact p.exists_shows hmem hread
  · exact SourceText.pairwise_spans (SourceText.pairwise_numberLines 1 0 _) hlines

/-- Source text with a carriage return, a blank line, a blank of three bytes in front of a
string, and blanks of two bytes in front of an operation. -/
def wideBlanks : String :=
  "P        .ORIG\r\n\n         .STRZ    \u2003\"a;b\";\u00e9\n\u00a0\u00a0\u00a0\u00a0 .END"

theorem spans_cover_fields_wideBlanks :
    ∃ lines, SourceText.read wideBlanks = .ok lines ∧
      lines.map Line.span = [⟨9, 5⟩, ⟨38, 5⟩, ⟨56, 4⟩] ∧ lines.map Line.number = [1, 3, 4] ∧
      (∀ line ∈ lines, ∃ front slice, line.span.Covers wideBlanks.toList front slice ∧
        line.number = front.count '\n' + 1 ∧ line.Shows slice) ∧
      lines.Pairwise fun a b => a.span.stop < b.span.offset := by
  obtain ⟨lines, h, hspans, hnumbers⟩ : ∃ lines, SourceText.read wideBlanks = .ok lines ∧
      lines.map Line.span = [⟨9, 5⟩, ⟨38, 5⟩, ⟨56, 4⟩] ∧ lines.map Line.number = [1, 3, 4] :=
    ⟨_, rfl, by decide, by decide⟩
  exact ⟨lines, h, hspans, hnumbers, spans_cover_fields h⟩

end PageAsm
