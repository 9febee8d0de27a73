import PageAsm.Proofs.FieldText

/-!
# PageAsm.Proofs.FixedColumns

Writing lines in fixed columns, and reading them back.  `Line.layOut` puts each
field of a line where the reader looks for it:

```
0           9            17
label       mnemonic     operands
MSG         .STRZ        "a;b"
```

1. A label has at most six characters; it and the mnemonic are filled up with
   blanks.
2. Strings are put in quotes, and may hold everything but quotes and newlines.
3. Other operands hold no comment, and no blanks at their ends.

Under these conditions (`Line.FitsColumns`) the reader takes the fields of every
line from its text (`Line.reading?_layOut`), and so the lines from the whole text
(`fixed_columns_read_back`).
-/

namespace PageAsm

open Outcome

namespace Text

variable {cs xs ys : List Char}

/-! ## padding and trimming -/

/-- Blanks at the end do not count. -/
theorem trim_append_blanks (h : ∀ c ∈ ys, isBlank c = true) : trim (xs ++ ys) = trim xs := by
  induction ys generalizing xs with
  | nil => rw [List.append_nil]
  | cons c ys ih =>
      rw [List.append_cons, ih fun d hd => h d (List.mem_cons_of_mem _ hd),
        trim_concat_blank (h c List.mem_cons_self)]

/-- The text has no blank at its ends. -/
def IsTrimmed (cs : List Char) : Prop :=
  (∀ c ∈ cs.head?, isBlank c = false) ∧ ∀ c ∈ cs.getLast?, isBlank c = false

instance : DecidablePred IsTrimmed := fun _ =>
  @instDecidableAnd _ _ (Option.decidableForallMem _) (Option.decidableForallMem _)

theorem isTrimmed_of_forall (h : ∀ c ∈ cs, isBlank c = false) : IsTrimmed cs :=
  ⟨fun c hc => h c (List.mem_of_head? hc), fun c hc => h c (List.mem_of_getLast? hc)⟩

theorem IsTrimmed.trim_eq (h : IsTrimmed cs) : trim cs = cs := by
  have hdrop : ∀ xs : List Char, (∀ c ∈ xs.head?, isBlank c = false) →
      xs.dropWhile isBlank = xs := by
    intro xs hxs
    cases xs with
    | nil => rfl
    | cons c xs =>
        rw [List.dropWhile_cons, hxs c rfl]
        rfl
  have hlast : ∀ c ∈ cs.reverse.head?, isBlank c = false := by
    rw [List.head?_reverse]
    exact h.2
  rw [trim, trimStart, hdrop cs h.1, trimEnd, dropEndWhile, hdrop _ hlast, List.reverse_reverse]

theorem trim_padEnd (n : Nat) (h : IsTrimmed cs) : trim (padEnd n cs) = cs := by
  rw [padEnd, trim_append_blanks, h.trim_eq]
  intro c hc
  rw [List.eq_of_mem_replicate hc]
  rfl

/-- A field that is filled up to more columns has blanks behind it. -/
theorem padEnd_add {n : Nat} (k : Nat) (h : cs.length ≤ n) :
    padEnd (n + k) cs = padEnd n cs ++ List.replicate k ' ' := by
  rw [padEnd, padEnd, List.append_assoc, List.replicate_append_replicate]
  congr 2
  omega

theorem byteSize_padEnd {n : Nat} (hascii : ∀ c ∈ cs, c.toNat < 128) (h : cs.length ≤ n) :
    byteSize (padEnd n cs) = n := by
  have hpadded : ∀ c ∈ padEnd n cs, c.toNat < 128 := by
    intro c hc
    obtain hc | hc := List.mem_append.mp hc
    · exact hascii c hc
    · rw [List.eq_of_mem_replicate hc]
      decide
  rw [byteSize_of_ascii hpadded, length_padEnd, Nat.max_eq_left h]

/-- A character of labels and mnemonics: ASCII, and neither a blank nor one that opens a string
or a comment. -/
def IsPlain (c : Char) : Prop := c.toNat < 128 ∧ isBlank c = false ∧ c ≠ ';' ∧ c ≠ '"'

instance : DecidablePred IsPlain := fun c =>
  inferInstanceAs (Decidable (c.toNat < 128 ∧ isBlank c = false ∧ c ≠ ';' ∧ c ≠ '"'))

/-- All characters are plain. -/
def AllPlain (cs : List Char) : Prop := ∀ c ∈ cs, IsPlain c

instance : DecidablePred AllPlain := List.decidableBAll IsPlain

end Text

/-! ## mnemonics -/

namespace Operation

theorem mem_table_of_parse? {mnemonic : String} {operation : Operation}
    (h : parse? mnemonic = some operation) : (mnemonic, operation) ∈ table := by
  obtain ⟨front, back, htable, -⟩ := List.lookup_eq_some_iff.mp h
  rw [htable]
  exact List.mem_append_right _ List.mem_cons_self

/-- Mnemonics have up to five plain characters. -/
theorem plain_of_parse? {mnemonic : String} {operation : Operation}
    (h : parse? mnemonic = some operation) :
    mnemonic.toList ≠ [] ∧ mnemonic.toList.length ≤ 5 ∧ Text.AllPlain mnemonic.toList := by
  have htable : ∀ entry ∈ table, entry.1.toList ≠ [] ∧ entry.1.toList.length ≤ 5 ∧
      Text.AllPlain entry.1.toList := by decide
  exact htable _ (mem_table_of_parse? h)

/-- A directive has one mnemonic. -/
theorem eq_mnemonic_of_parse? {mnemonic : String} {d : Directive}
    (h : parse? mnemonic = some (.directive d)) : mnemonic = d.mnemonic := by
  have htable : ∀ entry ∈ table, entry.2 = .directive d → entry.1 = d.mnemonic := by
    cases d <;> decide
  exact htable _ (mem_table_of_parse? h) rfl

end Operation

/-! ## lines in fixed columns -/

/-- The fields of a line whose columns are all filled. -/
theorem SourceText.Columns.fields_of_parts {code a b c d e : List Char}
    (hcode : code = a ++ (b ++ (c ++ (d ++ e)))) (ha : Text.byteSize a = 6)
    (hb : Text.byteSize b = 3) (hc : Text.byteSize c = 5) (hd : Text.byteSize d = 3) :
    label.field code = Text.trim a ∧ firstGap.field code = Text.trim b ∧
      operation.field code = Text.trim c ∧ secondGap.field code = Text.trim d ∧
      (operands code).field code = Text.trim e := by
  have hsize : Text.byteSize code = 17 + Text.byteSize e := by
    simp only [hcode, Text.byteSize_append]
    omega
  have hlabel : code = [] ++ (a ++ (b ++ (c ++ (d ++ e)))) := hcode
  have hoperation : code = (a ++ b) ++ (c ++ (d ++ e)) := by simp [hcode]
  have hsecond : code = (a ++ b ++ c) ++ (d ++ e) := by simp [hcode]
  have hoperands : code = (a ++ b ++ c ++ d) ++ (e ++ []) := by simp [hcode]
  refine ⟨field_append hlabel rfl ?_, field_append hcode ha ?_, field_append hoperation ?_ ?_,
    field_append hsecond ?_ ?_, field_append hoperands ?_ ?_⟩
  all_goals
    simp only [label, firstGap, operation, secondGap, operands, Text.byteSize_append,
      List.nil_append]
    omega

namespace Line

/-- The operand field as it is written: strings are put in quotes. -/
def written (line : Line) : List Char :=
  if line.operation? = some (.directive .strz) then '"' :: line.operands.toList ++ ['"']
  else line.operands.toList

/-- The quotes that are put around a string are dropped again. -/
theorem operands_of_written (line : Line) :
    line.operands = String.ofList (if line.operation? = some (.directive .strz) then
      SourceText.stripQuotes line.written else line.written) := by
  unfold written
  split
  · simp [SourceText.stripQuotes]
  · rw [String.ofList_toList]

/-- The line in fixed columns, without its newline. -/
def layOut (line : Line) : List Char :=
  Text.padEnd 9 line.label.toList ++ (Text.padEnd 8 line.mnemonic.toList ++ line.written)

/-- The fields of the line can be written in fixed columns. -/
structure FitsColumns (line : Line) : Prop where
  known : line.operation?.isSome = true
  short : line.label.toList.length ≤ 6
  plain : Text.AllPlain line.label.toList
  newline : '\n' ∉ line.operands.toList
  quote : '"' ∉ line.operands.toList
  comment : line.operation? ≠ some (.directive .strz) → ';' ∉ line.operands.toList
  trimmed : line.operation? ≠ some (.directive .strz) → Text.IsTrimmed line.operands.toList

namespace FitsColumns

variable {line : Line}

theorem plain_mnemonic (h : line.FitsColumns) :
    line.mnemonic.toList ≠ [] ∧ line.mnemonic.toList.length ≤ 5 ∧
      Text.AllPlain line.mnemonic.toList := by
  obtain ⟨operation, hknown⟩ := Option.isSome_iff_exists.mp h.known
  exact Operation.plain_of_parse? hknown

/-- A label and a mnemonic with the gap behind them fill their columns. -/
theorem layOut_eq (h : line.FitsColumns) :
    line.layOut = Text.padEnd 6 line.label.toList ++ (List.replicate 3 ' ' ++
      (Text.padEnd 5 line.mnemonic.toList ++ (List.replicate 3 ' ' ++ line.written))) := by
  rw [layOut, Text.padEnd_add 3 h.short, Text.padEnd_add 3 h.plain_mnemonic.2.1]
  simp only [List.append_assoc]

theorem isTrimmed_written (h : line.FitsColumns) : Text.IsTrimmed line.written := by
  unfold written
  split
  · constructor
    · intro c hc
      cases hc
      rfl
    · rw [List.getLast?_concat]
      intro c hc
      cases hc
      rfl
  · next hstrz => exact h.trimmed hstrz

/-- The columns of the text hold the fields of the line. -/
theorem isRead_layOut (h : line.FitsColumns) (start number : Nat) :
    ∃ span, SourceText.IsRead line.layOut start number { line with number, span } := by
  obtain ⟨-, hshort, hplain⟩ := h.plain_mnemonic
  have hlabel := Text.byteSize_padEnd (fun c hc => (h.plain c hc).1) h.short
  have hmnemonic := Text.byteSize_padEnd (fun c hc => (hplain c hc).1) hshort
  have hgap : Text.byteSize (List.replicate 3 ' ') = 3 := by decide
  have hblank : Text.trim (List.replicate 3 ' ') = [] := by decide
  have htrimmed : Text.IsTrimmed line.label.toList :=
    Text.isTrimmed_of_forall fun c hc => (h.plain c hc).2.1
  have htrimmed' : Text.IsTrimmed line.mnemonic.toList :=
    Text.isTrimmed_of_forall fun c hc => (hplain c hc).2.1
  obtain ⟨hlabelField, hfirst, hoperation, hsecond, hoperands⟩ :=
    SourceText.Columns.fields_of_parts h.layOut_eq hlabel hgap hmnemonic hgap
  rw [Text.trim_padEnd 6 htrimmed] at hlabelField
  rw [Text.trim_padEnd 5 htrimmed'] at hoperation
  rw [h.isTrimmed_written.trim_eq] at hoperands
  obtain ⟨span, hspan⟩ : ∃ span, span =
      if (SourceText.Columns.operands line.layOut).field line.layOut = [] then
        SourceText.Columns.operation.span line.layOut start
      else (SourceText.Columns.operands line.layOut).span line.layOut start := ⟨_, rfl⟩
  have hknown := Option.isSome_iff_exists.mp h.known
  refine ⟨span, ⟨hfirst.trans hblank, hsecond.trans hblank, hknown, ?_, ?_, ?_, rfl, hspan⟩⟩
  · rw [hlabelField, String.ofList_toList]
  · rw [hoperation, String.ofList_toList]
  · rw [hoperands]
    exact line.operands_of_written

end FitsColumns

end Line

namespace SourceText

variable {xs ys : List Char}

/-- Text is no comment where it has no quotes, and no `;` outside them. -/
theorem stripComment_of_forall (quoted : Bool) (ys : List Char)
    (h : ∀ c ∈ xs, c ≠ '"' ∧ (c = ';' → quoted = true)) :
    stripComment quoted (xs ++ ys) = xs ++ stripComment quoted ys := by
  induction xs with
  | nil => rfl
  | cons c xs ih =>
      obtain ⟨hquote, hcomment⟩ := h c List.mem_cons_self
      have hcode : ¬ (c = ';' ∧ quoted = false) := by
        intro hc
        rw [hcomment hc.1] at hc
        cases hc.2
      rw [List.cons_append, stripComment, if_neg hquote, if_neg hcode,
        ih fun d hd => h d (List.mem_cons_of_mem _ hd), List.cons_append]

end SourceText

namespace Line.FitsColumns

variable {line : Line}

/-- What stands in front of the operands is plain, or blanks. -/
theorem plain_of_mem (h : line.FitsColumns) {c : Char}
    (hc : c ∈ Text.padEnd 9 line.label.toList ++ Text.padEnd 8 line.mnemonic.toList) :
    Text.IsPlain c ∨ c = ' ' := by
  simp only [Text.padEnd, List.mem_append] at hc
  obtain (hc | hc) | (hc | hc) := hc
  · exact .inl (h.plain c hc)
  · exact .inr (List.eq_of_mem_replicate hc)
  · exact .inl (h.plain_mnemonic.2.2 c hc)
  · exact .inr (List.eq_of_mem_replicate hc)

theorem newline_not_mem (h : line.FitsColumns) : '\n' ∉ line.layOut := by
  rw [layOut, ← List.append_assoc, List.mem_append, not_or]
  constructor
  · intro hmem
    obtain hplain | hblank := h.plain_of_mem hmem
    · exact absurd hplain.2.1 (by decide)
    · exact absurd hblank (by decide)
  · unfold written
    split
    · simpa using h.newline
    · exact h.newline

/-- Nothing of the line is a comment. -/
theorem stripComment_layOut (h : line.FitsColumns) :
    SourceText.stripComment false line.layOut = line.layOut := by
  have hfront : ∀ c ∈ Text.padEnd 9 line.label.toList ++ Text.padEnd 8 line.mnemonic.toList,
      c ≠ '"' ∧ (c = ';' → false = true) := by
    intro c hc
    obtain hplain | rfl := h.plain_of_mem hc
    · exact ⟨hplain.2.2.2, fun hcomment => absurd hcomment hplain.2.2.1⟩
    · decide
  have hwritten : SourceText.stripComment false line.written = line.written := by
    have hquote : ∀ c ∈ line.operands.toList, c ≠ '"' := by
      intro c hc heq
      rw [heq] at hc
      exact h.quote hc
    unfold written
    split
    · -- a string is quoted throughout
      have hstring := SourceText.stripComment_of_forall true ['"']
        fun c hc => ⟨hquote c hc, fun _ => rfl⟩
      rw [List.cons_append, SourceText.stripComment, if_pos rfl, Bool.not_false, hstring]
      rfl
    · next hstrz =>
      have hoperands := SourceText.stripComment_of_forall false [] fun c hc =>
        ⟨hquote c hc, fun hcomment => absurd (hcomment ▸ hc) (h.comment hstrz)⟩
      rw [List.append_nil] at hoperands
      rw [hoperands, SourceText.stripComment, List.append_nil]
  rw [layOut, ← List.append_assoc, SourceText.stripComment_of_forall false _ hfront, hwritten]

/-- The line is neither blank nor a comment. -/
theorem isBare_layOut (h : line.FitsColumns) : SourceText.isBare line.layOut = false := by
  obtain ⟨hne, -, hplain⟩ := h.plain_mnemonic
  obtain ⟨m, hm⟩ := List.exists_mem_of_ne_nil _ hne
  -- the mnemonic is not blank, so the first such character stands in front of the operands
  have hfind : ((Text.padEnd 9 line.label.toList ++ Text.padEnd 8 line.mnemonic.toList).find?
      fun c => !Text.isBlank c).isSome = true := by
    rw [List.isSome_find?, List.any_eq_true]
    refine ⟨m, ?_, by simp [(hplain m hm).2.1]⟩
    exact List.mem_append_right _ (List.mem_append_left _ hm)
  obtain ⟨c, hc⟩ := Option.isSome_iff_exists.mp hfind
  have hcomment : c ≠ ';' := by
    obtain hplain | rfl := h.plain_of_mem (List.mem_of_find?_eq_some hc)
    · exact hplain.2.2.1
    · decide
  rw [SourceText.isBare, layOut, ← List.append_assoc, List.find?_append, hc]
  simpa using hcomment

/-- The line contributes itself. -/
theorem reading?_layOut (h : line.FitsColumns) :
    SourceText.reading? line.layOut = some (.ok line.unplaced) := by
  obtain ⟨span, hread⟩ := h.isRead_layOut 0 0
  rw [SourceText.reading?, h.isBare_layOut, h.stripComment_layOut,
    SourceText.readFields_ok_iff.mpr hread]
  rfl

end Line.FitsColumns

/-! ## whole texts -/

namespace SourceText

/-- Lines in fixed columns, each with its newline. -/
def ofLines (lines : List Line) : List Char := lines.flatMap fun line => line.layOut ++ ['\n']

theorem ofLines_cons (line : Line) (lines : List Line) :
    ofLines (line :: lines) = line.layOut ++ '\n' :: ofLines lines := by
  simp [ofLines]

variable {lines : List Line}

theorem length_lines_ofLines (h : ∀ line ∈ lines, line.FitsColumns) :
    (Text.lines (ofLines lines)).length = lines.length := by
  induction lines with
  | nil => rfl
  | cons line lines ih =>
      have hline := h line List.mem_cons_self
      rw [ofLines_cons, Text.lines_newline hline.newline_not_mem, List.length_cons,
        ih fun other hother => h other (List.mem_cons_of_mem _ hother), List.length_cons]

/-- Each line contributes itself. -/
theorem readings_ofLines (h : ∀ line ∈ lines, line.FitsColumns) :
    readings (ofLines lines) = lines.map fun line => .ok line.unplaced := by
  induction lines with
  | nil => rfl
  | cons line lines ih =>
      have hline := h line List.mem_cons_self
      rw [ofLines_cons, readings_line hline.newline_not_mem (.inr rfl), hline.reading?_layOut,
        List.tail_cons, ih fun other hother => h other (List.mem_cons_of_mem _ hother)]
      rfl

theorem checkFrame_of_isFramed (h : IsFramed lines) : checkFrame lines = .ok () := by
  cases h with
  | intro first body last orig close =>
      have horig : first.isDirective .orig = true :=
        beq_iff_eq.mpr (Operation.eq_mnemonic_of_parse? orig)
      have hclose : last.isDirective .end = true :=
        beq_iff_eq.mpr (Operation.eq_mnemonic_of_parse? close)
      have hlast : (first :: (body ++ [last])).getLast? = some last := by
        rw [← List.cons_append, List.getLast?_concat]
      simp [checkFrame, hlast, horig, hclose]

/-- What is read are the lines, wherever they stand. -/
theorem exists_read_ofLines (framed : IsFramed lines) (h : ∀ line ∈ lines, line.FitsColumns) :
    ∃ taken, read (String.ofList (ofLines lines)) = .ok taken ∧
      taken.map Line.unplaced = lines.map Line.unplaced := by
  have hreadings : (lines.map fun line => Except.ok line.unplaced).mapM id =
      (.ok (lines.map Line.unplaced) : Except Cause (List Line)) := by
    rw [List.mapM_map]
    exact List.mapM_pure
  have hframe : (checkFrame (lines.map Line.unplaced)).mapError Diagnostic.cause = .ok () := by
    rw [checkFrame_unplaced, checkFrame_of_isFramed framed]
    rfl
  have houtline : outlineAll (read (String.ofList (ofLines lines))) =
      .ok (lines.map Line.unplaced) := by
    rw [outlineAll_read, String.toList_ofList, readings_ofLines h, hreadings]
    exact congrArg (· >>= fun _ => pure (lines.map Line.unplaced)) hframe
  cases hread : read (String.ofList (ofLines lines)) with
  | error d =>
      rw [hread] at houtline
      cases houtline
  | ok taken =>
      rw [hread] at houtline
      exact ⟨taken, rfl, Except.ok.inj houtline⟩

theorem map_number_numberLines (number start : Nat) (pieces : List (List Char)) :
    (numberLines number start pieces).map PhysicalLine.number =
      List.range' number pieces.length := by
  induction pieces generalizing number start with
  | nil => rfl
  | cons piece pieces ih =>
      rw [numberLines, List.map_cons, ih, List.length_cons, List.range'_succ]

/-- Where no line is skipped, the lines that are read are numbered from one. -/
theorem map_number_of_read {source : String} {taken : List Line} (h : read source = .ok taken)
    (hlength : (Text.lines source.toList).length = taken.length) :
    taken.map Line.number = List.range' 1 taken.length := by
  have hlines := readLines_ok_iff.mp (readLines_of_read h)
  have hnumbers : ((physicalLines source.toList).map PhysicalLine.number) =
      List.range' 1 taken.length := by
    rw [physicalLines, map_number_numberLines, hlength]
  have hall : (physicalLines source.toList).length = taken.length := by
    rw [← List.length_map PhysicalLine.number, hnumbers, List.length_range']
  have hfilter : ((physicalLines source.toList).filter fun p => !p.isSkipped) =
      physicalLines source.toList := by
    rw [List.filter_eq_self, ← List.length_filter_eq_length_iff, hlines.length_eq, hall]
  rw [hfilter] at hlines
  have hsame : List.Forall₂ (· = ·) ((physicalLines source.toList).map PhysicalLine.number)
      (taken.map Line.number) := by
    rw [List.forall₂_map_left_iff, List.forall₂_map_right_iff]
    exact hlines.imp fun p line hread => (PhysicalLine.isRead_of_read hread).number.symm
  rw [List.forall₂_eq_eq_eq] at hsame
  rw [← hsame, hnumbers]

end SourceText

/-- Lines that are written in fixed columns are read back with the same fields, and are numbered
from one. -/
theorem fixed_columns_read_back {lines : List Line} (framed : IsFramed lines)
    (fits : ∀ line ∈ lines, line.FitsColumns) :
    ∃ taken, SourceText.read (String.ofList (SourceText.ofLines lines)) = .ok taken ∧
      taken.map (fun line => (line.label, line.mnemonic, line.operands)) =
        lines.map (fun line => (line.label, line.mnemonic, line.operands)) ∧
      taken.map Line.number = List.range' 1 lines.length := by
  obtain ⟨taken, hread, hsame⟩ := SourceText.exists_read_ofLines framed fits
  have hlength : taken.length = lines.length := by
    rw [← List.length_map Line.unplaced, hsame, List.length_map]
  refine ⟨taken, hread, ?_, ?_⟩
  · have hfields := congrArg
      (List.map fun line => (line.label, line.mnemonic, line.operands)) hsame
    simpa only [List.map_map, Function.comp_def, Line.label_unplaced, Line.mnemonic_unplaced,
      Line.operands_unplaced] using hfields
  · rw [← hlength]
    apply SourceText.map_number_of_read hread
    rw [String.toList_ofList, SourceText.length_lines_ofLines fits, hlength]

/-- Lines with a label of six characters, operands with blanks and characters of several bytes
inside, and strings with a `;`, blanks at the ends, a carriage return, or nothing in them. -/
def columnLines : List Line :=
  [{ label := "ABCDEF", mnemonic := ".ORIG", operands := "x3000", number := 7 },
   { label := "", mnemonic := "LD", operands := "R1, =\u00e9", number := 0 },
   { label := "S", mnemonic := ".STRZ", operands := " ;,=\u00e9\r", number := 0 },
   { label := "", mnemonic := ".STRZ", operands := "", number := 0 },
   { label := "", mnemonic := ".END", operands := "", number := 3 }]

theorem fixed_columns_read_back_columnLines :
    IsFramed columnLines ∧ (∀ line ∈ columnLines, line.FitsColumns) ∧
      ∃ taken, SourceText.read (String.ofList (SourceText.ofLines columnLines)) = .ok taken ∧
        taken.map (fun line => (line.label, line.mnemonic, line.operands)) =
          columnLines.map (fun line => (line.label, line.mnemonic, line.operands)) ∧
        taken.map Line.number = [1, 2, 3, 4, 5] := by
  have framed : IsFramed columnLines := .intro _ [_, _, _] _ rfl rfl
  have fits : ∀ line ∈ columnLines, line.FitsColumns := by
    intro line hline
    constructor
    all_goals
      revert line
      decide
  exact ⟨framed, fits, fixed_columns_read_back framed fits⟩

end PageAsm
