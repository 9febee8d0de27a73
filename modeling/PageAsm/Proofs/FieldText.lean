import Mathlib.Data.List.Forall2
import PageAsm.Proofs.LineSpans
import PageAsm.Proofs.SourceEdits

/-!
# PageAsm.Proofs.FieldText

What the fields of a line keep of its text.  The columns of a line lie side by
side, so what is not blank is in a field, or in a gap and then the line is not
read:

```
0        6      9            14     17
label    gap    operation    gap    operands
```

Columns are cut at bytes.  Where a character lies across column 6 or column 17,
neither the field nor the gap beside it can be cut out, and both count as empty:
the label or the operands are lost, with what stands in the gap
(`PhysicalLine.Loses`).  Nothing else gets lost (`fields_keep_text_iff`).
-/

namespace PageAsm

open Outcome

namespace Text

variable {cs front mid back : List Char} {n start stop : Nat}

/-! ## text without blanks -/

/-- The characters that are not blank. -/
def visible (cs : List Char) : List Char := cs.filter fun c => !isBlank c

@[simp] theorem visible_nil : visible [] = [] := rfl

@[simp] theorem visible_append (xs ys : List Char) :
    visible (xs ++ ys) = visible xs ++ visible ys :=
  List.filter_append xs ys

theorem visible_dropWhile (cs : List Char) : visible (cs.dropWhile isBlank) = visible cs := by
  induction cs with
  | nil => rfl
  | cons c cs ih =>
      cases h : isBlank c with
      | true => simpa [h, visible] using ih
      | false => simp [h]

/-- Trimming takes off blanks only. -/
@[simp] theorem visible_trim (cs : List Char) : visible (trim cs) = visible cs := by
  have hend : ∀ xs, visible (dropEndWhile isBlank xs) = visible xs := by
    intro xs
    have hdrop := visible_dropWhile xs.reverse
    unfold visible at hdrop ⊢
    rw [dropEndWhile, List.filter_reverse, hdrop, List.filter_reverse, List.reverse_reverse]
  rw [trim, trimEnd, hend, trimStart, visible_dropWhile]

/-! ## columns that can be cut out -/

/-- A character lies across the offset: it is in the text, but between no two characters. -/
def Straddles (cs : List Char) (n : Nat) : Prop := n ≤ byteSize cs ∧ ¬ IsBoundary cs n

/-- There is one way to cut a text at an offset. -/
theorem exists_cut_iff {P : List Char → List Char → Prop} :
    (∃ xs ys, front ++ back = xs ++ ys ∧ byteSize xs = byteSize front ∧ P xs ys) ↔
      P front back := by
  constructor
  · intro h
    obtain ⟨xs, ys, heq, hsize, hP⟩ := h
    obtain ⟨more, rfl, rfl⟩ | ⟨more, rfl, rfl⟩ := List.append_eq_append_iff.mp heq
    · rw [byteSize_append] at hsize
      have hmore : more = [] := byteSize_eq_zero.mp (by omega)
      simpa [hmore] using hP
    · rw [byteSize_append] at hsize
      have hmore : more = [] := byteSize_eq_zero.mp (by omega)
      simpa [hmore] using hP
  · intro h
    exact ⟨front, back, rfl, rfl, h⟩

/-- A column between two characters is the text between them. -/
theorem column_append (hstart : byteSize front = start)
    (hstop : byteSize (front ++ mid) = min stop (byteSize (front ++ (mid ++ back)))) :
    column (front ++ (mid ++ back)) start stop = mid := by
  have hle : byteSize front ≤ byteSize (front ++ mid) := by simp
  have hmid : byteSize (front ++ mid) - byteSize front = byteSize mid := by simp
  have hdrop : dropBytes? (front ++ (mid ++ back)) (byteSize front) = some (mid ++ back) := by
    rw [dropBytes?_append (Nat.le_refl _), dropBytes?_byteSize]
    rfl
  simp only [column, slice?, ← hstop, ← hstart, Nat.min_eq_left hle, hdrop, Option.bind_some, hmid,
    takeBytes?_append (Nat.le_refl _), takeBytes?_byteSize, Option.getD_some]

/-- A column that starts behind the text is empty. -/
theorem column_eq_nil_of_le (h : byteSize cs ≤ start) : column cs start stop = [] := by
  apply Classical.byContradiction
  intro hne
  obtain ⟨front, back, hcs, hfront, -⟩ := append_of_column hne
  have hsize := congrArg byteSize hcs
  simp only [byteSize_append] at hsize
  exact hne (byteSize_eq_zero.mp (by omega))

/-- A column is empty if a character lies across its start. -/
theorem column_eq_nil_of_start (h : Straddles cs start) : column cs start stop = [] := by
  apply Classical.byContradiction
  intro hne
  obtain ⟨front, back, hcs, hfront, -⟩ := append_of_column hne
  exact h.2 ⟨front, _, hcs, hfront⟩

/-- A column is empty if a character lies across its end. -/
theorem column_eq_nil_of_stop (h : Straddles cs stop) : column cs start stop = [] := by
  apply Classical.byContradiction
  intro hne
  obtain ⟨front, back, hcs, -, hstop⟩ := append_of_column hne
  rw [Nat.min_eq_left h.1] at hstop
  exact h.2 ⟨_, back, by simpa using hcs, hstop⟩

end Text

namespace SourceText

/-! ## the fields of a line -/

/-- A field between two characters is the text between them, trimmed. -/
theorem Columns.field_append {cols : Columns} {code front mid back : List Char}
    (hcode : code = front ++ (mid ++ back)) (hstart : Text.byteSize front = cols.start)
    (hstop : Text.byteSize (front ++ mid) = min cols.stop (Text.byteSize code)) :
    cols.field code = Text.trim mid := by
  subst hcode
  rw [field, raw, Text.column_append hstart hstop]

theorem Columns.visible_field {cols : Columns} {code front mid back : List Char}
    (hcode : code = front ++ (mid ++ back)) (hstart : Text.byteSize front = cols.start)
    (hstop : Text.byteSize (front ++ mid) = min cols.stop (Text.byteSize code)) :
    Text.visible (cols.field code) = Text.visible mid := by
  rw [field_append hcode hstart hstop, Text.visible_trim]

theorem Columns.visible_field_of_raw {cols : Columns} {code : List Char}
    (h : cols.raw code = []) : Text.visible (cols.field code) = [] := by
  rw [field, h]
  rfl

namespace IsRead

variable {code head front rest : List Char} {start number : Nat} {line : Line}

/-- The operation of a line that is read stands in its columns. -/
theorem exists_parts (h : IsRead code start number line) :
    ∃ head operation rest, code = head ++ (operation ++ rest) ∧ Text.byteSize head = 9 ∧
      Text.byteSize (head ++ operation) = min 14 (Text.byteSize code) ∧
      Text.visible line.mnemonic.toList = Text.visible operation := by
  obtain ⟨head, rest, hcode, hhead, hstop⟩ :=
    Text.append_of_column (Columns.raw_ne_nil h.operation_ne_nil)
  refine ⟨head, _, rest, hcode, hhead, hstop, ?_⟩
  rw [h.toList_mnemonic]
  exact Columns.visible_field hcode hhead hstop

/-- What stands in front of the operation is the label, unless a character lies across the
column behind the label. -/
theorem label_cases (h : IsRead code start number line) (hcode : code = head ++ rest)
    (hhead : Text.byteSize head = 9) :
    (Text.Straddles code 6 ∧ Text.visible line.label.toList = []) ∨
      (¬ Text.Straddles code 6 ∧ Text.visible line.label.toList = Text.visible head) := by
  rw [h.toList_label]
  by_cases hsix : Text.Straddles code 6
  · exact .inl ⟨hsix, Columns.visible_field_of_raw (Text.column_eq_nil_of_stop hsix)⟩
  · right
    have hsize : Text.byteSize code = 9 + Text.byteSize rest := by
      rw [hcode, Text.byteSize_append, hhead]
    have hboundary : Text.IsBoundary (head ++ rest) 6 := by
      rw [← hcode]
      exact Classical.not_not.mp fun hnot => hsix ⟨by omega, hnot⟩
    obtain ⟨label, gap, rfl, hlabel⟩ := (Text.isBoundary_append_left (by omega)).mp hboundary
    rw [List.append_assoc] at hcode
    have hgap : Text.visible (Columns.firstGap.field code) = Text.visible gap := by
      refine Columns.visible_field hcode hlabel ?_
      simp only [Columns.firstGap]
      omega
    rw [h.firstGap, Text.visible_nil] at hgap
    refine ⟨hsix, ?_⟩
    rw [Text.visible_append, ← hgap, List.append_nil]
    have hstart : code = [] ++ (label ++ (gap ++ rest)) := hcode
    refine Columns.visible_field hstart rfl ?_
    simp only [Columns.label, List.nil_append]
    omega

/-- What stands behind the operation are the operands, unless a character lies across the
column in front of them. -/
theorem operands_cases (h : IsRead code start number line) (hcode : code = front ++ rest)
    (hfront : Text.byteSize front = min 14 (Text.byteSize code)) :
    (Text.Straddles code 17 ∧ Text.visible ((Columns.operands code).field code) = []) ∨
      (¬ Text.Straddles code 17 ∧
        Text.visible ((Columns.operands code).field code) = Text.visible rest) := by
  by_cases hlast : Text.Straddles code 17
  · exact .inl ⟨hlast, Columns.visible_field_of_raw (Text.column_eq_nil_of_start hlast)⟩
  · right
    refine ⟨hlast, ?_⟩
    have hsize : Text.byteSize code = Text.byteSize front + Text.byteSize rest := by
      rw [hcode, Text.byteSize_append]
    by_cases hshort : Text.byteSize code < 17
    · -- the line ends in front of the operands, and all that is left is the gap
      rw [Columns.visible_field_of_raw (Text.column_eq_nil_of_le (Nat.le_of_lt hshort))]
      by_cases hnone : Text.byteSize rest = 0
      · rw [Text.byteSize_eq_zero.mp hnone, Text.visible_nil]
      · have hgap : Text.visible (Columns.secondGap.field code) = Text.visible rest := by
          refine Columns.visible_field (by rw [List.append_nil]; exact hcode) ?_ ?_
          · simp only [Columns.secondGap]
            omega
          · rw [← hcode]
            simp only [Columns.secondGap]
            omega
        rw [← hgap, h.secondGap, Text.visible_nil]
    · have hboundary : Text.IsBoundary code 17 :=
        Classical.not_not.mp fun hnot => hlast ⟨by omega, hnot⟩
      have hthree : Text.IsBoundary (front ++ rest) (Text.byteSize front + 3) := by
        rw [← hcode, hfront, Nat.min_eq_left (by omega)]
        exact hboundary
      obtain ⟨gap, operands, rfl, hthree⟩ := Text.isBoundary_append_right.mp hthree
      have hgap : Text.visible (Columns.secondGap.field code) = Text.visible gap := by
        refine Columns.visible_field hcode ?_ ?_
        · simp only [Columns.secondGap]
          omega
        · simp only [Columns.secondGap, Text.byteSize_append]
          omega
      rw [h.secondGap, Text.visible_nil] at hgap
      rw [Text.visible_append, ← hgap, List.nil_append]
      have hwhole : code = (front ++ gap) ++ (operands ++ []) := by simp [hcode]
      refine Columns.visible_field hwhole ?_ ?_
      · simp only [Columns.operands, Text.byteSize_append]
        omega
      · rw [List.append_assoc, ← hcode]
        simp only [Columns.operands]
        omega

end IsRead

namespace PhysicalLine

/-- The operand field of the line, with the quotes of a string. -/
def operandField (p : PhysicalLine) : List Char := (Columns.operands p.code).field p.code

/-- The fields that are taken from the line hold all its text, blanks and comment apart. -/
def Keeps (p : PhysicalLine) (line : Line) : Prop :=
  Text.visible p.code = Text.visible line.label.toList ++ (Text.visible line.mnemonic.toList ++
    Text.visible p.operandField)

/-- A character lies across column 6 and there is text in front of the operation, or a character
lies across column 17 and there is text behind the operation. -/
def Loses (p : PhysicalLine) : Prop :=
  (Text.Straddles p.code 6 ∧ ∃ front back, p.code = front ++ back ∧ Text.byteSize front = 9 ∧
    Text.visible front ≠ []) ∨
  (Text.Straddles p.code 17 ∧ ∃ front back, p.code = front ++ back ∧ Text.byteSize front = 14 ∧
    Text.visible back ≠ [])

variable {p : PhysicalLine} {line : Line}

/-- A line that is read keeps its text, unless a character lies across the end of its label or
the start of its operands. -/
theorem keeps_iff_of_read (h : p.read = .ok line) : p.Keeps line ↔ ¬ p.Loses := by
  have hread := isRead_of_read h
  obtain ⟨head, operation, rest, hcode, hhead, hstop, hmnemonic⟩ := hread.exists_parts
  have hbehind : p.code = (head ++ operation) ++ rest := by rw [hcode, List.append_assoc]
  have hlabel := hread.label_cases hcode hhead
  have hoperands := hread.operands_cases hbehind hstop
  have hlabelText : (∃ front back, p.code = front ++ back ∧ Text.byteSize front = 9 ∧
      Text.visible front ≠ []) ↔ Text.visible head ≠ [] := by
    rw [hcode, ← hhead]
    exact Text.exists_cut_iff
  have hoperandsText : Text.Straddles p.code 17 → ((∃ front back, p.code = front ++ back ∧
      Text.byteSize front = 14 ∧ Text.visible back ≠ []) ↔ Text.visible rest ≠ []) := by
    intro hlast
    have hlong := hlast.1
    rw [Nat.min_eq_left (by omega)] at hstop
    rw [hbehind, ← hstop]
    exact Text.exists_cut_iff
  rw [Loses, hlabelText, and_congr_right hoperandsText, Keeps, hmnemonic, hcode,
    Text.visible_append, Text.visible_append, ← hcode, operandField]
  obtain ⟨hsix, hlabel⟩ | ⟨hsix, hlabel⟩ := hlabel
  · obtain ⟨hlast, hoperands⟩ | ⟨hlast, hoperands⟩ := hoperands
    · rw [hlabel, hoperands]
      simp only [hsix, hlast, true_and, not_or, Classical.not_not, List.nil_append, List.append_nil]
      constructor
      · intro heq
        have hlength := congrArg List.length heq
        simp only [List.length_append] at hlength
        exact ⟨List.eq_nil_of_length_eq_zero (by omega), List.eq_nil_of_length_eq_zero (by omega)⟩
      · intro hnone
        rw [hnone.1, hnone.2, List.nil_append, List.append_nil]
    · rw [hlabel, hoperands]
      simp [hsix, hlast]
  · obtain ⟨hlast, hoperands⟩ | ⟨hlast, hoperands⟩ := hoperands
    · rw [hlabel, hoperands]
      simp [hsix, hlast]
    · rw [hlabel, hoperands]
      simp [hsix, hlast]

end PhysicalLine

/-! ## the lines of a text -/

/-- Lines are read one by one, in their order. -/
theorem readLines_ok_iff {ps : List PhysicalLine} {lines : List Line} :
    readLines ps = .ok lines ↔
      List.Forall₂ (fun p line => p.read = .ok line) (ps.filter fun p => !p.isSkipped) lines := by
  induction ps generalizing lines with
  | nil =>
      rw [readLines, List.filter_nil, List.forall₂_nil_left_iff, Except.ok.injEq]
      exact eq_comm
  | cons p ps ih =>
      rw [readLines]
      split
      · next hskipped => rw [List.filter_cons_of_neg (by simp [hskipped]), ih]
      · next hskipped =>
        rw [List.filter_cons_of_pos (by simp [hskipped]), List.forall₂_cons_left_iff]
        simp only [bind_eq_ok, pure_eq_ok, ← ih]
        constructor
        · intro h
          obtain ⟨first, hfirst, rest, hrest, rfl⟩ := h
          exact ⟨first, rest, hfirst, hrest, rfl⟩
        · intro h
          obtain ⟨first, rest, hfirst, hrest, rfl⟩ := h
          exact ⟨first, hfirst, rest, hrest, rfl⟩

end SourceText

/-- Every line that is neither blank nor a comment is read, in order, and its label, mnemonic
and operand field hold its text, unless a character lies across the end of the label or the
start of the operands, with text beside it. -/
theorem fields_keep_text_iff {source : String} {lines : List Line}
    (h : SourceText.read source = .ok lines) :
    List.Forall₂
      (fun p line =>
        line.operands.toList = (if line.operation? = some (.directive .strz) then
          SourceText.stripQuotes p.operandField else p.operandField) ∧
        (p.Keeps line ↔ ¬ p.Loses))
      ((SourceText.physicalLines source.toList).filter fun p => !p.isSkipped) lines := by
  refine (SourceText.readLines_ok_iff.mp (SourceText.readLines_of_read h)).imp ?_
  intro p line hread
  refine ⟨?_, SourceText.PhysicalLine.keeps_iff_of_read hread⟩
  rw [(SourceText.PhysicalLine.isRead_of_read hread).operands, String.toList_ofList]
  rfl

/-- Source text with a label that goes over the end of its columns. -/
def wideLabel : String := "ABCDE\u00e9  .ORIG\n         .END"

/-- The text is read, and the label is lost. -/
theorem not_keeps_of_wideLabel :
    ∃ p first last, SourceText.read wideLabel = .ok [first, last] ∧
      p ∈ SourceText.physicalLines wideLabel.toList ∧ p.isSkipped = false ∧
      p.read = .ok first ∧ first.label = "" ∧ ¬ p.Keeps first := by
  refine ⟨_, _, _, rfl, List.mem_cons_self, rfl, rfl, rfl, ?_⟩
  unfold SourceText.PhysicalLine.Keeps
  decide

/-- Source text with a label of several bytes, a blank that lies across the end of the label on
the second line, and operands that do so at their start. -/
def wideFields : String :=
  "P\u00e9      .ORIG\n     \u2003 .FILL  \u00e9\n         .END"

theorem fields_keep_text_iff_wideFields :
    ∃ lines, SourceText.read wideFields = .ok lines ∧
      lines.map Line.operands = ["", "", ""] ∧
      List.Forall₂
        (fun p line =>
          line.operands.toList = (if line.operation? = some (.directive .strz) then
            SourceText.stripQuotes p.operandField else p.operandField) ∧
          (p.Keeps line ↔ ¬ p.Loses))
        ((SourceText.physicalLines wideFields.toList).filter fun p => !p.isSkipped) lines := by
  obtain ⟨lines, h, hoperands⟩ : ∃ lines, SourceText.read wideFields = .ok lines ∧
      lines.map Line.operands = ["", "", ""] := ⟨_, rfl, by decide⟩
  exact ⟨lines, h, hoperands, fields_keep_text_iff h⟩

end PageAsm
