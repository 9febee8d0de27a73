import PageAsm.Proofs.Failure
import PageAsm.Proofs.Framing
import PageAsm.Proofs.SourceLine

/-!
# PageAsm.Proofs.Placement

Where diagnostics point.  A label marks whole characters of the source text, and
they are on the line that the message names:

```
Line 2: ...        front | text of line 2 | ...
                           ~~~~~
```

There is one exception.  A line that ends in front of the column of its
operation, or has the middle of a character there, has no operation; what is
marked then is that column, wherever it is (`Diagnostic.LacksOperation`).
-/

namespace PageAsm

open Outcome

namespace Diagnostic

variable {d : Diagnostic}

/-- The message begins with the number of a line. -/
def Names (d : Diagnostic) (n : Nat) : Prop := (s!"Line {n}:").toList <+: d.message.toList

/-- The labels of a diagnostic are in the text, and on the line that the message names. -/
structure IsPlaced (source : List Char) (d : Diagnostic) : Prop where
  inText : ∀ label ∈ d.labels, label.1.stop ≤ Text.byteSize source ∧
    Text.IsBoundary source label.1.offset ∧ Text.IsBoundary source label.1.stop
  inLine : ∀ n, d.Names n → ∀ label ∈ d.labels, ∃ front text,
    SourceText.IsLine source n front text ∧ Text.byteSize front ≤ label.1.offset ∧
      label.1.stop ≤ Text.byteSize front + Text.byteSize text

/-- The diagnostic is about a line without an operation, where no character starts or ends
at the column that the operation has to stand in. -/
def LacksOperation (source : List Char) (d : Diagnostic) : Prop :=
  d.cause = .unknownOperation "" ∧ ∃ n front text, d.number = some n ∧
    SourceText.IsLine source n front text ∧ ¬ Text.IsBoundary text 9

theorem span_of_mem_labels {label : Span × String} (h : label ∈ d.labels) : label.1 = d.span := by
  obtain ⟨text, -, rfl⟩ := List.mem_map.mp h
  rfl

/-! ## the line that a message names -/

/-- A number in front of a colon ends there. -/
theorem eq_of_isPrefix_colon {xs ys zs : List Char} (hxs : ':' ∉ xs) (hys : ':' ∉ ys)
    (h : xs ++ [':'] <+: ys ++ ':' :: zs) : xs = ys := by
  obtain ⟨rest, heq⟩ := h
  rw [List.append_assoc, List.singleton_append] at heq
  have hnumbers := congrArg (List.takeWhile (· != ':')) heq
  rw [Text.takeWhile_ne hxs (.inr rfl), Text.takeWhile_ne hys (.inr rfl)] at hnumbers
  exact hnumbers

theorem colon_not_mem_toDigits (n : Nat) : ':' ∉ Nat.toDigits 10 n := by
  intro hmem
  have hdigit := Nat.isDigit_of_mem_toDigits (by decide) (by decide) hmem
  cases hdigit

theorem eq_of_toDigits {m n : Nat} (h : Nat.toDigits 10 m = Nat.toDigits 10 n) : m = n := by
  rw [← @Nat.ofDigitChars_ten_toDigits m, h, Nat.ofDigitChars_ten_toDigits]

theorem message_eq {m : Nat} (h : d.number = some m) :
    d.message.toList =
      "Line ".toList ++ (Nat.toDigits 10 m ++ ':' :: ' ' :: d.cause.text.toList) := by
  have hmessage : d.message = "Line " ++ toString m ++ ": " ++ d.cause.text := by
    rw [message, h]
    rfl
  simp [hmessage]

theorem lineNumber_eq (n : Nat) :
    (s!"Line {n}:").toList = "Line ".toList ++ (Nat.toDigits 10 n ++ [':']) := by
  change ("Line " ++ toString n ++ ":").toList = _
  simp

/-- A message with a line number names that line and no other. -/
theorem names_iff {m n : Nat} (h : d.number = some m) : d.Names n ↔ n = m := by
  rw [Names, lineNumber_eq, message_eq h, List.prefix_append_right_inj]
  constructor
  · intro hnumber
    exact eq_of_toDigits
      (eq_of_isPrefix_colon (colon_not_mem_toDigits n) (colon_not_mem_toDigits m) hnumber)
  · intro heq
    rw [heq]
    exact ⟨' ' :: d.cause.text.toList, by simp⟩

/-- The messages about the frame of a segment name no line. -/
theorem not_names {n : Nat} (h : d.number = none)
    (hcause : d.cause = .missingOrig ∨ d.cause = .missingEnd) : ¬ d.Names n := by
  have hhead : d.message.toList.head? = some 'S' := by
    rw [message, h]
    obtain hcause | hcause := hcause
    · rw [hcause]
      rfl
    · rw [hcause]
      rfl
  intro hnames
  obtain ⟨rest, heq⟩ := hnames
  rw [lineNumber_eq] at heq
  rw [← heq] at hhead
  cases hhead

/-! ## lines and labels -/

variable {source : List Char} {p : SourceText.PhysicalLine}

/-- What is marked on a line is in the text. -/
theorem isPlaced_of_marks (hmem : p ∈ SourceText.physicalLines source)
    (hnamed : ∀ n, d.Names n → n = p.number) (hmarks : p.Marks d.span) : d.IsPlaced source := by
  obtain ⟨front, hline, hstart⟩ := SourceText.isLine_of_mem_physicalLines hmem
  obtain ⟨column, hoffset, hleft, hright⟩ := hmarks
  have hstop : d.span.stop = Text.byteSize front + (column + d.span.length) := by
    rw [Span.stop, hoffset, hstart, Nat.add_assoc]
  rw [hstart] at hoffset
  constructor
  · intro label hlabel
    rw [span_of_mem_labels hlabel, hstop, hoffset]
    have hend := (hline.isBoundary_iff hright.le).mpr hright
    exact ⟨hend.le, (hline.isBoundary_iff hleft.le).mpr hleft, hend⟩
  · intro n hnames label hlabel
    rw [hnamed n hnames, span_of_mem_labels hlabel, hstop, hoffset]
    refine ⟨front, p.text, hline, Nat.le_add_right _ _, ?_⟩
    exact Nat.add_le_add_left hright.le _

/-- What is marked on the line that the message names is marked on that line. -/
theorem marks_of_isPlaced (hmem : p ∈ SourceText.physicalLines source)
    (hnumber : d.number = some p.number) (hlabels : d.labels ≠ []) (h : d.IsPlaced source) :
    p.Marks d.span := by
  obtain ⟨front, hline, hstart⟩ := SourceText.isLine_of_mem_physicalLines hmem
  obtain ⟨label, hlabel⟩ := List.exists_mem_of_ne_nil _ hlabels
  obtain ⟨-, hleft, hright⟩ := h.inText label hlabel
  obtain ⟨front', text', hline', hfrom, hto⟩ :=
    h.inLine p.number ((names_iff hnumber).mpr rfl) label hlabel
  obtain ⟨rfl, rfl⟩ := hline.unique hline'
  rw [span_of_mem_labels hlabel] at hleft hright hfrom hto
  obtain ⟨column, hoffset⟩ := Nat.exists_eq_add_of_le hfrom
  rw [Span.stop, hoffset, Nat.add_assoc] at hright hto
  have hle : column + d.span.length ≤ Text.byteSize p.text := Nat.le_of_add_le_add_left hto
  rw [hoffset] at hleft
  refine ⟨column, by rw [hoffset, hstart], ?_, (hline.isBoundary_iff hle).mp hright⟩
  exact (hline.isBoundary_iff (Nat.le_of_add_right_le hle)).mp hleft

theorem lacksOperation_iff (hmem : p ∈ SourceText.physicalLines source)
    (hnumber : d.number = some p.number) :
    d.LacksOperation source ↔
      d.cause = .unknownOperation "" ∧ ¬ Text.IsBoundary p.text 9 := by
  obtain ⟨front, hline, -⟩ := SourceText.isLine_of_mem_physicalLines hmem
  refine and_congr_right fun _ => ?_
  constructor
  · intro h
    obtain ⟨n, front', text', hn, hline', hboundary⟩ := h
    rw [hnumber] at hn
    cases hn
    rw [(hline.unique hline').2] at hboundary
    exact hboundary
  · intro h
    exact ⟨p.number, front, p.text, hnumber, hline, h⟩

end Diagnostic

/-! ## reading and assembling -/

namespace SourceText

/-- A segment without its frame: the diagnostic is about the first line or the last, or
there is no line. -/
theorem checkFrame_eq_error {lines : List Line} {d : Diagnostic}
    (h : checkFrame lines = .error d) :
    d.number = none ∧ (d.cause = .missingOrig ∨ d.cause = .missingEnd) ∧
      (d.span = .nowhere ∨ ∃ line ∈ lines, d.span = line.span) := by
  unfold checkFrame at h
  split at h
  · next first last hfirst hlast =>
    split at h
    · cases h
      exact ⟨rfl, .inl rfl, .inr ⟨first, List.mem_of_head? hfirst, rfl⟩⟩
    · split at h
      · cases h
        exact ⟨rfl, .inr rfl, .inr ⟨last, List.mem_of_getLast? hlast, rfl⟩⟩
      · cases h
  · cases h
    exact ⟨rfl, .inl rfl, .inl rfl⟩

variable {source : String} {lines : List Line} {line : Line} {d : Diagnostic}

/-- Reading fails for a line, or for the frame of the segment. -/
theorem read_eq_error (h : read source = .error d) :
    (∃ p ∈ physicalLines source.toList, p.read = .error d) ∨
      ∃ lines, readLines (physicalLines source.toList) = .ok lines ∧
        checkFrame lines = .error d := by
  unfold read at h
  cases hlines : readLines (physicalLines source.toList) with
  | error d' =>
      rw [hlines] at h
      cases h
      exact .inl (exists_read_of_error hlines)
  | ok lines =>
      rw [hlines] at h
      cases hframe : checkFrame lines with
      | error d' =>
          simp only [bind, Except.bind, hframe] at h
          cases h
          exact .inr ⟨lines, rfl, hframe⟩
      | ok u =>
          simp only [bind, Except.bind, hframe] at h
          cases h

theorem readLines_of_read (h : read source = .ok lines) :
    readLines (physicalLines source.toList) = .ok lines := by
  simp only [read, bind_eq_ok, pure_eq_ok] at h
  obtain ⟨lines, hlines, ⟨⟩, -, rfl⟩ := h
  exact hlines

/-- A diagnostic about the frame of a segment is in the text. -/
theorem isPlaced_of_checkFrame (hlines : readLines (physicalLines source.toList) = .ok lines)
    (h : checkFrame lines = .error d) : d.IsPlaced source.toList := by
  obtain ⟨hnumber, hcause, hspan⟩ := checkFrame_eq_error h
  obtain hspan | ⟨line, hmem, hspan⟩ := hspan
  · constructor
    · intro label hlabel
      rw [Diagnostic.span_of_mem_labels hlabel, hspan]
      exact ⟨Nat.zero_le _, Text.isBoundary_zero _, Text.isBoundary_zero _⟩
    · intro n hnames
      exact absurd hnames (Diagnostic.not_names hnumber hcause)
  · obtain ⟨p, hp, hread⟩ := exists_read_of_mem hlines hmem
    refine Diagnostic.isPlaced_of_marks hp (fun n hnames => ?_) ?_
    · exact absurd hnames (Diagnostic.not_names hnumber hcause)
    · rw [hspan]
      exact (p.marks_of_read hread).2.1

end SourceText

/-- Assembling fails for one of the lines that are read. -/
theorem exists_line_of_diagnostic {source : String} {lines : List Line} {d : Diagnostic}
    (hread : SourceText.read source = .ok lines)
    (h : assembleSource source = .error (.diagnostic d)) :
    ∃ line ∈ lines, ∃ cause, d = line.diagnostic cause := by
  apply exists_line_of_attempt
  rw [assembleSource_of_read hread] at h
  cases hout : (attempt lines).outcome with
  | error f =>
      rw [hout] at h
      cases h
      rfl
  | ok t =>
      rw [hout] at h
      cases h

namespace Diagnostic

variable {source : String} {d : Diagnostic}

/-- A diagnostic about a line that cannot be read is in the text unless that line lacks its
operation. -/
theorem isPlaced_iff_of_read {p : SourceText.PhysicalLine}
    (hmem : p ∈ SourceText.physicalLines source.toList) (h : p.read = .error d) :
    d.IsPlaced source.toList ↔ ¬ d.LacksOperation source.toList := by
  obtain ⟨hnumber, hlabels, hmarks⟩ := p.marks_iff_of_read h
  rw [lacksOperation_iff hmem hnumber, ← hmarks]
  constructor
  · exact marks_of_isPlaced hmem hnumber hlabels
  · exact isPlaced_of_marks hmem fun n => (names_iff hnumber).mp

/-- Every other diagnostic is in the text. -/
theorem isPlaced_or_exists_read (h : assembleSource source = .error (.diagnostic d)) :
    (d.IsPlaced source.toList ∧ ¬ d.LacksOperation source.toList) ∨
      ∃ p ∈ SourceText.physicalLines source.toList, p.read = .error d := by
  cases hread : SourceText.read source with
  | error d' =>
      rw [assembleSource, hread] at h
      cases h
      obtain hread | ⟨lines, hlines, hframe⟩ := SourceText.read_eq_error hread
      · exact .inr hread
      · obtain ⟨-, hcause, -⟩ := SourceText.checkFrame_eq_error hframe
        refine .inl ⟨SourceText.isPlaced_of_checkFrame hlines hframe, fun hlacks => ?_⟩
        rw [hlacks.1] at hcause
        cases hcause with
        | inl hcause => cases hcause
        | inr hcause => cases hcause
  | ok lines =>
      obtain ⟨line, hmem, cause, rfl⟩ := exists_line_of_diagnostic hread h
      have hlines := SourceText.readLines_of_read hread
      obtain ⟨p, hp, hline⟩ := SourceText.exists_read_of_mem hlines hmem
      obtain ⟨hnumber, hmarks, hboundary⟩ := p.marks_of_read hline
      have hnumber' : (line.diagnostic cause).number = some p.number := congrArg some hnumber
      rw [lacksOperation_iff hp hnumber']
      refine .inl ⟨?_, fun hlacks => hlacks.2 hboundary⟩
      exact isPlaced_of_marks hp (fun n => (names_iff hnumber').mp) hmarks

end Diagnostic

/-- The labels of a diagnostic mark whole characters of the source text, on the line that
its message names, unless the line has no operation and no character starts or ends at the
column where that has to stand. -/
theorem diagnostics_point_into_source {source : String} {d : Diagnostic}
    (h : assembleSource source = .error (.diagnostic d)) :
    d.IsPlaced source.toList ↔ ¬ d.LacksOperation source.toList := by
  obtain ⟨hplaced, hlacks⟩ | ⟨p, hmem, hp⟩ := Diagnostic.isPlaced_or_exists_read h
  · exact iff_of_true hplaced hlacks
  · exact Diagnostic.isPlaced_iff_of_read hmem hp

/-- Source text whose only line ends in front of the column of its operation. -/
def shortLine : String := "LABEL"

/-- The label is four bytes behind the end of the text. -/
theorem not_isPlaced_of_shortLine :
    ∃ d, assembleSource shortLine = .error (.diagnostic d) ∧
      d.labels = [(⟨9, 0⟩, "unknown operation")] ∧ Text.byteSize shortLine.toList = 5 ∧
      ¬ d.IsPlaced shortLine.toList := by
  refine ⟨_, rfl, rfl, by decide, fun h => ?_⟩
  have hstop := (h.inText _ List.mem_cons_self).1
  revert hstop
  decide

/-- Source text with an error on its second line, behind characters of several bytes. -/
def wideCharacters : String :=
  "P        .ORIG    ; \u00e9\n         LD       R1,\u00e9\u20ac\n         .END"

theorem diagnostics_point_into_source_wideCharacters :
    ∃ d, assembleSource wideCharacters = .error (.diagnostic d) ∧
      d.IsPlaced wideCharacters.toList := by
  obtain ⟨d, h, hcause⟩ : ∃ d, assembleSource wideCharacters = .error (.diagnostic d) ∧
      d.cause ≠ .unknownOperation "" := ⟨_, rfl, by decide⟩
  exact ⟨d, h, (diagnostics_point_into_source h).mpr fun hlacks => hcause hlacks.1⟩

end PageAsm
