import PageAsm.Proofs.Renumbering
import PageAsm.Proofs.SourceLine

/-!
# PageAsm.Proofs.SourceEdits

Comments, blank lines and line endings do not matter.  An `Edit` changes nothing
that is assembled:

```
insert     a line that is blank, or a comment
returns    a carriage return in front of every newline
comment    a comment behind a line that closes its quotes
```

What a text contributes is the list of its `readings`, one for each line that is
not skipped, without numbers and places.  An edit keeps the readings
(`Edit.readings_eq`), and texts with the same readings have the same outcome
(`agree_of_readings_eq`).
-/

namespace PageAsm

open Outcome

/-! ## trimming and cutting -/

namespace Text

variable {cs xs ys : List Char} {c : Char} {n start stop : Nat}

/-- A blank at the end does not count. -/
theorem trim_concat_blank (h : isBlank c = true) : trim (cs ++ [c]) = trim cs := by
  unfold trim trimStart trimEnd
  rw [List.dropWhile_append]
  split
  · next hblank =>
    have hnil : cs.dropWhile isBlank = [] := by simpa using hblank
    simp [hnil, h]
  · rw [dropEndWhile_concat, if_pos h]

/-- A character that stays in front of what is dropped. -/
theorem dropEndWhile_cons (p : Char → Bool) (h : p c = false) :
    dropEndWhile p (c :: cs) = c :: dropEndWhile p cs := by
  unfold dropEndWhile
  rw [List.reverse_cons, List.dropWhile_append]
  split
  · next hnil =>
    have hdrop : cs.reverse.dropWhile p = [] := by simpa using hnil
    simp [hdrop, h]
  · simp

/-- The first character of the trimmed text is the first one that is not blank. -/
theorem head?_trim (cs : List Char) : (trim cs).head? = cs.find? fun c => !isBlank c := by
  induction cs with
  | nil => rfl
  | cons c cs ih =>
      cases h : isBlank c with
      | true => simpa [trim, trimStart, h] using ih
      | false => simp [trim, trimStart, trimEnd, h, dropEndWhile_cons]

theorem dropBytes?_append (h : n ≤ byteSize xs) :
    dropBytes? (xs ++ ys) n = (dropBytes? xs n).map (· ++ ys) := by
  induction xs generalizing n with
  | nil =>
      have hn : n = 0 := by simpa using h
      simp [hn]
  | cons x xs ih =>
      cases n with
      | zero => simp
      | succ n =>
          rw [byteSize_cons] at h
          simp only [List.cons_append, dropBytes?]
          split
          · exact ih (by omega)
          · rfl

theorem dropBytes?_byteSize (cs : List Char) : dropBytes? cs (byteSize cs) = some [] := by
  induction cs with
  | nil => rfl
  | cons c cs ih =>
      have := c.utf8Size_pos
      obtain ⟨n, hn⟩ : ∃ n, c.utf8Size + byteSize cs = n + 1 :=
        Nat.exists_eq_succ_of_ne_zero (by omega)
      rw [byteSize_cons, hn, dropBytes?, if_pos (by omega), ← hn, Nat.add_sub_cancel_left, ih]

theorem takeBytes?_append (h : n ≤ byteSize xs) : takeBytes? (xs ++ ys) n = takeBytes? xs n := by
  induction xs generalizing n with
  | nil =>
      have hn : n = 0 := by simpa using h
      simp [hn]
  | cons x xs ih =>
      cases n with
      | zero => rfl
      | succ n =>
          rw [byteSize_cons] at h
          simp only [List.cons_append, takeBytes?]
          split
          · rw [ih (by omega)]
          · rfl

theorem takeBytes?_byteSize (cs : List Char) : takeBytes? cs (byteSize cs) = some cs :=
  takeBytes?_eq_some_iff.mpr ⟨List.prefix_refl cs, rfl⟩

/-- A column of a text with a character of one byte more is the same, or has this character
more. -/
theorem column_concat (h : c.utf8Size = 1) :
    column (cs ++ [c]) start stop = column cs start stop ∨
      column (cs ++ [c]) start stop = column cs start stop ++ [c] := by
  have hsize : byteSize (cs ++ [c]) = byteSize cs + 1 := by simp [h]
  simp only [column, slice?, hsize]
  by_cases hstop : stop ≤ byteSize cs
  · -- the column ends in front of the new character
    left
    rw [Nat.min_eq_left hstop, Nat.min_eq_left (by omega : stop ≤ byteSize cs + 1),
      dropBytes?_append (by omega)]
    cases hdrop : dropBytes? cs (min start stop) with
    | none => rfl
    | some rest =>
        obtain ⟨front, rfl, hfront⟩ := append_of_dropBytes? hdrop
        rw [byteSize_append] at hstop
        have hrest : stop - min start stop ≤ byteSize rest := by omega
        simp only [Option.map_some, Option.bind_some, takeBytes?_append hrest]
  · rw [Nat.min_eq_right (by omega : byteSize cs + 1 ≤ stop),
      Nat.min_eq_right (by omega : byteSize cs ≤ stop)]
    by_cases hstart : start ≤ byteSize cs
    · -- the column goes on over the new character
      rw [Nat.min_eq_left hstart, Nat.min_eq_left (by omega), dropBytes?_append hstart]
      cases hdrop : dropBytes? cs start with
      | none => exact .inl rfl
      | some rest =>
          right
          obtain ⟨front, rfl, rfl⟩ := append_of_dropBytes? hdrop
          have hrest : byteSize (front ++ rest) - byteSize front = byteSize rest := by simp
          have hmore : byteSize (front ++ rest) + 1 - byteSize front = byteSize (rest ++ [c]) := by
            simp only [byteSize_append, byteSize_cons, byteSize_nil, h]
            omega
          simp only [Option.map_some, Option.bind_some, hrest, hmore, takeBytes?_byteSize,
            Option.getD_some]
    · -- the column starts behind the text
      left
      rw [Nat.min_eq_right (by omega : byteSize cs + 1 ≤ start),
        Nat.min_eq_right (by omega : byteSize cs ≤ start), ← hsize, dropBytes?_byteSize,
        dropBytes?_byteSize]
      simp

/-- A column that ends behind the text goes to its end. -/
theorem column_of_le (h : byteSize cs ≤ stop) :
    column cs start stop = column cs start (byteSize cs) := by
  simp only [column, Nat.min_eq_right h, Nat.min_self]

theorem trim_column_concat (hblank : isBlank c = true) (hbyte : c.utf8Size = 1) :
    trim (column (cs ++ [c]) start stop) = trim (column cs start stop) := by
  obtain h | h := column_concat hbyte
  · rw [h]
  · rw [h, trim_concat_blank hblank]

/-! ## lines -/

theorem lines_cons (c : Char) (cs : List Char) :
    lines (c :: cs) = if c = '\n' then [c] :: lines cs else consFirst c (lines cs) := rfl

theorem lines_ne_nil (h : cs ≠ []) : lines cs ≠ [] := by
  cases cs with
  | nil => contradiction
  | cons c cs =>
      rw [lines_cons]
      split
      · simp
      · cases lines cs <;> simp [consFirst]

/-- Behind a newline the lines start anew. -/
theorem lines_append (h : xs = [] ∨ xs.getLast? = some '\n') :
    lines (xs ++ ys) = lines xs ++ lines ys := by
  induction xs with
  | nil => rfl
  | cons x xs ih =>
      rw [List.cons_append, lines_cons, lines_cons]
      cases xs with
      | nil =>
          have hx : x = '\n' := by simpa using h
          simp [hx, lines]
      | cons y xs =>
          have hlast : (y :: xs).getLast? = some '\n' := by simpa using h
          rw [ih (.inr hlast)]
          obtain ⟨piece, pieces, hpieces⟩ := List.exists_cons_of_ne_nil
            (lines_ne_nil (List.cons_ne_nil y xs))
          split
          · rfl
          · rw [hpieces, List.cons_append, consFirst, consFirst, List.cons_append]

/-- A line goes up to its newline. -/
theorem lines_newline (h : '\n' ∉ xs) : lines (xs ++ '\n' :: ys) = (xs ++ ['\n']) :: lines ys := by
  induction xs with
  | nil => rfl
  | cons x xs ih =>
      have hx : '\n' ≠ x := List.ne_of_not_mem_cons h
      have hxs : '\n' ∉ xs := List.not_mem_of_not_mem_cons h
      rw [List.cons_append, lines_cons, if_neg (Ne.symm hx), ih hxs]
      rfl

theorem lines_last (h : '\n' ∉ xs) (hne : xs ≠ []) : lines xs = [xs] := by
  induction xs with
  | nil => contradiction
  | cons x xs ih =>
      have hx : '\n' ≠ x := List.ne_of_not_mem_cons h
      have hxs : '\n' ∉ xs := List.not_mem_of_not_mem_cons h
      rw [lines_cons, if_neg (Ne.symm hx)]
      cases xs with
      | nil => rfl
      | cons y xs =>
          rw [ih hxs (List.cons_ne_nil y xs)]
          rfl

end Text

namespace SourceText

/-! ## fields -/

/-- Terminators are blanks of one byte. -/
theorem isTerminator_cases {c : Char} (h : isTerminator c = true) : c = '\n' ∨ c = '\r' := by
  simpa [isTerminator] using h

namespace Columns

variable {code : List Char} {c : Char}

theorem field_concat (cols : Columns) (h : isTerminator c = true) :
    cols.field (code ++ [c]) = cols.field code := by
  obtain rfl | rfl := isTerminator_cases h
  · exact Text.trim_column_concat rfl rfl
  · exact Text.trim_column_concat rfl rfl

/-- Operands go to the end of the line, also where there is a terminator. -/
theorem operands_field_concat (h : isTerminator c = true) :
    (operands (code ++ [c])).field (code ++ [c]) = (operands code).field code := by
  rw [field_concat _ h]
  unfold field raw
  have hle : Text.byteSize code ≤ (operands code).stop := Nat.le_max_left _ _
  have hle' : Text.byteSize code ≤ (operands (code ++ [c])).stop := by
    have happend : Text.byteSize code ≤ Text.byteSize (code ++ [c]) := by simp
    exact Nat.le_trans happend (Nat.le_max_left _ _)
  rw [Text.column_of_le hle, Text.column_of_le hle']
  rfl

end Columns

/-- What is read, without its place. -/
def outline (x : Except Diagnostic Line) : Except Cause Line :=
  (x.mapError Diagnostic.cause).map Line.unplaced

@[simp] theorem outline_ok (line : Line) : outline (.ok line) = .ok line.unplaced := rfl

@[simp] theorem outline_error (d : Diagnostic) : outline (.error d) = .error d.cause := rfl

/-- What is read depends on the fields only. -/
theorem outline_readFields {code code' : List Char} (start number start' number' : Nat)
    (hfield : ∀ cols : Columns, cols.field code' = cols.field code)
    (hoperands : (Columns.operands code').field code' = (Columns.operands code).field code) :
    outline (readFields code' start' number') = outline (readFields code start number) := by
  rw [hfield] at hoperands
  simp only [readFields, hfield, hoperands]
  repeat' split
  all_goals simp [Line.unplaced]

/-! ## readings -/

/-- The line holds no code: it is blank, or its first character is `;`. -/
def isBare (text : List Char) : Bool := (text.find? fun c => !Text.isBlank c).all (· == ';')

theorem PhysicalLine.isSkipped_eq (p : PhysicalLine) : p.isSkipped = isBare p.text := by
  unfold PhysicalLine.isSkipped isBare
  rw [← Text.head?_trim]
  split <;> simp_all

/-- What a line contributes, wherever it stands: nothing, or the line that is read or what is
wrong with it. -/
def reading? (text : List Char) : Option (Except Cause Line) :=
  if isBare text then none else some (outline (readFields (stripComment false text) 0 0))

theorem stripComment_concat (quoted : Bool) (text : List Char) {c : Char}
    (h : isTerminator c = true) :
    stripComment quoted (text ++ [c]) = stripComment quoted text ∨
      stripComment quoted (text ++ [c]) = stripComment quoted text ++ [c] := by
  induction text generalizing quoted with
  | nil =>
    right
    obtain rfl | rfl := isTerminator_cases h <;> rfl
  | cons x text ih =>
    simp only [List.cons_append, stripComment]
    split
    · simpa using ih _
    · split
      · exact .inl rfl
      · simpa using ih _

/-- A terminator does not count. -/
theorem reading?_concat (text : List Char) {c : Char} (h : isTerminator c = true) :
    reading? (text ++ [c]) = reading? text := by
  have hblank : Text.isBlank c = true := by
    obtain rfl | rfl := isTerminator_cases h <;> rfl
  have hbare : isBare (text ++ [c]) = isBare text := by
    simp [isBare, hblank]
  unfold reading?
  rw [hbare]
  obtain hcode | hcode := stripComment_concat false text h
  · rw [hcode]
  · rw [hcode, outline_readFields 0 0 0 0 (fun cols => cols.field_concat h)
      (Columns.operands_field_concat h)]

theorem reading?_append (text : List Char) {more : List Char}
    (h : ∀ c ∈ more, isTerminator c = true) : reading? (text ++ more) = reading? text := by
  induction more generalizing text with
  | nil => rw [List.append_nil]
  | cons c more ih =>
      have hmore : ∀ c ∈ more, isTerminator c = true := fun c hc => h c (List.mem_cons_of_mem _ hc)
      rw [List.append_cons, ih _ hmore, reading?_concat text (h c List.mem_cons_self)]

theorem reading?_dropEndWhile (text : List Char) :
    reading? (Text.dropEndWhile isTerminator text) = reading? text := by
  rw [← text.reverse_reverse]
  induction text.reverse with
  | nil => rfl
  | cons c cs ih =>
      rw [List.reverse_cons, Text.dropEndWhile_concat]
      split
      · next hc => rw [ih, reading?_concat _ hc]
      · rfl

/-- A comment is stripped where all quotes are closed. -/
theorem stripComment_append {text : List Char} (quoted : Bool) (more : List Char)
    (h : quoted = decide (text.count '"' % 2 = 1)) :
    stripComment quoted (text ++ ';' :: more) = stripComment quoted text := by
  induction text generalizing quoted with
  | nil => simp [stripComment, h]
  | cons c text ih =>
      simp only [List.cons_append, stripComment]
      split
      · next hc =>
        -- a quote opens or closes, and there is one less behind it
        have hparity : (!quoted) = decide (text.count '"' % 2 = 1) := by
          rw [h, hc, List.count_cons_self, ← decide_not, decide_eq_decide]
          omega
        rw [ih _ hparity]
      · next hc =>
        rw [List.count_cons_of_ne (by simpa using hc)] at h
        rw [ih _ h]

/-- A comment does not count. -/
theorem reading?_comment (text more : List Char) (h : text.count '"' % 2 = 0) :
    reading? (text ++ ';' :: more) = reading? text := by
  have hbare : isBare (text ++ ';' :: more) = isBare text := by
    unfold isBare
    rw [List.find?_append]
    cases text.find? fun c => !Text.isBlank c with
    | none => rfl
    | some c => rfl
  unfold reading?
  rw [hbare, stripComment_append false more (by simp [h])]

/-- What a text contributes. -/
def readings (source : List Char) : List (Except Cause Line) :=
  (Text.lines source).filterMap reading?

theorem filterMap_numberLines (number start : Nat) (pieces : List (List Char)) :
    (numberLines number start pieces).filterMap (fun p => reading? p.text) =
      pieces.filterMap reading? := by
  induction pieces generalizing number start with
  | nil => rfl
  | cons piece pieces ih =>
      rw [numberLines, List.filterMap_cons, List.filterMap_cons, reading?_dropEndWhile, ih]

theorem filterMap_physicalLines (source : List Char) :
    (physicalLines source).filterMap (fun p => reading? p.text) = readings source :=
  filterMap_numberLines 1 0 (Text.lines source)

/-- The lines that are read, without their places. -/
def outlineAll (x : Except Diagnostic (List Line)) : Except Cause (List Line) :=
  (x.mapError Diagnostic.cause).map (List.map Line.unplaced)

theorem outlineAll_readLines (ps : List PhysicalLine) :
    outlineAll (readLines ps) = (ps.filterMap fun p => reading? p.text).mapM id := by
  induction ps with
  | nil => rfl
  | cons p ps ih =>
      rw [readLines, List.filterMap_cons, reading?, ← p.isSkipped_eq]
      split
      · exact ih
      · have hread : outline p.read = outline (readFields (stripComment false p.text) 0 0) :=
          outline_readFields _ _ _ _ (fun _ => rfl) rfl
        simp only [List.mapM_cons, id, ← hread, ← ih]
        cases p.read with
        | error d => rfl
        | ok line => cases readLines ps <;> rfl

theorem checkFrame_unplaced (lines : List Line) :
    (checkFrame (lines.map Line.unplaced)).mapError Diagnostic.cause =
      (checkFrame lines).mapError Diagnostic.cause := by
  simp only [checkFrame, List.head?_map, List.getLast?_map, List.length_map]
  cases lines.head? with
  | none => rfl
  | some first =>
      cases lines.getLast? with
      | none => rfl
      | some last =>
          simp only [Option.map_some, Line.isDirective_unplaced]
          cases first.isDirective .orig with
          | false => rfl
          | true => cases (decide (lines.length ≤ 1) || !last.isDirective .end) <;> rfl

/-- The readings decide what is read. -/
theorem outlineAll_read (source : String) :
    outlineAll (read source) = (readings source.toList).mapM id >>= fun lines =>
      (checkFrame lines).mapError Diagnostic.cause >>= fun _ => pure lines := by
  rw [← filterMap_physicalLines, ← outlineAll_readLines, read]
  cases readLines (physicalLines source.toList) with
  | error d => rfl
  | ok lines =>
      change outlineAll (checkFrame lines >>= fun _ => pure lines) =
        (checkFrame (lines.map Line.unplaced)).mapError Diagnostic.cause >>= fun _ =>
          pure (lines.map Line.unplaced)
      rw [checkFrame_unplaced]
      cases checkFrame lines <;> rfl

end SourceText

/-! ## outcomes -/

/-- Two assemblies end alike: with the same object text, with diagnostics of the same code, or
with the same fault. -/
inductive Agree : Except Failure Assembly → Except Failure Assembly → Prop where
  | success {a a' : Assembly} (object : a'.object = a.object) : Agree (.ok a) (.ok a')
  | diagnostic {d d' : Diagnostic} (code : d'.code = d.code) :
      Agree (.error (.diagnostic d)) (.error (.diagnostic d'))
  | fault (f : Fault) : Agree (.error (.fault f)) (.error (.fault f))

theorem agree_of_reason {f g : Failure} (h : f.reason = g.reason) :
    Agree (.error f) (.error g) := by
  cases f with
  | diagnostic d =>
      cases g with
      | diagnostic d' => exact .diagnostic (congrArg Cause.code (Sum.inr.inj h).symm)
      | fault f' => cases h
  | fault f =>
      cases g with
      | diagnostic d' => cases h
      | fault f' =>
        cases h
        exact .fault f

theorem agree_assemble {lines lines' : List Line}
    (h : lines.map Line.unplaced = lines'.map Line.unplaced) :
    Agree (assemble lines) (assemble lines') := by
  have hresult : (attempt lines).result = (attempt lines').result := by
    rw [← result_attempt lines, h, result_attempt]
  obtain ⟨hrecords, houtcome⟩ := Prod.mk.inj hresult
  have hobject : (attempt lines').object = (attempt lines).object := by
    rw [Run.object, Run.object, hrecords]
  unfold assemble
  obtain ⟨t, t', hx, hy, -⟩ | ⟨f, g, hx, hy, hreason⟩ :=
    cases_of_placeless (congrArg (id <$> ·) houtcome)
  · simp only [hx, hy]
    exact .success hobject
  · simp only [hx, hy]
    exact agree_of_reason hreason

/-- Texts that contribute the same end alike. -/
theorem agree_of_readings_eq {source source' : String}
    (h : SourceText.readings source'.toList = SourceText.readings source.toList) :
    Agree (assembleSource source) (assembleSource source') := by
  have hread : SourceText.outlineAll (SourceText.read source) =
      SourceText.outlineAll (SourceText.read source') := by
    rw [SourceText.outlineAll_read, SourceText.outlineAll_read, h]
  unfold assembleSource
  cases hx : SourceText.read source with
  | error d =>
      cases hy : SourceText.read source' with
      | error d' =>
          rw [hx, hy] at hread
          have hcause : d.cause = d'.cause := Except.error.inj hread
          exact .diagnostic (congrArg Cause.code hcause.symm)
      | ok lines' =>
          rw [hx, hy] at hread
          cases hread
  | ok lines =>
      cases hy : SourceText.read source' with
      | error d' =>
          rw [hx, hy] at hread
          cases hread
      | ok lines' =>
          rw [hx, hy] at hread
          exact agree_assemble (Except.ok.inj hread)

/-! ## edits -/

namespace SourceText

variable {before line more returns after : List Char}

theorem readings_append (h : before = [] ∨ before.getLast? = some '\n') :
    readings (before ++ after) = readings before ++ readings after := by
  unfold readings
  rw [Text.lines_append h, List.filterMap_append]

/-- A text starts with what its first line contributes. -/
theorem readings_line (newline : '\n' ∉ line) (ends : after = [] ∨ after.head? = some '\n') :
    readings (line ++ after) = (reading? line).toList ++ readings after.tail := by
  unfold readings
  obtain rfl | hhead := ends
  · cases line with
    | nil => rfl
    | cons c line =>
        rw [List.append_nil, Text.lines_last newline (List.cons_ne_nil c line)]
        cases h : reading? (c :: line) <;> simp [h, Text.lines]
  · obtain ⟨rest, rfl⟩ := List.head?_eq_some_iff.mp hhead
    rw [Text.lines_newline newline, List.filterMap_cons, reading?_concat line rfl]
    cases reading? line <;> rfl

/-- Put a carriage return in front of every newline. -/
def withReturns (cs : List Char) : List Char :=
  cs.flatMap fun c => if c = '\n' then ['\r', '\n'] else [c]

theorem withReturns_append (xs ys : List Char) :
    withReturns (xs ++ ys) = withReturns xs ++ withReturns ys := by
  simp [withReturns]

theorem withReturns_of_not_mem (h : '\n' ∉ line) : withReturns line = line := by
  induction line with
  | nil => rfl
  | cons c line ih =>
      have hc : '\n' ≠ c := List.ne_of_not_mem_cons h
      have ih := ih (List.not_mem_of_not_mem_cons h)
      unfold withReturns at ih ⊢
      rw [List.flatMap_cons, if_neg (Ne.symm hc), ih]
      rfl

theorem readings_withReturns (source : List Char) :
    readings (withReturns source) = readings source := by
  have hlines := areLines_lines source
  rw [← Text.flatten_lines source]
  generalize Text.lines source = pieces at hlines ⊢
  induction hlines with
  | nil => rfl
  | last newline => simp [withReturns_of_not_mem newline]
  | @cons line pieces newline rest ih =>
      have hreturn : '\n' ∉ line ++ ['\r'] := by simpa using newline
      have hwith : withReturns ((line ++ ['\n']) ++ pieces.flatten) =
          (line ++ ['\r']) ++ '\n' :: withReturns pieces.flatten := by
        rw [withReturns_append, withReturns_append, withReturns_of_not_mem newline]
        simp [withReturns]
      have hwithout : (line ++ ['\n']) ++ pieces.flatten = line ++ '\n' :: pieces.flatten := by
        simp
      rw [List.flatten_cons, hwith, hwithout, readings_line hreturn (.inr rfl),
        readings_line newline (.inr rfl), reading?_concat line rfl]
      simp only [List.tail_cons, ih]

end SourceText

open SourceText in
/-- The second text is the first one with a change that does not matter.  `before` is what
stands in front of the line in question, and `returns` belong to its terminator. -/
inductive Edit : List Char → List Char → Prop where
  | insert {before line after : List Char} (starts : before = [] ∨ before.getLast? = some '\n')
      (newline : '\n' ∉ line) (bare : isBare line = true) :
      Edit (before ++ after) (before ++ (line ++ '\n' :: after))
  | returns (source : List Char) : Edit source (withReturns source)
  | comment {before line more returns after : List Char}
      (starts : before = [] ∨ before.getLast? = some '\n')
      (newline : '\n' ∉ line ++ more) (quotes : line.count '"' % 2 = 0)
      (carriage : ∀ c ∈ returns, c = '\r') (ends : after = [] ∨ after.head? = some '\n') :
      Edit (before ++ (line ++ returns ++ after))
        (before ++ (line ++ ';' :: more ++ returns ++ after))

open SourceText in
/-- An edit keeps what the text contributes. -/
theorem Edit.readings_eq {source source' : List Char} (h : Edit source source') :
    readings source' = readings source := by
  cases h with
  | insert starts newline bare =>
      rw [readings_append starts, readings_append starts, readings_line newline (.inr rfl)]
      simp [reading?, bare]
  | returns => exact readings_withReturns source
  | @comment before line more returns after starts newline quotes carriage ends =>
      have hreturns : '\n' ∉ returns := fun hmem => nomatch carriage _ hmem
      have hline : '\n' ∉ line ++ returns := by simp_all
      have hline' : '\n' ∉ line ++ ';' :: (more ++ returns) := by simp_all
      have hterminator : ∀ c ∈ returns, isTerminator c = true := fun c hc => by
        rw [carriage c hc]
        rfl
      have hsplit : line ++ ';' :: more ++ returns = line ++ ';' :: (more ++ returns) := by simp
      rw [readings_append starts, readings_append starts, hsplit, readings_line hline ends,
        readings_line hline' ends, reading?_comment line _ quotes, reading?_append line hterminator]

/-- Comments, blank lines and line endings do not matter. -/
theorem edits_keep_outcome {source source' : String} (h : Edit source.toList source'.toList) :
    Agree (assembleSource source) (assembleSource source') :=
  agree_of_readings_eq h.readings_eq

/-- Source text with a `;` in a string and a carriage return in front of the newline behind it. -/
def quotedSemicolon : String :=
  "P        .ORIG\nS        .STRZ    \"a;b\"\r\n         .END     S\n"

/-- The same text with a comment behind the string, in which a quote is left open. -/
def commentedSemicolon : String :=
  "P        .ORIG\nS        .STRZ    \"a;b\"; \"x\r\n         .END     S\n"

theorem edits_keep_outcome_commentedSemicolon :
    Edit quotedSemicolon.toList commentedSemicolon.toList ∧
      ∃ a a', assembleSource quotedSemicolon = .ok a ∧ assembleSource commentedSemicolon = .ok a' ∧
        a'.object = a.object := by
  have hsource : quotedSemicolon.toList = "P        .ORIG\n".toList ++
      ("S        .STRZ    \"a;b\"".toList ++ ['\r'] ++ "\n         .END     S\n".toList) := by
    simp [quotedSemicolon]
  have hsource' : commentedSemicolon.toList = "P        .ORIG\n".toList ++
      ("S        .STRZ    \"a;b\"".toList ++ ';' :: " \"x".toList ++ ['\r'] ++
        "\n         .END     S\n".toList) := by
    simp [commentedSemicolon]
  have hedit : Edit quotedSemicolon.toList commentedSemicolon.toList := by
    rw [hsource, hsource']
    exact .comment (by simp) (by simp) (by simp) (by simp) (by simp)
  obtain ⟨a, ha⟩ : ∃ a, assembleSource quotedSemicolon = .ok a := ⟨_, rfl⟩
  obtain ⟨a', ha'⟩ : ∃ a', assembleSource commentedSemicolon = .ok a' := ⟨_, rfl⟩
  have hagree := edits_keep_outcome hedit
  rw [ha, ha'] at hagree
  cases hagree with
  | success object => exact ⟨hedit, a, a', ha, ha', object⟩

end PageAsm
