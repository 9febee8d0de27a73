import PageAsm.Proofs.Segment

/-!
# PageAsm.Proofs.ListingAgreement

The object file and the listing of a run show the same memory.  Records and
rows are built apart for each kind of line, and the literal pool stands in
front of the end record in one file but behind the row of `.END` in the other:

```
object     records of the lines ......, pool, end
listing    rows of the lines, row of `.END`, pool
```

A line is taken first (`Emitter.Step.cells`, `Emitter.Step.isListing`), then
several lines, then the pool.  None of it depends on the layout being that of the lines.
-/

namespace PageAsm

open Outcome

/-! ## what records and rows show -/

/-- The address and the word that a text record gives. -/
def Record.cell? : Record → Option (UInt16 × UInt16)
  | text address bits _ => some (address, bits)
  | _ => none

namespace Row

/-- The address and the word that a row shows. -/
def cell? : Row → Option (UInt16 × UInt16)
  | word address bits _ => some (address, bits)
  | continuation address bits _ => some (address, bits)
  | literal address bits => some (address, bits)
  | _ => none

/-- The source columns that a row shows. -/
def source? : Row → Option SourceColumns
  | bare source => some source
  | word _ _ source => some source
  | block _ source => some source
  | _ => none

end Row

namespace Line

/-- The source columns of a line as they are listed: a string has its quotes again. -/
def listed (line : Line) : SourceColumns :=
  if line.operation? = some (.directive .strz) then
    { line.columns with operands := "\"" ++ line.operands ++ "\"" }
  else line.columns

/-- A row that shows the line, and the rows behind it.  Only a string has any, and these
show its number. -/
structure HasRows (line : Line) (row : Row) (rest : List Row) : Prop where
  shows : row.source? = some line.listed
  continued : ∀ r ∈ rest, ∃ address bits, r = .continuation address bits line.number
  string : rest ≠ [] → line.operation? = some (.directive .strz)

/-- Any line but a string has a single row. -/
theorem HasRows.single {line : Line} {row : Row} (h : line.operation? ≠ some (.directive .strz))
    (shows : row.source? = some line.columns) : line.HasRows row [] where
  shows := by rw [listed, if_neg h, shows]
  continued := fun r hr => nomatch hr
  string := fun hne => absurd rfl hne

end Line

/-- Rows that list some lines, in order. -/
inductive IsListing : List Line → List Row → Prop where
  | nil : IsListing [] []
  | cons {line : Line} {lines : List Line} {row : Row} {rest rows : List Row}
      (head : line.HasRows row rest) (tail : IsListing lines rows) :
      IsListing (line :: lines) (row :: (rest ++ rows))

namespace IsListing

theorem append {xs ys : List Line} {as bs : List Row} (h : IsListing xs as)
    (h' : IsListing ys bs) : IsListing (xs ++ ys) (as ++ bs) := by
  induction h with
  | nil => exact h'
  | cons head tail ih =>
      rw [List.cons_append, List.cons_append, List.append_assoc]
      exact .cons head ih

/-- Each line is shown once. -/
theorem filterMap_source? {lines : List Line} {rows : List Row} (h : IsListing lines rows) :
    rows.filterMap Row.source? = lines.map Line.listed := by
  induction h with
  | nil => rfl
  | @cons line lines row rest rows head tail ih =>
      have hrest : rest.filterMap Row.source? = [] := by
        apply List.filterMap_eq_nil_iff.mpr
        intro r hr
        obtain ⟨address, bits, rfl⟩ := head.continued r hr
        rfl
      rw [List.filterMap_cons_some head.shows, List.filterMap_append, hrest, List.nil_append, ih,
        List.map_cons]

end IsListing

/-! ## the output of lines -/

namespace Emitter

variable {t : Layout} {e e' : Emitter} {line : Line} {out : Emission}

theorem filterMap_cell?_stringRows (line : Line) (placed : List (UInt16 × UInt16)) :
    (stringRows line placed).filterMap Row.cell? = placed := by
  cases placed with
  | nil => rfl
  | cons first rest =>
      simp only [stringRows, List.filterMap_cons, Row.cell?, List.filterMap_map]
      exact congrArg _ List.filterMap_some

/-- The text records of a line and its rows give the same words. -/
theorem Step.cells (h : Step t e line out e') :
    out.records.filterMap Record.cell? = out.rows.filterMap Row.cell? := by
  cases h with
  | instruction | fillNumber | fillTarget | orig | «end» | ext | equ | blkw => rfl
  | ent operation few names =>
      apply List.filterMap_eq_nil_iff.mpr
      intro r hr
      obtain ⟨name, offset, rfl⟩ := mem_entryRecords names hr
      rfl
  | strz operation =>
      simp only [emitStrz, filterMap_cell?_stringRows, List.filterMap_map]
      exact List.filterMap_some

/-- A line is listed by the rows of its output. -/
theorem Step.isListing (h : Step t e line out e') : IsListing [line] out.rows := by
  cases h with
  | instruction operation | orig operation | «end» operation | ent operation | ext operation
  | equ operation | fillNumber operation | fillTarget operation | blkw operation =>
      exact .cons (.single (by simp [operation]) rfl) .nil
  | strz operation =>
      have hplaced : place e.location (stringWords line.operands) ≠ [] := by
        simp [place, stringWords]
      obtain ⟨first, rest, hcons⟩ := List.exists_cons_of_ne_nil hplaced
      simp only [emitStrz, hcons, stringRows]
      rw [← List.append_nil (rest.map _)]
      refine .cons ⟨?_, ?_, fun _ => operation⟩ .nil
      · rw [Line.listed, if_pos operation]
        rfl
      · intro r hr
        obtain ⟨⟨address, bits⟩, -, rfl⟩ := List.mem_map.mp hr
        exact ⟨address, bits, rfl⟩

theorem Steps.cells {lines : List Line} {outs : List Emission} (h : Steps t e lines outs e') :
    (outs.flatMap Emission.records).filterMap Record.cell? =
      (outs.flatMap Emission.rows).filterMap Row.cell? := by
  induction h with
  | nil => rfl
  | cons head tail ih =>
      rw [List.flatMap_cons, List.flatMap_cons, List.filterMap_append, List.filterMap_append,
        head.cells, ih]

theorem Steps.isListing {lines : List Line} {outs : List Emission}
    (h : Steps t e lines outs e') : IsListing lines (outs.flatMap Emission.rows) := by
  induction h with
  | nil => exact .nil
  | cons head tail ih => exact head.isListing.append ih

end Emitter

/-! ## the files of a run -/

namespace Run

theorem filterMap_row?_recordWrites (line : Line) (out : Emission) :
    (recordWrites line out).filterMap (fun w => w.item.row?) = [] := by
  rw [recordWrites, List.filterMap_map]
  exact List.filterMap_eq_nil_iff.mpr fun _ _ => rfl

theorem filterMap_row?_rowWrites (line : Line) (out : Emission) :
    (rowWrites line out).filterMap (fun w => w.item.row?) = out.rows := by
  rw [rowWrites, List.filterMap_map]
  exact List.filterMap_some

theorem filterMap_row?_lineWrites {lines : List Line} {outs : List Emission}
    (h : lines.length = outs.length) :
    (lineWrites lines outs).filterMap (fun w => w.item.row?) = outs.flatMap Emission.rows := by
  induction lines generalizing outs with
  | nil =>
      cases outs with
      | nil => rfl
      | cons out outs => simp at h
  | cons line lines ih =>
      cases outs with
      | nil => simp at h
      | cons out outs =>
          have hlen : lines.length = outs.length := by simpa using h
          simp only [lineWrites, List.filterMap_append, filterMap_row?_recordWrites,
            filterMap_row?_rowWrites, List.nil_append, ih hlen, List.flatMap_cons]

theorem filterMap_row?_lastWrites (line : Line) (pool out : Emission) :
    (lastWrites line pool out).filterMap (fun w => w.item.row?) = out.rows ++ pool.rows := by
  simp only [lastWrites, List.filterMap_append, filterMap_row?_recordWrites,
    filterMap_row?_rowWrites, List.nil_append]

end Run

/-- The two files of a run that succeeds over lines of which the last is `.END`.  The text
records give the same words at the same addresses, in the same order, as the rows.  Every
line is shown once and in order, by a row that is followed only by the further words of
its string.  The literals come last: in front of the end record, and behind all lines. -/
theorem listing_agrees_with_object {t : Layout} {lines : List Line} {last : Line} {c : UInt16}
    (final : lines.getLast? = some last) (close : last.operation? = some (.directive .end))
    (ok : (Run.ofLines t lines).outcome = .ok c) :
    (Run.ofLines t lines).records.filterMap Record.cell? =
        (Run.ofLines t lines).rows.filterMap Row.cell? ∧
      (Run.ofLines t lines).rows.filterMap Row.source? = lines.map Line.listed ∧
      ∃ code shown address words,
        (Run.ofLines t lines).records =
          code ++ (words.map (fun p => .text p.1 p.2 none) ++ [.end address]) ∧
        (Run.ofLines t lines).rows = shown ++ words.map (fun p => .literal p.1 p.2) ∧
        IsListing lines shown ∧ poolWords last t.literals.entries = .ok words := by
  obtain ⟨body, rfl⟩ := List.getLast?_eq_some_iff.mp final
  obtain ⟨outs, e, pool, out, e', hsteps, hpool, hlast, -, hwrites⟩ := Run.resume_ok ok
  obtain ⟨address, -, rfl, -⟩ := hlast.of_end close
  obtain ⟨words, hwords, rfl⟩ := Layout.pool_eq_ok.mp hpool
  have hrecords : (Run.ofLines t (body ++ [last])).records =
      outs.flatMap Emission.records ++
        (words.map (fun p => .text p.1 p.2 none) ++ [.end address]) := by
    rw [Run.records, Run.ofLines, hwrites, List.filterMap_append,
      Run.filterMap_lineWrites hsteps.length_eq, Run.filterMap_lastWrites]
    rfl
  have hrows : (Run.ofLines t (body ++ [last])).rows =
      (outs.flatMap Emission.rows ++ [.bare last.columns]) ++
        words.map (fun p => .literal p.1 p.2) := by
    rw [Run.rows, Run.ofLines, hwrites, List.filterMap_append,
      Run.filterMap_row?_lineWrites hsteps.length_eq, Run.filterMap_row?_lastWrites,
      List.append_assoc]
    rfl
  have hshown : IsListing (body ++ [last]) (outs.flatMap Emission.rows ++ [.bare last.columns]) :=
    hsteps.isListing.append hlast.isListing
  have hliterals : (words.map fun p => Row.literal p.1 p.2).filterMap Row.cell? =
      (words.map fun p => Record.text p.1 p.2 none).filterMap Record.cell? := by
    rw [List.filterMap_map, List.filterMap_map]
    rfl
  refine ⟨?_, ?_, _, _, address, words, hrecords, hrows, hshown, hwords⟩
  · -- the end record and the row of `.END` give no word, so the pool is last in both files
    have hend : [Record.end address].filterMap Record.cell? = [] := rfl
    have hbare : [Row.bare last.columns].filterMap Row.cell? = [] := rfl
    rw [hrecords, hrows]
    simp only [List.filterMap_append, hsteps.cells, hliterals, hend, hbare, List.append_nil]
  · rw [hrows, List.filterMap_append, hshown.filterMap_source?, List.filterMap_map]
    simp [Function.comp_def, Row.source?]

/-- A segment with a string, a block and a literal. -/
def stringAndLiteral : List Line :=
  [⟨"PROG", ".ORIG", "x3000", 1, .nowhere⟩,
   ⟨"MSG", ".STRZ", "Hi", 2, .nowhere⟩,
   ⟨"BUF", ".BLKW", "#2", 3, .nowhere⟩,
   ⟨"", "LD", "R1,=#10", 4, .nowhere⟩,
   ⟨"", ".END", "", 5, .nowhere⟩]

theorem listing_agrees_with_object_stringAndLiteral :
    ∃ t c, Layout.ofLines stringAndLiteral = .ok t ∧
      (Run.ofLines t stringAndLiteral).outcome = .ok c ∧
      (Run.ofLines t stringAndLiteral).rows.filterMap Row.cell? =
        [(0x3000, 0x48), (0x3001, 0x69), (0x3002, 0), (0x3005, 0x2206), (0x3006, 0xA)] ∧
      (Run.ofLines t stringAndLiteral).records.filterMap Record.cell? =
        (Run.ofLines t stringAndLiteral).rows.filterMap Row.cell? := by
  obtain ⟨t, c, laid, ok, cells⟩ : ∃ t c, Layout.ofLines stringAndLiteral = .ok t ∧
      (Run.ofLines t stringAndLiteral).outcome = .ok c ∧
      (Run.ofLines t stringAndLiteral).rows.filterMap Row.cell? =
        [(0x3000, 0x48), (0x3001, 0x69), (0x3002, 0), (0x3005, 0x2206), (0x3006, 0xA)] :=
    ⟨_, _, rfl, rfl, by decide⟩
  exact ⟨t, c, laid, ok, cells, (listing_agrees_with_object rfl rfl ok).1⟩

end PageAsm
