import PageAsm.Proofs.Segment

/-!
# PageAsm.Proofs.LocationCounter

The scan that lays a segment out and the emission of its lines count words
independently of each other.  Both advance by the size that the finished layout
gives a line, so that in front of every line they are at the same address:

```
scan       s.lines lines          location + extent lines    (Scan.lines_location)
emission   Steps t e lines _ e'   location + extent lines    (Emitter.Steps.location)
```
-/

namespace PageAsm

open Outcome

namespace Emitter

variable {t : Layout} {e e' : Emitter} {line : Line} {out : Emission}

/-- The value that `.BLKW` finds is the one in the layout. -/
theorem BlockValue.blockValue? {value : Numeral} (h : e.BlockValue t line value) :
    t.blockValue? line = some value := by
  unfold BlockValue at h
  unfold Layout.blockValue?
  split at h
  · next hn =>
    rw [if_pos hn, h]
    rfl
  · next hn =>
    rw [if_neg hn]
    unfold absolute at h
    split at h
    · simp at h
    · split at h
      · simp at h
      · next hv =>
        cases h
        rw [hv]
      · simp at h

/-- A line that is emitted moves the location by its size, unless it opens a segment. -/
theorem Step.location (h : Step t e line out e')
    (hop : line.operation? ≠ some (.directive .orig)) :
    e'.location = e.location + UInt16.ofNat (t.size line) := by
  cases h with
  | instruction operation operands bits =>
      rw [Layout.size_of_instruction operation]
      rfl
  | orig operation => contradiction
  | «end» operation | ent operation | ext operation | equ operation =>
      rw [Layout.size_of_control operation rfl]
      simp
  | fillNumber operation | fillTarget operation =>
      rw [Layout.size_of_fill operation]
      rfl
  | blkw operation operand block =>
      rw [Layout.size_of_blkw operation operand.blockValue?, ← Line.toNat_of_blockCount block,
        UInt16.ofNat_toNat]
      rfl
  | strz operation =>
      rw [Layout.size_of_strz operation]
      simp [emitStrz, advance, place, stringWords, String.length_toList]

/-- Lines that are emitted move the location by their extent. -/
theorem Steps.location {lines : List Line} {outs : List Emission} (h : Steps t e lines outs e')
    (hop : ∀ line ∈ lines, line.operation? ≠ some (.directive .orig)) :
    e'.location = e.location + UInt16.ofNat (t.extent lines) := by
  induction h with
  | nil => simp [Layout.extent]
  | cons head tail ih =>
      have hrest := ih fun other hmem => hop other (List.mem_cons_of_mem _ hmem)
      have hfirst := head.location (hop _ List.mem_cons_self)
      rw [hrest, hfirst, Layout.extent, UInt16.ofNat_add, UInt16.add_assoc]

end Emitter

namespace Layout

variable {first : Line} {body : List Line} {last : Line} {t : Layout}

/-- The scan of the first `j` lines of the body, and the address it has reached. -/
theorem exists_scan_take (h : ofLines (first :: (body ++ [last])) = .ok t) (j : Nat) :
    ∃ s, (Scan.start t.origin).lines (body.take j) = .ok s ∧
      s.location = t.origin + UInt16.ofNat (t.extent (body.take j)) := by
  obtain ⟨s', -, hscan, hplace⟩ := ofLines_ok h
  rw [← List.take_append_drop j body] at hscan
  obtain ⟨s, htake, hdrop⟩ := Scan.lines_append_eq_ok.mp hscan
  have hle := (Scan.symbols_le_of_lines hdrop).trans (symbols_le_of_ofScan hplace)
  exact ⟨s, htake, Scan.lines_location htake hle⟩

/-- The code ends as many words behind the origin as the body takes up. -/
theorem codeEnd_eq (h : ofLines (first :: (body ++ [last])) = .ok t) :
    t.codeEnd = t.origin + UInt16.ofNat (t.extent body) := by
  obtain ⟨s, -, hscan, hplace⟩ := ofLines_ok h
  have hcode : t.codeEnd = s.location := by rw [(ofScan_eq_ok.mp hplace).2]
  rw [hcode]
  exact Scan.lines_location hscan (symbols_le_of_ofScan hplace)

end Layout

/-- Emitting the first line of a segment and some lines of its body ends as many words
behind the origin as these take up. -/
theorem Emitter.Steps.location_of_orig {t : Layout} {e : Emitter} {first : Line}
    {lines : List Line} {outs : List Emission}
    (h : Steps t (Emitter.start t) (first :: lines) outs e)
    (orig : first.operation? = some (.directive .orig))
    (inner : ∀ line ∈ lines, line.operation? ≠ some (.directive .orig))
    (operand : first.origin = .ok t.origin) :
    e.location = t.origin + UInt16.ofNat (t.extent lines) := by
  cases h with
  | cons head tail =>
      obtain ⟨origin, ho, -, -, rfl, -⟩ := head.of_orig orig
      rw [operand] at ho
      cases ho
      exact tail.location inner

/-- In front of every line of a segment, emission is at the address that the layout's scan
has reached there: the origin and the words of the lines in between, modulo the size of
memory.  A run over the segment therefore ends at the layout's end of the code, and the
check that it does so never fails. -/
theorem emission_follows_scan {lines : List Line} {t : Layout} (segment : IsSegment lines)
    (laid : Layout.ofLines lines = .ok t) :
    (∀ k outs e, 1 ≤ k → k < lines.length →
      Emitter.emitLines t (Emitter.start t) (lines.take k) = .ok (outs, e) →
      ∃ s, (Scan.start t.origin).lines ((Layout.inner lines).take (k - 1)) = .ok s ∧
        e.location = s.location ∧
        e.location.toNat =
          (t.origin.toNat + t.extent ((Layout.inner lines).take (k - 1))) % 65536) ∧
    (∀ c, (Run.ofLines t lines).outcome = .ok c → c = t.codeEnd) ∧
    (attempt lines).outcome = (Run.ofLines t lines).outcome.map fun _ => t := by
  obtain ⟨first, body, last, orig, inner, close⟩ := segment
  obtain ⟨-, operand, -, -⟩ := Layout.ofLines_ok laid
  have hend : ∀ c, (Run.ofLines t (first :: (body ++ [last]))).outcome = .ok c →
      c = t.codeEnd := by
    intro c hc
    rw [Run.ofLines, ← List.cons_append] at hc
    obtain ⟨outs, e, pool, out, e', hsteps, -, -, hloc, -⟩ := Run.resume_ok hc
    rw [hloc, Layout.codeEnd_eq laid]
    exact hsteps.location_of_orig orig inner operand
  refine ⟨?_, hend, ?_⟩
  · intro k outs e hk hlt hemit
    obtain ⟨j, rfl⟩ : ∃ j, k = j + 1 := ⟨k - 1, by omega⟩
    have hj : j ≤ body.length := by
      simp only [List.length_cons, List.length_append, List.length_nil] at hlt
      omega
    rw [List.take_succ_cons, List.take_append_of_le_length hj] at hemit
    have hloc := (Emitter.emitLines_ok_iff.mp hemit).location_of_orig orig
      (fun line hmem => inner line (List.mem_of_mem_take hmem)) operand
    obtain ⟨s, hscan, hs⟩ := Layout.exists_scan_take laid j
    rw [Layout.inner_segment, Nat.add_sub_cancel]
    refine ⟨s, hscan, hloc.trans hs.symm, ?_⟩
    rw [hloc, UInt16.toNat_add, UInt16.toNat_ofNat']
    omega
  · rw [attempt, laid]
    cases hrun : (Run.ofLines t (first :: (body ++ [last]))).outcome with
    | error f => simp [Run.check, hrun, Except.bind, Except.map]
    | ok c => simp [Run.check, hrun, Except.bind, Except.map, Layout.confirm, hend c hrun]

/-- A segment across the end of memory, with a block whose length is a symbol. -/
def acrossMemoryEnd : List Line :=
  [⟨"PROG", ".ORIG", "xFFFE", 1, .nowhere⟩,
   ⟨"SIZE", ".EQU", "#3", 2, .nowhere⟩,
   ⟨"BUF", ".BLKW", "SIZE", 3, .nowhere⟩,
   ⟨"", ".STRZ", "Hi", 4, .nowhere⟩,
   ⟨"", ".END", "", 5, .nowhere⟩]

theorem emission_follows_scan_acrossMemoryEnd :
    ∃ t outs e s, Layout.ofLines acrossMemoryEnd = .ok t ∧
      Emitter.emitLines t (Emitter.start t) (acrossMemoryEnd.take 4) = .ok (outs, e) ∧
      (Scan.start t.origin).lines ((Layout.inner acrossMemoryEnd).take 3) = .ok s ∧
      e.location = s.location ∧ e.location = 4 := by
  have segment : IsSegment acrossMemoryEnd := .intro _ [_, _, _] _ rfl (by decide) rfl
  have laid : Layout.ofLines acrossMemoryEnd = .ok
      { symbols := ⟨[("SIZE", .absolute (.dec 3)), ("BUF", .relative 0xFFFE)]⟩
        externals := []
        literals := ⟨[]⟩
        origin := 0xFFFE
        codeEnd := 4
        poolEnd := 4
        length := 6 } := rfl
  obtain ⟨s, hscan, hloc, -⟩ :=
    (emission_follows_scan segment laid).1 4 _ _ (by decide) (by decide) rfl
  exact ⟨_, _, _, s, laid, rfl, hscan, hloc, rfl⟩

end PageAsm
