import PageAsm.Proofs.LocationCounter

/-!
# PageAsm.Proofs.MemoryLayout

Where the words of a segment lie.  Positions are counted from the origin; every
position of the segment is either stored, and then exactly one text record is
at its address, or reserved by a block:

```
position   0 ........ extent body ........ length
           lines of the body     literal pool
```

`Layout.positions` lists the stored positions of the body in order.  The text
records of the lines are at the addresses of these positions
(`Emitter.Steps.addresses`), those of the pool follow (`Assembled.literals_eq`).
-/

namespace PageAsm

open Outcome

/-! ## stored and reserved positions -/

namespace Layout

variable {t : Layout}

/-- The positions that lines store words at, where the first line is at position `k`. -/
def positions (t : Layout) : Nat → List Line → List Nat
  | _, [] => []
  | k, line :: rest => List.range' k line.stored ++ t.positions (k + t.size line) rest

/-- A position of the lines that lies in a block which `.BLKW` reserves. -/
def IsReserved (t : Layout) (lines : List Line) (k : Nat) : Prop :=
  ∃ before line after, lines = before ++ line :: after ∧
    line.operation? = some (.directive .blkw) ∧
    t.extent before ≤ k ∧ k < t.extent before + t.reserved line

theorem stored_of_blkw {line : Line} (h : line.operation? = some (.directive .blkw)) :
    line.stored = 0 := by
  simp [Line.stored, h]

theorem reserved_of_ne {line : Line} (h : line.operation? ≠ some (.directive .blkw)) :
    t.reserved line = 0 := by
  unfold reserved
  split
  · contradiction
  · rfl

/-- A reserved position lies in the block of the first line, or behind it. -/
theorem isReserved_cons {line : Line} {rest : List Line} {k : Nat} :
    t.IsReserved (line :: rest) k ↔
      (line.operation? = some (.directive .blkw) ∧ k < t.size line) ∨
        (t.size line ≤ k ∧ t.IsReserved rest (k - t.size line)) := by
  constructor
  · intro h
    obtain ⟨before, other, after, hlines, hop, hlow, hhigh⟩ := h
    cases before with
    | nil =>
        simp only [List.nil_append, List.cons.injEq] at hlines
        obtain ⟨rfl, rfl⟩ := hlines
        left
        refine ⟨hop, ?_⟩
        rw [size, stored_of_blkw hop]
        simpa [extent] using hhigh
    | cons first before =>
        simp only [List.cons_append, List.cons.injEq] at hlines
        obtain ⟨rfl, rfl⟩ := hlines
        rw [extent] at hlow hhigh
        right
        exact ⟨by omega, before, other, after, rfl, hop, by omega, by omega⟩
  · intro h
    obtain ⟨hop, hlt⟩ | ⟨hle, before, other, after, rfl, hop, hlow, hhigh⟩ := h
    · refine ⟨[], line, rest, rfl, hop, Nat.zero_le k, ?_⟩
      rw [size, stored_of_blkw hop] at hlt
      simpa [extent] using hlt
    · refine ⟨line :: before, other, after, rfl, hop, ?_, ?_⟩
      · rw [extent]
        omega
      · rw [extent]
        omega

/-- The stored positions are those that no block reserves. -/
theorem mem_positions {lines : List Line} {start k : Nat} :
    k ∈ t.positions start lines ↔
      start ≤ k ∧ k < start + t.extent lines ∧ ¬ t.IsReserved lines (k - start) := by
  induction lines generalizing start with
  | nil =>
      simp only [positions, List.not_mem_nil, extent, false_iff]
      omega
  | cons line rest ih =>
      rw [positions, List.mem_append, List.mem_range'_1, ih, isReserved_cons, extent,
        ← Nat.sub_sub]
      -- a line stores all of its words or, as a block, none of them
      by_cases hop : line.operation? = some (.directive .blkw)
      · have hstored := stored_of_blkw hop
        simp only [hop, true_and]
        grind
      · have hsize : t.size line = line.stored := by rw [size, reserved_of_ne hop, Nat.add_zero]
        simp only [hop, false_and, false_or]
        grind

theorem pairwise_positions (start : Nat) (lines : List Line) :
    (t.positions start lines).Pairwise (· < ·) := by
  induction lines generalizing start with
  | nil => exact .nil
  | cons line rest ih =>
      rw [positions, List.pairwise_append]
      refine ⟨List.pairwise_lt_range' 1, ih _, ?_⟩
      intro a ha b hb
      have hlow := (List.mem_range'_1.mp ha).2
      have hhigh := (mem_positions.mp hb).1
      rw [size] at hhigh
      omega

theorem length_positions (start : Nat) (lines : List Line) :
    (t.positions start lines).length + t.totalReserved lines = t.extent lines := by
  induction lines generalizing start with
  | nil => rfl
  | cons line rest ih =>
      have hrest := ih (start + t.size line)
      rw [positions, List.length_append, List.length_range', totalReserved, extent, size]
      rw [size] at hrest
      omega

theorem IsReserved.lt_extent {lines : List Line} {k : Nat} (h : t.IsReserved lines k) :
    k < t.extent lines := by
  obtain ⟨before, line, after, rfl, -, -, hhigh⟩ := h
  rw [extent_append, extent, size]
  omega

end Layout

/-! ## the records of lines -/

/-- The address of a text record. -/
def Record.address? : Record → Option UInt16
  | text address _ _ => some address
  | _ => none

/-- The length in a header record. -/
def Record.length? : Record → Option UInt16
  | header _ _ length => some length
  | _ => none

/-- The address of a position, counted from the origin around the end of memory. -/
def Layout.addressAt (t : Layout) (k : Nat) : UInt16 := UInt16.ofNat (t.origin.toNat + k)

theorem Layout.addressAt_add (t : Layout) (k n : Nat) :
    t.addressAt (k + n) = t.addressAt k + UInt16.ofNat n := by
  rw [addressAt, addressAt, ← Nat.add_assoc, UInt16.ofNat_add]

theorem Layout.addressAt_zero (t : Layout) : t.addressAt 0 = t.origin := by
  rw [addressAt, Nat.add_zero, UInt16.ofNat_toNat]

/-- Positions less than the size of memory apart have different addresses. -/
theorem Layout.addressAt_inj {t : Layout} {j k : Nat} (hj : j < 65536) (hk : k < 65536)
    (h : t.addressAt j = t.addressAt k) : j = k := by
  have hnat := congrArg UInt16.toNat h
  simp only [addressAt, UInt16.toNat_ofNat'] at hnat
  omega

namespace Emitter

variable {t : Layout} {e e' : Emitter} {line : Line} {out : Emission}

theorem map_fst_place (address : UInt16) (words : List UInt16) :
    (place address words).map Prod.fst =
      (List.range words.length).map fun i => address + UInt16.ofNat i := by
  unfold place
  rw [List.map_map, List.range_eq_range', ← List.zipIdx_map_snd 0 words, List.map_map]
  rfl

/-- The text records of a line are at the positions that the line stores. -/
theorem Step.addresses {k : Nat} (h : Step t e line out e')
    (hop : line.operation? ≠ some (.directive .orig)) (hloc : e.location = t.addressAt k) :
    out.records.filterMap Record.address? = (List.range' k line.stored).map t.addressAt := by
  cases h with
  | instruction operation operands bits =>
      have hstored : line.stored = 1 := by simp [Line.stored, operation]
      rw [hstored, List.range'_one, List.map_singleton, ← hloc]
      rfl
  | orig operation => contradiction
  | ent operation few names =>
      have hstored : line.stored = 0 := by simp [Line.stored, operation]
      rw [hstored]
      apply List.filterMap_eq_nil_iff.mpr
      intro r hr
      obtain ⟨name, offset, rfl⟩ := mem_entryRecords names hr
      rfl
  | «end» operation | ext operation | equ operation | blkw operation =>
      have hstored : line.stored = 0 := by simp [Line.stored, operation]
      rw [hstored]
      rfl
  | fillNumber operation | fillTarget operation =>
      have hstored : line.stored = 1 := by simp [Line.stored, operation]
      rw [hstored, List.range'_one, List.map_singleton, ← hloc]
      rfl
  | strz operation =>
      have hstored : line.stored = (stringWords line.operands).length := by
        simp [Line.stored, operation, stringWords, String.length_toList]
      have haddresses : (e.emitStrz line).1.records.filterMap Record.address? =
          (place e.location (stringWords line.operands)).map Prod.fst := by
        simp only [emitStrz, List.filterMap_map]
        exact congrFun List.filterMap_eq_map _
      rw [haddresses, map_fst_place, hstored, List.range'_eq_map_range, List.map_map, hloc]
      apply List.map_congr_left
      intro i hi
      exact (t.addressAt_add k i).symm

/-- Only `.ORIG` writes a header. -/
theorem Step.length?_eq_none {r : Record} (h : Step t e line out e')
    (hop : line.operation? ≠ some (.directive .orig)) (hr : r ∈ out.records) :
    r.length? = none := by
  cases h with
  | orig operation => contradiction
  | ent operation few names =>
      obtain ⟨name, offset, rfl⟩ := mem_entryRecords names hr
      rfl
  | instruction | «end» | fillNumber | fillTarget =>
      cases List.mem_singleton.mp hr
      rfl
  | ext | equ | blkw => cases hr
  | strz =>
      obtain ⟨word, -, rfl⟩ := List.mem_map.mp hr
      rfl

/-- The text records of several lines are at the positions that the lines store. -/
theorem Steps.addresses {lines : List Line} {outs : List Emission} {k : Nat}
    (h : Steps t e lines outs e')
    (hop : ∀ line ∈ lines, line.operation? ≠ some (.directive .orig))
    (hloc : e.location = t.addressAt k) :
    (outs.flatMap Emission.records).filterMap Record.address? =
      (t.positions k lines).map t.addressAt := by
  induction h generalizing k with
  | nil => rfl
  | cons head tail ih =>
      have hfirst := head.addresses (hop _ List.mem_cons_self) hloc
      have hnext := head.location (hop _ List.mem_cons_self)
      rw [hloc, ← Layout.addressAt_add] at hnext
      have hrest := ih (fun line hmem => hop line (List.mem_cons_of_mem _ hmem)) hnext
      rw [List.flatMap_cons, List.filterMap_append, hfirst, hrest, Layout.positions,
        List.map_append]

theorem Steps.length?_eq_none {lines : List Line} {outs : List Emission} {r : Record}
    (h : Steps t e lines outs e')
    (hop : ∀ line ∈ lines, line.operation? ≠ some (.directive .orig))
    (hr : r ∈ outs.flatMap Emission.records) : r.length? = none := by
  induction h with
  | nil => cases hr
  | cons head tail ih =>
      rw [List.flatMap_cons, List.mem_append] at hr
      cases hr with
      | inl hr => exact head.length?_eq_none (hop _ List.mem_cons_self) hr
      | inr hr => exact ih (fun line hmem => hop line (List.mem_cons_of_mem _ hmem)) hr

end Emitter

/-! ## the records of the pool -/

/-- New literals get consecutive addresses. -/
theorem LiteralTable.allocate_addresses (t : LiteralTable) (base : UInt16)
    (tokens : List String) :
    ∃ n, (allocate t base tokens).1.size = t.size + n ∧
      (allocate t base tokens).1.entries.map Prod.snd =
        t.entries.map Prod.snd ++ (List.range n).map fun i => base + UInt16.ofNat i := by
  induction tokens generalizing t base with
  | nil => exact ⟨0, rfl, by simp [allocate]⟩
  | cons token tokens ih =>
      rw [allocate]
      split
      · exact ih t base
      · next hnew =>
        obtain ⟨n, hsize, haddr⟩ := ih (t.insert token base) (base + 1)
        have hentries : (t.insert token base).entries = t.entries ++ [(token, base)] := by
          simp [Table.insert, hnew]
        refine ⟨n + 1, ?_, ?_⟩
        · rw [hsize, Table.size, Table.size, hentries, List.length_append, List.length_singleton]
          omega
        · rw [haddr, hentries, List.range_succ_eq_map]
          simp only [List.map_append, List.map_cons, List.map_nil, List.map_map,
            List.append_assoc, List.singleton_append]
          congr 2
          · simp
          · apply List.map_congr_left
            intro i hi
            rw [Function.comp_apply, Nat.succ_eq_add_one, Nat.add_comm i 1, UInt16.ofNat_add,
              ← UInt16.add_assoc]
            rfl

theorem map_fst_poolWords {line : Line} {entries : List (String × UInt16)}
    {words : List (UInt16 × UInt16)} (h : poolWords line entries = .ok words) :
    words.map Prod.fst = entries.map Prod.snd := by
  induction entries generalizing words with
  | nil =>
      cases h
      rfl
  | cons entry entries ih =>
      obtain ⟨token, address⟩ := entry
      simp only [poolWords, bind_eq_ok, pure_eq_ok] at h
      obtain ⟨word, -, rest, hrest, rfl⟩ := h
      rw [List.map_cons, List.map_cons, ih hrest]

/-- The text records of the pool are at the addresses of the literals. -/
theorem Layout.filterMap_address?_pool {t : Layout} {line : Line} {pool : Emission}
    (h : t.pool line = .ok pool) :
    pool.records.filterMap Record.address? = t.literals.entries.map Prod.snd := by
  obtain ⟨words, hwords, rfl⟩ := Layout.pool_eq_ok.mp h
  rw [← map_fst_poolWords hwords, List.filterMap_map]
  exact congrFun List.filterMap_eq_map _

/-! ## the records of a segment -/

namespace Layout

variable {t : Layout} {lines : List Line}

/-- The positions that hold words: those that the lines store, then the literals. -/
def occupied (t : Layout) (lines : List Line) : List Nat :=
  t.positions 0 lines ++ List.range' (t.extent lines) t.literals.size

theorem mem_occupied {k : Nat} :
    k ∈ t.occupied lines ↔
      k < t.extent lines + t.literals.size ∧ ¬ t.IsReserved lines k := by
  rw [occupied, List.mem_append, mem_positions, List.mem_range'_1, Nat.sub_zero, Nat.zero_add]
  constructor
  · intro h
    obtain ⟨-, hlt, hfree⟩ | ⟨hle, hlt⟩ := h
    · exact ⟨by omega, hfree⟩
    · refine ⟨hlt, fun hres => ?_⟩
      have := hres.lt_extent
      omega
  · intro h
    obtain ⟨hlt, hfree⟩ := h
    by_cases hk : k < t.extent lines
    · exact .inl ⟨Nat.zero_le k, hk, hfree⟩
    · exact .inr ⟨by omega, hlt⟩

theorem pairwise_occupied : (t.occupied lines).Pairwise (· < ·) := by
  rw [occupied, List.pairwise_append]
  refine ⟨pairwise_positions 0 lines, List.pairwise_lt_range' 1, ?_⟩
  intro a ha b hb
  have hlow := (mem_positions.mp ha).2.1
  have hhigh := (List.mem_range'_1.mp hb).1
  omega

theorem length_occupied :
    (t.occupied lines).length + t.totalReserved lines = t.extent lines + t.literals.size := by
  have hcode := t.length_positions 0 lines
  rw [occupied, List.length_append, List.length_range']
  omega

/-- Records in the order of a segment: one header, which gives the length, the code,
the literal pool, the end.  The segment fits in memory, and in a page if it has no
load address. -/
structure Frames (t : Layout) (lines : List Line) (records : List Record) : Prop where
  order : ∃ name length code last pool address, lines.getLast? = some last ∧
    t.pool last = .ok pool ∧
    records = .header name t.origin length :: (code ++ (pool.records ++ [.end address])) ∧
    length.toNat = t.length ∧ ∀ r ∈ code, r.length? = none
  memory : t.length ≤ 65535
  page : t.origin = 0 → t.length ≤ 512

/-- Text records that fill the memory of a segment, `body` being the lines between its
first and its last: one word at each position of the segment, in order, except in the
blocks that are reserved. -/
structure Tiles (t : Layout) (body : List Line) (records : List Record) : Prop where
  placed : ∃ ks : List Nat, ks.Pairwise (· < ·) ∧
    (∀ k, k ∈ ks ↔ k < t.length ∧ ¬ t.IsReserved body k) ∧
    records.filterMap Record.address? = ks.map t.addressAt
  distinct : (records.filterMap Record.address?).Nodup
  blocks : ∀ k, t.IsReserved body k →
    k < t.length ∧ t.addressAt k ∉ records.filterMap Record.address?
  count : (records.filterMap Record.address?).length + t.totalReserved body = t.length

/-- Records at the occupied positions fill the segment, if these are as many words as
the layout has counted. -/
theorem tiles_of_occupied {body : List Line} {records : List Record}
    (haddr : records.filterMap Record.address? = (t.occupied body).map t.addressAt)
    (hlength : t.length = t.extent body + t.literals.size) (hmem : t.length ≤ 65535) :
    t.Tiles body records := by
  have hmemOcc : ∀ k, k ∈ t.occupied body ↔ k < t.length ∧ ¬ t.IsReserved body k := by
    intro k
    rw [hlength]
    exact mem_occupied
  have hblock : ∀ k, t.IsReserved body k → k < t.length := by
    intro k hres
    have := hres.lt_extent
    omega
  refine ⟨⟨t.occupied body, pairwise_occupied, hmemOcc, haddr⟩, ?_, ?_, ?_⟩
  · -- positions are less than the size of memory apart, so that no two addresses wrap together
    rw [haddr]
    apply List.pairwise_map.mpr
    refine pairwise_occupied.imp_of_mem ?_
    intro j k hj hk hlt heq
    have hj := ((hmemOcc j).mp hj).1
    have hk := ((hmemOcc k).mp hk).1
    have := addressAt_inj (by omega) (by omega) heq
    omega
  · intro k hres
    refine ⟨hblock k hres, fun hin => ?_⟩
    rw [haddr, List.mem_map] at hin
    obtain ⟨j, hj, heq⟩ := hin
    obtain ⟨hjlt, hfree⟩ := (hmemOcc j).mp hj
    have hk := hblock k hres
    have hjk := addressAt_inj (by omega) (by omega) heq
    exact hfree (hjk ▸ hres)
  · rw [haddr, List.length_map, hlength]
    exact length_occupied

/-- A line stores no more words than there are positions. -/
theorem stored_le_length_positions {line : Line} (h : line ∈ lines) (start : Nat) :
    line.stored ≤ (t.positions start lines).length := by
  induction lines generalizing start with
  | nil => cases h
  | cons first rest ih =>
      rw [positions, List.length_append, List.length_range']
      cases h with
      | head => omega
      | tail _ h =>
          have := ih h (start + t.size first)
          omega

end Layout

namespace Assembled

variable {first : Line} {body : List Line} {last : Line} {t : Layout} {s : Scan}
  {outs : List Emission} {e : Emitter} {pool : Emission} {address : UInt16}

/-- The layout has counted the words of the body and of the pool. -/
theorem length_eq (h : Assembled first body last t s outs e pool address)
    (hcount : ∀ line ∈ body, line.IsCountable) :
    t.length = t.extent body + t.literals.size := by
  have hscan := Scan.lines_length h.scanned (Layout.symbols_le_of_ofScan h.placed) hcount
  have hlength : t.length = s.length + t.literals.size := by
    rw [(Layout.ofScan_eq_ok.mp h.placed).2]
  rw [hlength, hscan, Scan.start, Nat.zero_add]

/-- The literals are placed behind the body, one word each. -/
theorem literals_eq (h : Assembled first body last t s outs e pool address)
    (inner : ∀ line ∈ body, line.operation? ≠ some (.directive .orig)) :
    t.literals.entries.map Prod.snd =
      (List.range' (t.extent body) t.literals.size).map t.addressAt := by
  obtain ⟨-, ht⟩ := Layout.ofScan_eq_ok.mp h.placed
  have hliterals : t.literals = (LiteralTable.allocate .empty s.location s.literals).1 := by
    rw [ht]
  have hcode : s.location = t.addressAt (t.extent body) := by
    have hloc : s.location = e.location := by
      rw [h.confirmed, ht]
    rw [hloc, h.emitted.location inner, Layout.addressAt, UInt16.ofNat_add, UInt16.ofNat_toNat]
    rfl
  obtain ⟨n, hsize, haddr⟩ := LiteralTable.allocate_addresses .empty s.location s.literals
  rw [← hliterals] at hsize haddr
  have hn : t.literals.size = n := by
    rw [hsize]
    exact Nat.zero_add n
  rw [haddr, hn, List.range'_eq_map_range, List.map_map, hcode]
  apply List.map_congr_left
  intro i hi
  exact (t.addressAt_add (t.extent body) i).symm

/-- The text records are at the occupied positions. -/
theorem addresses_eq (h : Assembled first body last t s outs e pool address)
    (inner : ∀ line ∈ body, line.operation? ≠ some (.directive .orig)) :
    (attempt (first :: (body ++ [last]))).records.filterMap Record.address? =
      (t.occupied body).map t.addressAt := by
  have hcode := h.emitted.addresses inner t.addressAt_zero.symm
  have hpool := Layout.filterMap_address?_pool h.pooled
  rw [h.literals_eq inner] at hpool
  rw [h.records_eq, List.filterMap_cons_none rfl, List.filterMap_append, List.filterMap_append,
    hcode, hpool, Layout.occupied, List.map_append]
  exact congrArg _ (List.append_nil _)

theorem frames (h : Assembled first body last t s outs e pool address)
    (inner : ∀ line ∈ body, line.operation? ≠ some (.directive .orig)) :
    t.Frames (first :: (body ++ [last])) (attempt (first :: (body ++ [last]))).records := by
  have hlength : (UInt16.ofNat t.length).toNat = t.length := by
    have := h.memory
    rw [UInt16.toNat_ofNat']
    omega
  refine ⟨⟨_, _, _, last, pool, address, getLast?_segment first body last, h.pooled,
    h.records_eq, hlength, ?_⟩, h.memory, h.page⟩
  intro r hr
  exact h.emitted.length?_eq_none inner hr

/-- Records that fill the memory of a segment are too few for a string that the scan has
not counted in full. -/
theorem countable_of_tiles (h : Assembled first body last t s outs e pool address)
    (inner : ∀ line ∈ body, line.operation? ≠ some (.directive .orig))
    (htiles : t.Tiles body (attempt (first :: (body ++ [last]))).records) :
    ∀ line ∈ body, line.IsCountable := by
  intro line hmem hop
  have hcount := htiles.count
  rw [h.addresses_eq inner, List.length_map, Layout.occupied, List.length_append] at hcount
  have hstored := t.stored_le_length_positions hmem 0
  have hstring : line.stored = line.operands.length + 1 := by simp [Line.stored, hop]
  have hmemory := h.memory
  omega

end Assembled

/-- The memory of a segment that is assembled.  One header gives its length, which is
within memory, and within a page for a segment without a load address.  The words of the
code and of the literals behind it are at increasing positions from the origin on; the
positions that are left out are those that blocks reserve, so that no two words share an
address.  The words fill the segment in this way exactly if the scan has counted every
string in full. -/
theorem records_fill_memory {lines : List Line} {t : Layout} (segment : IsSegment lines)
    (ok : (attempt lines).outcome = .ok t) :
    t.Frames lines (attempt lines).records ∧
      (t.Tiles (Layout.inner lines) (attempt lines).records ↔
        ∀ line ∈ lines, line.IsCountable) := by
  obtain ⟨first, body, last, orig, inner, close⟩ := segment
  obtain ⟨s, outs, e, pool, address, h⟩ := assembled_of_attempt orig close ok
  refine ⟨h.frames inner, ?_⟩
  rw [Layout.inner_segment, countable_segment_iff orig close]
  constructor
  · exact h.countable_of_tiles inner
  · intro hcount
    exact Layout.tiles_of_occupied (h.addresses_eq inner) (h.length_eq hcount) h.memory

/-- A segment across the end of memory, with a block, a string and a literal. -/
def blockAcrossMemoryEnd : List Line :=
  [⟨"PROG", ".ORIG", "xFFFD", 1, .nowhere⟩,
   ⟨"BUF", ".BLKW", "#2", 2, .nowhere⟩,
   ⟨"", ".STRZ", "A", 3, .nowhere⟩,
   ⟨"", "LD", "R1,=#-3", 4, .nowhere⟩,
   ⟨"", ".END", "", 5, .nowhere⟩]

theorem records_fill_memory_blockAcrossMemoryEnd :
    ∃ t, (attempt blockAcrossMemoryEnd).outcome = .ok t ∧ t.length = 6 ∧
      t.Frames blockAcrossMemoryEnd (attempt blockAcrossMemoryEnd).records ∧
      t.Tiles (Layout.inner blockAcrossMemoryEnd) (attempt blockAcrossMemoryEnd).records ∧
      (attempt blockAcrossMemoryEnd).records.filterMap Record.address? = [0xFFFF, 0, 1, 2] := by
  have segment : IsSegment blockAcrossMemoryEnd := .intro _ [_, _, _] _ rfl (by decide) rfl
  obtain ⟨t, ok, length⟩ : ∃ t, (attempt blockAcrossMemoryEnd).outcome = .ok t ∧ t.length = 6 :=
    ⟨_, rfl, rfl⟩
  have hfill := records_fill_memory segment ok
  exact ⟨t, ok, length, hfill.1, hfill.2.mpr (by decide), by decide⟩

end PageAsm
