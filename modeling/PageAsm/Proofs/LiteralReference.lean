import PageAsm.Proofs.MemoryLayout

/-!
# PageAsm.Proofs.LiteralReference

A transfer with a literal operand, followed from its word to the value:

```
address a     word w            the transfer
              w mod 512         offset in the page of a + 1
address       value             the word of the pool that it denotes
```

The layout keeps one address for each token.  The transfer refers to that
address (`Emitter.Step.literal`), the pool has the value of the token there
(`Layout.mem_pool`), and no other record is there unless a string has gone all
around memory (`Assembled.filter_isAt`).
-/

namespace PageAsm

open Outcome

/-! ## addresses in a page -/

namespace Page

/-- Only the low nine bits of an offset count. -/
theorem address_congr {location offset word : UInt16}
    (h : word.toNat % 512 = offset.toNat % 512) :
    address location word = address location offset := by
  rw [address, address, size, h]

/-- The address that an instruction word refers to: the page bits of the address behind
the instruction, and the low nine bits of the word. -/
def reference (location word : UInt16) : UInt16 :=
  ((location + 1) &&& 0xFE00) ||| (word &&& 0x1FF)

/-- The bits of an address are its page and its offset. -/
theorem reference_eq_address (location word : UInt16) :
    reference location word = address location word := by
  have hpc := (location + 1).toNat_lt
  have hpage : (reference location word).toNat / 2 ^ 9 = (location + 1).toNat / 2 ^ 9 := by
    rw [reference, UInt16.toNat_or, UInt16.toNat_and, UInt16.toNat_and, Nat.or_div_two_pow,
      Nat.and_div_two_pow, Nat.and_div_two_pow]
    show (location + 1).toNat / 2 ^ 9 &&& 2 ^ 7 - 1 ||| word.toNat / 2 ^ 9 &&& 0 = _
    rw [Nat.and_two_pow_sub_one_eq_mod, Nat.and_zero, Nat.or_zero]
    omega
  have hoffset : (reference location word).toNat % 2 ^ 9 = word.toNat % 2 ^ 9 := by
    rw [reference, UInt16.toNat_or, UInt16.toNat_and, UInt16.toNat_and, Nat.or_mod_two_pow,
      Nat.and_mod_two_pow]
    show (location + 1).toNat % 2 ^ 9 &&& 0 ||| (word.toNat &&& 2 ^ 9 - 1) % 2 ^ 9 = _
    rw [Nat.and_two_pow_sub_one_eq_mod, Nat.and_zero, Nat.zero_or, Nat.mod_mod]
  apply UInt16.toNat_inj.mp
  simp only [address, ofAddress, size, UInt16.toNat_ofNat']
  omega

end Page

/-! ## the value of a literal -/

theorem mem_poolWords {line : Line} {entries : List (String × UInt16)}
    {words : List (UInt16 × UInt16)} {token : String} {address : UInt16}
    (h : poolWords line entries = .ok words) (hmem : (token, address) ∈ entries) :
    ∃ word, Emitter.literalWord line token = .ok word ∧ (address, word) ∈ words := by
  induction entries generalizing words with
  | nil => cases hmem
  | cons entry entries ih =>
      obtain ⟨token', address'⟩ := entry
      simp only [poolWords, bind_eq_ok, pure_eq_ok] at h
      obtain ⟨word', hword', rest, hrest, rfl⟩ := h
      cases hmem with
      | head => exact ⟨word', hword', List.mem_cons_self⟩
      | tail _ hmem =>
          obtain ⟨word, hword, hin⟩ := ih hrest hmem
          exact ⟨word, hword, List.mem_cons_of_mem _ hin⟩

/-- The pool has the value of a literal at its address. -/
theorem Layout.mem_pool {t : Layout} {line : Line} {pool : Emission} {token : String}
    {address : UInt16} (h : t.pool line = .ok pool)
    (hliteral : t.literals.get? token = some address) :
    ∃ value, Numeral.parse token = .ok value ∧ .text address value.word none ∈ pool.records := by
  obtain ⟨words, hwords, rfl⟩ := Layout.pool_eq_ok.mp h
  obtain ⟨word, hword, hin⟩ := mem_poolWords hwords (Table.mem_entries_of_get? hliteral)
  obtain ⟨value, hparse, rfl⟩ := Emitter.literalWord_ok hword
  exact ⟨value, hparse, List.mem_map.mpr ⟨_, hin, rfl⟩⟩

/-! ## the transfer -/

namespace Emitter

variable {t : Layout} {e e' : Emitter} {line : Line} {out : Emission} {token : String}

/-- The word of a transfer with a literal operand denotes the address of the literal. -/
theorem Step.literal {op : Transfer} (h : Step t e line out e')
    (hop : line.operation? = some (.instruction (.transfer op)))
    (operand : line.operandList[1]? = some token) (hliteral : isLiteral token = true) :
    ∃ word patch, out.records = [.text e.location word patch] ∧
      t.literals.get? token = some (Page.address e.location word) := by
  obtain ⟨i, target?, word, hreads, hword, rfl, -⟩ := h.of_instruction hop
  cases hreads with
  | transfer operands register refers page =>
      rw [operands] at operand
      cases operand
      rw [Addresses, if_pos hliteral] at refers
      obtain ⟨address, haddr, rfl⟩ := literal_ok refers
      obtain ⟨address', htarget, hoffset⟩ := pageOffset_eq_ok.mp page
      cases htarget
      have hlow := (Instruction.word?_atOffset rfl hword).1
      refine ⟨word, _, rfl, ?_⟩
      rw [Page.address_congr hlow, Page.address_of_offset hoffset, haddr]

end Emitter

/-! ## the records at an address -/

/-- The record is a word at the address. -/
def Record.isAt (address : UInt16) (r : Record) : Bool := r.address? == some address

/-- A word that is the only one at its address. -/
theorem Record.filter_isAt_eq_iff {records : List Record} {r : Record} {address : UInt16}
    (hmem : r ∈ records) (hr : r.isAt address = true) :
    records.filter (isAt address) = [r] ↔
      (records.filterMap Record.address?).count address = 1 := by
  have hcount : (records.filterMap Record.address?).count address =
      (records.filter (isAt address)).length := by
    rw [List.count_filterMap, List.countP_eq_length_filter]
    rfl
  rw [hcount]
  constructor
  · intro h
    rw [h]
    rfl
  · intro h
    obtain ⟨other, hother⟩ := List.length_eq_one_iff.mp h
    have hin : r ∈ records.filter (isAt address) := List.mem_filter.mpr ⟨hmem, hr⟩
    rw [hother, List.mem_singleton] at hin
    rw [hother, hin]

/-- A line that stores as many words as memory has is at every address. -/
theorem Layout.mem_map_positions {t : Layout} {lines : List Line} {line : Line}
    (hmem : line ∈ lines) (hlong : 65536 ≤ line.stored) (start : Nat) (address : UInt16) :
    address ∈ (t.positions start lines).map t.addressAt := by
  induction lines generalizing start with
  | nil => cases hmem
  | cons first rest ih =>
      rw [positions, List.map_append, List.mem_append]
      cases hmem with
      | head =>
          left
          have hlt := (address - t.addressAt start).toNat_lt
          refine List.mem_map.mpr ⟨start + (address - t.addressAt start).toNat, ?_, ?_⟩
          · exact List.mem_range'_1.mpr ⟨by omega, by omega⟩
          · rw [addressAt_add, UInt16.ofNat_toNat, UInt16.add_comm, UInt16.sub_add_cancel]
      | tail _ hmem => exact .inr (ih hmem _)

namespace Assembled

variable {first : Line} {body : List Line} {last : Line} {t : Layout} {s : Scan}
  {outs : List Emission} {e : Emitter} {pool : Emission} {address : UInt16}

/-- A literal shares its address with other words exactly if some string is too long to
be counted: then the string is at every address. -/
theorem filter_isAt (h : Assembled first body last t s outs e pool address)
    (inner : ∀ line ∈ body, line.operation? ≠ some (.directive .orig)) {place : UInt16}
    {r : Record} (hr : r ∈ pool.records) (hplace : r.isAt place = true) :
    (attempt (first :: (body ++ [last]))).records.filter (Record.isAt place) = [r] ↔
      ∀ line ∈ body, line.IsCountable := by
  have hmem : r ∈ (attempt (first :: (body ++ [last]))).records := by
    rw [h.records_eq]
    simp [hr]
  have haddr := h.addresses_eq inner
  have hpool : place ∈ (List.range' (t.extent body) t.literals.size).map t.addressAt := by
    rw [← h.literals_eq inner, ← Layout.filterMap_address?_pool h.pooled]
    exact List.mem_filterMap.mpr ⟨r, hr, eq_of_beq hplace⟩
  rw [Record.filter_isAt_eq_iff hmem hplace]
  constructor
  · -- a string of that length has a word at this address, and the literal is another one
    intro hone line hline hop
    rw [haddr, Layout.occupied, List.map_append, List.count_append] at hone
    have hpoolCount := List.count_pos_iff.mpr hpool
    have hstored : line.stored = line.operands.length + 1 := by simp [Line.stored, hop]
    by_cases hlong : 65536 ≤ line.stored
    · have hcode := List.count_pos_iff.mpr (t.mem_map_positions hline hlong 0 place)
      omega
    · omega
  · intro hcount
    have htiles := Layout.tiles_of_occupied haddr (h.length_eq hcount) h.memory
    rw [htiles.distinct.count, if_pos]
    exact List.mem_filterMap.mpr ⟨r, hmem, eq_of_beq hplace⟩

end Assembled

/-- A transfer whose second operand is a literal has a word, and that word refers to the
value of the literal: the pool holds the value, without a patch, at the address that the
word refers to.  No other word is at that address, exactly if the scan has counted every
string in full. -/
theorem transfer_reaches_literal {lines : List Line} {t : Layout} {line : Line} {op : Transfer}
    {token : String} (segment : IsSegment lines) (ok : (attempt lines).outcome = .ok t)
    (between : line ∈ Layout.inner lines)
    (transfer : line.operation? = some (.instruction (.transfer op)))
    (operand : line.operandList[1]? = some token) (literal : isLiteral token = true) :
    (∃ a w patch, ⟨line, .record (.text a w patch)⟩ ∈ (attempt lines).writes) ∧
    ∃ value last pool, Numeral.parse token = .ok value ∧ lines.getLast? = some last ∧
      t.pool last = .ok pool ∧
      ∀ a w patch, ⟨line, .record (.text a w patch)⟩ ∈ (attempt lines).writes →
        .text (Page.reference a w) value.word none ∈ pool.records ∧
        ((attempt lines).records.filter (Record.isAt (Page.reference a w)) =
            [.text (Page.reference a w) value.word none] ↔
          ∀ line ∈ lines, line.IsCountable) := by
  obtain ⟨first, body, last, orig, inner, close⟩ := segment
  obtain ⟨s, outs, e, pool, address, h⟩ := assembled_of_attempt orig close ok
  rw [Layout.inner_segment] at between
  -- every output of the line is one word that denotes the address of the literal
  have hstep : ∀ out, (line, out) ∈ body.zip outs → ∃ a w patch,
      out.records = [.text a w patch] ∧ t.literals.get? token = some (Page.reference a w) := by
    intro out hout
    obtain ⟨e₁, e₂, step⟩ := h.emitted.step_of_mem_zip hout
    obtain ⟨w, patch, hrecords, haddr⟩ := step.literal transfer operand literal
    rw [← Page.reference_eq_address] at haddr
    exact ⟨e₁.location, w, patch, hrecords, haddr⟩
  obtain ⟨out, hout⟩ := h.emitted.exists_mem_zip between
  obtain ⟨a, w, patch, hrecords, haddr⟩ := hstep out hout
  obtain ⟨value, hparse, -⟩ := Layout.mem_pool h.pooled haddr
  refine ⟨⟨a, w, patch, ?_⟩, value, last, pool, hparse, getLast?_segment first body last,
    h.pooled, ?_⟩
  · rw [h.mem_writes_iff orig close transfer]
    exact ⟨out, hout, by rw [hrecords]; exact List.mem_singleton_self _⟩
  · intro a' w' patch' hwrite
    obtain ⟨out', hout', hmem⟩ := (h.mem_writes_iff orig close transfer).mp hwrite
    obtain ⟨a, w, patch, hrecords, haddr⟩ := hstep out' hout'
    rw [hrecords, List.mem_singleton] at hmem
    cases hmem
    obtain ⟨value', hparse', hpool⟩ := Layout.mem_pool h.pooled haddr
    rw [hparse] at hparse'
    cases hparse'
    refine ⟨hpool, ?_⟩
    rw [countable_segment_iff orig close]
    exact h.filter_isAt inner hpool (beq_self_eq_true _)

/-- A segment with a literal that is used twice, once with the following word at the
start of memory. -/
def sharedLiteral : List Line :=
  [⟨"PROG", ".ORIG", "xFFFE", 1, .nowhere⟩,
   ⟨"", ".FILL", "x1", 2, .nowhere⟩,
   ⟨"", "LEA", "R2,=#-3", 3, .nowhere⟩,
   ⟨"", "ST", "R2,=#-3", 4, .nowhere⟩,
   ⟨"", ".END", "", 5, .nowhere⟩]

theorem transfer_reaches_literal_sharedLiteral :
    ⟨⟨"", "LEA", "R2,=#-3", 3, .nowhere⟩, .record (.text 0xFFFF 0xE401 none)⟩ ∈
        (attempt sharedLiteral).writes ∧
      (attempt sharedLiteral).records.filter (Record.isAt 1) = [.text 1 0xFFFD none] := by
  have segment : IsSegment sharedLiteral := .intro _ [_, _, _] _ rfl (by decide) rfl
  obtain ⟨t, ok⟩ : ∃ t, (attempt sharedLiteral).outcome = .ok t := ⟨_, rfl⟩
  have written : ⟨⟨"", "LEA", "R2,=#-3", 3, .nowhere⟩, .record (.text 0xFFFF 0xE401 none)⟩ ∈
      (attempt sharedLiteral).writes := by decide
  obtain ⟨-, value, last, pool, parsed, -, -, reaches⟩ := transfer_reaches_literal segment ok
    (List.mem_cons_of_mem _ List.mem_cons_self) rfl rfl rfl
  cases parsed
  exact ⟨written, (reaches _ _ _ written).2.mpr (by decide)⟩

end PageAsm
