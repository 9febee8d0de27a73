import Mathlib.Data.List.TakeWhile
import PageAsm.Proofs.LabelTable
import PageAsm.Proofs.MemoryLayout

/-!
# PageAsm.Proofs.LiteralPool

The literals of a layout, read off the lines: each is the text of an operand
field from its first `=` on, and has one word behind the code.

```
origin        lines        literals
              |            |
              codeEnd      poolEnd
```

A scan keeps the tokens in the order it meets them (`Scan.lines_literals`), and
the pool gives them consecutive addresses (`LiteralTable.allocate_eq`).
Addresses wrap at the end of memory.  The length does not, so the two agree
modulo the size of memory only.
-/

namespace PageAsm

open Outcome

/-- The literals that lines use, in order, with repetitions.  Strings hold none. -/
def literalTokens (lines : List Line) : List String :=
  (lines.filter fun line =>
    line.operation? ≠ some (.directive .strz) ∧ '=' ∈ line.operands.toList).map fun line =>
      String.ofList (line.operands.toList.dropWhile (· != '='))

theorem literalTokens_append (xs ys : List Line) :
    literalTokens (xs ++ ys) = literalTokens xs ++ literalTokens ys := by
  rw [literalTokens, List.filter_append, List.map_append]
  rfl

theorem Line.literal?_eq (line : Line) :
    line.literal? =
      if '=' ∈ line.operands.toList then
        some (String.ofList (line.operands.toList.dropWhile (· != '=')))
      else none := by
  have hnone : line.operands.toList.dropWhile (· != '=') = [] ↔ '=' ∉ line.operands.toList := by
    rw [List.dropWhile_eq_nil_iff]
    constructor
    · intro h hmem
      simpa using h '=' hmem
    · intro h c hmem
      exact bne_iff_ne.mpr fun heq => h (heq ▸ hmem)
  unfold Line.literal?
  split
  · next hnil => rw [if_neg (hnone.mp hnil)]
  · next hcons => rw [if_pos (Decidable.not_not.mp (mt hnone.mpr hcons))]

/-! ## the scan -/

namespace Scan

variable {s s' : Scan} {line : Line} {operation : Operation} {lines : List Line}

/-- A line adds the literal that it uses, if that is new. -/
theorem collect_literals (h : s.collect line operation = .ok s')
    (hop : line.operation? = some operation) :
    s'.literals = Names.declareAll s.literals (literalTokens [line]) ∧
      (s.literals.length ≤ LiteralTable.capacity → s'.literals.length ≤ LiteralTable.capacity) := by
  rw [collect, Line.literal?_eq] at h
  by_cases huses : operation ≠ .directive .strz ∧ '=' ∈ line.operands.toList
  · obtain ⟨hstrz, hmem⟩ := huses
    have htokens : literalTokens [line] =
        [String.ofList (line.operands.toList.dropWhile (· != '='))] := by
      simp [literalTokens, hop, hstrz, hmem]
    simp only [hstrz, hmem, if_true, if_false] at h
    split at h
    · simp at h
    · next hroom =>
      rw [← Except.ok.inj h, htokens]
      refine ⟨rfl, fun hs => ?_⟩
      simp only [Bool.and_eq_true, decide_eq_true_eq, not_and, Nat.not_lt] at hroom
      by_cases hold : String.ofList (line.operands.toList.dropWhile (· != '=')) ∈ s.literals
      · rw [Names.declare, if_pos hold]
        exact hs
      · exact hroom hold
  · have htokens : literalTokens [line] = [] := by
      simpa [literalTokens, hop] using huses
    have hsame : s' = s := by
      split at h
      · exact (Except.ok.inj h).symm
      · next hstrz =>
        rw [if_neg fun hmem => huses ⟨hstrz, hmem⟩] at h
        exact (Except.ok.inj h).symm
    rw [hsame, htokens]
    exact ⟨rfl, id⟩

theorem line_literals (h : s.line line = .ok s') :
    s'.literals = Names.declareAll s.literals (literalTokens [line]) ∧
      (s.literals.length ≤ LiteralTable.capacity → s'.literals.length ≤ LiteralTable.capacity) := by
  obtain ⟨operation, s₁, s₂, n, hop, hdef, hcol, -, hadv⟩ := line_eq_ok.mp h
  have hliterals₁ : s₁.literals = s.literals := by rw [(define_ok hdef).2, declare_eq]
  have hliterals₂ : s'.literals = s₂.literals := by rw [(advance_eq_ok.mp hadv).2.2]
  rw [← hliterals₁, hliterals₂]
  exact collect_literals hcol hop

/-- The literals of scanned lines are added in order and within the capacity of the pool. -/
theorem lines_literals (h : s.lines lines = .ok s') :
    s'.literals = Names.declareAll s.literals (literalTokens lines) ∧
      (s.literals.length ≤ LiteralTable.capacity → s'.literals.length ≤ LiteralTable.capacity) := by
  induction lines generalizing s with
  | nil =>
      cases h
      exact ⟨rfl, id⟩
  | cons line rest ih =>
      obtain ⟨s₁, hline, hrest⟩ := lines_cons_eq_ok.mp h
      obtain ⟨hliterals₁, hroom₁⟩ := line_literals hline
      obtain ⟨hliterals, hroom⟩ := ih hrest
      refine ⟨?_, fun hs => hroom (hroom₁ hs)⟩
      rw [hliterals, hliterals₁, ← Names.declareAll_append, ← literalTokens_append,
        List.singleton_append]

end Scan

/-! ## the pool -/

namespace Names

theorem nodup_declareAll {names more : List String} (h : names.Nodup) :
    (declareAll names more).Nodup := by
  induction more generalizing names with
  | nil => exact h
  | cons name more ih => exact ih (nodup_declare h)

theorem declareAll_of_nodup {names more : List String} (h : (names ++ more).Nodup) :
    declareAll names more = names ++ more := by
  induction more generalizing names with
  | nil => rw [declareAll_nil, List.append_nil]
  | cons name more ih =>
      have hnew : name ∉ names := by
        intro hmem
        exact (List.nodup_append.mp h).2.2 name hmem name List.mem_cons_self rfl
      rw [List.append_cons] at h
      rw [declareAll_cons, declare, if_neg hnew, ih h, ← List.append_cons]

end Names

namespace LiteralTable

theorem keys_allocate (t : LiteralTable) (base : UInt16) (tokens : List String) :
    (allocate t base tokens).1.keys = Names.declareAll t.keys tokens := by
  induction tokens generalizing t base with
  | nil => rfl
  | cons token tokens ih =>
      rw [allocate, Names.declareAll_cons, Names.declare]
      split
      · next hold => rw [ih, if_pos (Table.contains_iff_mem_keys.mp hold)]
      · next hnew =>
        rw [ih, Table.keys_insert, if_neg hnew, if_neg (mt Table.contains_iff_mem_keys.mpr hnew)]

/-- The tokens that have no address yet, each once, in order of their first mention. -/
def fresh (t : LiteralTable) (tokens : List String) : List String :=
  (tokens.filter (· ∉ t.keys)).eraseDups

/-- A new token is not new any more behind its first mention. -/
theorem fresh_cons_of_not_mem {t : LiteralTable} {token : String} (base : UInt16)
    (tokens : List String) (h : token ∉ t.keys) :
    fresh t (token :: tokens) = token :: fresh (t.insert token base) tokens := by
  have hnew : ¬ t.contains token = true := mt Table.contains_iff_mem_keys.mp h
  rw [fresh, List.filter_cons_of_pos (by simpa using h), List.eraseDups_cons, List.filter_filter,
    fresh, Table.keys_insert, if_neg hnew]
  congr 3
  funext other
  rw [Bool.eq_iff_iff]
  simp [and_comm, not_or]

/-- An allocation gives consecutive addresses to the new tokens and ends behind them. -/
theorem allocate_eq (t : LiteralTable) (base : UInt16) (tokens : List String) :
    allocate t base tokens =
      (⟨t.entries ++ (fresh t tokens).mapIdx fun i token => (token, base + UInt16.ofNat i)⟩,
        base + UInt16.ofNat (fresh t tokens).length) := by
  induction tokens generalizing t base with
  | nil => simp [allocate, fresh]
  | cons token tokens ih =>
      rw [allocate]
      split
      · next hold =>
        have hmem := Table.contains_iff_mem_keys.mp hold
        rw [ih, fresh, fresh, List.filter_cons_of_neg (by simpa using hmem)]
      · next hnew =>
        have hmem := mt Table.contains_iff_mem_keys.mpr hnew
        have hentries : (t.insert token base).entries = t.entries ++ [(token, base)] := by
          rw [Table.insert, if_neg hnew]
        have hfirst : base + UInt16.ofNat 0 = base := UInt16.add_zero base
        have hnext (i : Nat) : base + 1 + UInt16.ofNat i = base + UInt16.ofNat (i + 1) := by
          rw [Nat.add_comm i 1, UInt16.ofNat_add, ← UInt16.add_assoc]
          rfl
        rw [ih, fresh_cons_of_not_mem base tokens hmem, hentries, List.mapIdx_cons,
          List.append_assoc, List.singleton_append, List.length_cons, hfirst]
        simp only [hnext]

/-- Different tokens get one word each, in their order. -/
theorem allocate_empty (base : UInt16) {tokens : List String} (h : tokens.Nodup) :
    (allocate .empty base tokens).1.keys = tokens ∧
      (allocate .empty base tokens).1.entries.map Prod.snd =
        (List.range tokens.length).map (fun i => base + UInt16.ofNat i) ∧
      (allocate .empty base tokens).2 = base + UInt16.ofNat tokens.length := by
  have hkeys : (allocate .empty base tokens).1.keys = tokens := by
    rw [keys_allocate]
    exact Names.declareAll_of_nodup h
  have hsize : (allocate .empty base tokens).1.size = tokens.length := by
    rw [Table.size, ← List.length_map Prod.fst]
    exact congrArg List.length hkeys
  obtain ⟨n, hn, haddresses⟩ := allocate_addresses .empty base tokens
  have hempty : (Table.empty : LiteralTable).size = 0 := rfl
  rw [hsize, hempty, Nat.zero_add] at hn
  have hfresh : fresh .empty tokens = tokens := by
    have hall : tokens.filter (· ∉ (Table.empty : LiteralTable).keys) = tokens :=
      List.filter_eq_self.mpr fun token _ => decide_eq_true List.not_mem_nil
    rw [fresh, hall]
    exact (Names.declareAll_eraseDups [] tokens).symm.trans (Names.declareAll_of_nodup h)
  refine ⟨hkeys, ?_, ?_⟩
  · rw [haddresses, hn]
    rfl
  · rw [allocate_eq, hfresh]

end LiteralTable

/-- Consecutive addresses are different as long as they do not go around memory. -/
theorem nodup_consecutive {base : UInt16} {n : Nat} (h : n ≤ 65536) :
    ((List.range n).map fun i => base + UInt16.ofNat i).Nodup := by
  refine List.pairwise_map.mpr (List.nodup_range.imp_of_mem fun {i j} hi hj hne heq => hne ?_)
  have hi := List.mem_range.mp hi
  have hj := List.mem_range.mp hj
  have heq : (UInt16.ofNat i).toNat = (UInt16.ofNat j).toNat :=
    congrArg UInt16.toNat ((UInt16.add_right_inj base).mp heq)
  rw [UInt16.toNat_ofNat', UInt16.toNat_ofNat'] at heq
  omega

/-- The literals of a layout are those that its lines use, in order of their first use, at
consecutive addresses behind the code.  The code and the pool end where they do modulo the
size of memory; their length is exact if every operand is short enough to be counted. -/
theorem literals_of_ofLines {lines : List Line} {t : Layout} (laid : Layout.ofLines lines = .ok t) :
    t.literals.keys = (literalTokens (Layout.inner lines)).eraseDups ∧
    t.literals.size ≤ 50 ∧
    (∀ j token address, t.literals.entries[j]? = some (token, address) →
      address.toNat = (t.codeEnd.toNat + j) % 65536) ∧
    (t.literals.entries.map Prod.snd).Nodup ∧
    t.codeEnd.toNat = (t.origin.toNat + t.extent (Layout.inner lines)) % 65536 ∧
    t.poolEnd.toNat = (t.codeEnd.toNat + t.literals.size) % 65536 ∧
    ((∀ line ∈ Layout.inner lines, line.operands.length < 4294967295) →
      t.length = t.extent (Layout.inner lines) + t.literals.size) := by
  obtain ⟨s, hscan, hplace⟩ := Layout.exists_scan_of_ofLines laid
  have hle := Layout.symbols_le_of_ofScan hplace
  obtain ⟨-, ht⟩ := Layout.ofScan_eq_ok.mp hplace
  have hcode : t.codeEnd = s.location := by rw [ht]
  have hlength : t.length = s.length + t.literals.size := by rw [ht]
  obtain ⟨htokens, hroom⟩ := Scan.lines_literals hscan
  -- the scan has no token twice, so the pool has a word for each of them
  have hnodup : s.literals.Nodup := by
    rw [htokens]
    exact Names.nodup_declareAll List.nodup_nil
  obtain ⟨hkeys, haddresses, hend⟩ := LiteralTable.allocate_empty t.codeEnd hnodup
  have hliterals : (LiteralTable.allocate .empty t.codeEnd s.literals).1 = t.literals := by
    rw [ht]
  have hpoolEnd : (LiteralTable.allocate .empty t.codeEnd s.literals).2 = t.poolEnd := by
    rw [ht]
  rw [hliterals] at hkeys haddresses
  have hsize : t.literals.size = s.literals.length := by
    rw [Table.size, ← List.length_map Prod.fst]
    exact congrArg List.length hkeys
  have hfew : s.literals.length ≤ 50 := hroom (Nat.zero_le _)
  refine ⟨?_, hsize.trans_le hfew, ?_, ?_, ?_, ?_, ?_⟩
  · have hempty : (Scan.start t.origin).literals = ([] : List String).eraseDups := rfl
    rw [hkeys, htokens, hempty, Names.declareAll_eraseDups, List.nil_append]
  · intro j token address hentry
    have hsecond : (t.literals.entries.map Prod.snd)[j]? = some address := by
      rw [List.getElem?_map, hentry]
      rfl
    rw [haddresses, List.getElem?_map] at hsecond
    obtain ⟨i, hi, rfl⟩ := Option.map_eq_some_iff.mp hsecond
    obtain ⟨hlt, rfl⟩ := List.getElem?_eq_some_iff.mp hi
    rw [List.getElem_range]
    rw [UInt16.toNat_add, UInt16.toNat_ofNat']
    omega
  · rw [haddresses]
    exact nodup_consecutive (by omega)
  · rw [hcode]
    exact Scan.toNat_location hscan hle
  · rw [← hpoolEnd, hend, hsize, UInt16.toNat_add, UInt16.toNat_ofNat']
    omega
  · intro hshort
    have hcount : ∀ line ∈ Layout.inner lines, line.IsCountable := by
      intro line hmem _
      have := hshort line hmem
      omega
    have hscanned := Scan.lines_length hscan hle hcount
    rw [hlength, hscanned]
    exact congrArg (· + t.literals.size) (Nat.zero_add _)

/-- A segment whose pool goes on at the start of memory, with a literal that is used twice
and a string that looks like one. -/
def poolAcrossMemoryEnd : List Line :=
  [⟨"PROG", ".ORIG", "xFFF8", 1, .nowhere⟩,
   ⟨"", "LD", "R0,=#5", 2, .nowhere⟩,
   ⟨"", ".STRZ", "a=b", 3, .nowhere⟩,
   ⟨"", "LEA", "R1,=x5", 4, .nowhere⟩,
   ⟨"", "ST", "R2,=#5", 5, .nowhere⟩,
   ⟨"", ".END", "", 6, .nowhere⟩]

theorem literals_of_ofLines_poolAcrossMemoryEnd :
    ∃ t, Layout.ofLines poolAcrossMemoryEnd = .ok t ∧ t.literals.keys = ["=#5", "=x5"] ∧
      t.codeEnd.toNat = 65535 ∧ t.poolEnd.toNat = 1 ∧ t.length = 9 := by
  have laid : Layout.ofLines poolAcrossMemoryEnd = .ok
      { symbols := ⟨[]⟩
        externals := []
        literals := ⟨[("=#5", 0xFFFF), ("=x5", 0)]⟩
        origin := 0xFFF8
        codeEnd := 0xFFFF
        poolEnd := 1
        length := 9 } := rfl
  obtain ⟨hkeys, -, -, -, hcode, hend, hlength⟩ := literals_of_ofLines laid
  exact ⟨_, laid, hkeys, hcode, hend, hlength (by decide)⟩

end PageAsm
