import PageAsm.Proofs.Segment

/-!
# PageAsm.Proofs.SymbolReference

A label followed from the line that defines it to a `.FILL` line that names it:

```
scan        the first line with the label defines it     Scan.get?_of_first
layout      the definition stays                         Table.Le
emission    no external name is a symbol                 Emitter.Step.foreign
.FILL       the address of the label                     Emitter.Step.fill_label
```

An operand that starts with `#` or `x` is a numeral, and is read as one before any
name is looked up.  Labels may start with `x` too: `.FILL` then stores a
hexadecimal number, whatever the label stands for (`Emitter.Step.fill_numeral`).
-/

namespace PageAsm

open Outcome

/-! ## names -/

/-- The grammar of labels: up to six ASCII letters and digits, a letter first. -/
def IsName (name : String) : Prop :=
  name.toList.length ≤ 6 ∧ name.toList.head?.any Char.isAlpha = true ∧
    name.toList.all Char.isAlphanum = true

instance (name : String) : Decidable (IsName name) :=
  inferInstanceAs (Decidable (_ ∧ _))

theorem IsName.ne_empty {name : String} (h : IsName name) : name ≠ "" := by
  intro heq
  subst heq
  cases h.2.1

/-- Names are taken for numerals exactly if they start with `x`. -/
theorem IsName.isNumeric_iff {name : String} (h : IsName name) :
    isNumeric name = true ↔ name.toList.head? = some 'x' := by
  have hletter := h.2.1
  unfold isNumeric
  cases hname : name.toList with
  | nil => simp
  | cons c cs =>
      rw [hname] at hletter
      have hhash : c ≠ '#' := by
        intro heq
        subst heq
        cases hletter
      simp [hhash]

/-! ## what a scan defines -/

namespace Scan

variable {s s' : Scan} {line : Line} {operation : Operation} {name : String}

/-- The label of a line that is neither `.EQU` nor `.EXT` stands for its address. -/
theorem labelled_of_ne (hequ : operation ≠ .directive .equ) (hext : operation ≠ .directive .ext) :
    s.labelled line operation = .ok (.relative s.location) := by
  unfold labelled
  split
  · contradiction
  · contradiction
  · rfl

/-- A line defines no name but its label. -/
theorem get?_define_of_ne (h : s.define line operation = .ok s') (hne : line.label ≠ name) :
    s'.symbols.get? name = s.symbols.get? name := by
  unfold define at h
  split at h
  · rw [← Except.ok.inj h]
  · simp only [bind_eq_ok] at h
    obtain ⟨symbol, -, h⟩ := h
    split at h
    · simp at h
    · rw [pure_eq_ok] at h
      subst h
      rw [Table.get?_insert, if_neg (Ne.symm hne)]

/-- A line defines its label if that is new. -/
theorem get?_define (h : s.define line operation = .ok s') (hname : line.label ≠ "")
    (hnew : s.symbols.get? line.label = none) :
    ∃ symbol, s.labelled line operation = .ok symbol ∧
      s'.symbols.get? line.label = some symbol := by
  have hcond : ¬ (line.label = "" || s.symbols.contains line.label) = true := by
    simp [hname, Table.contains, hnew]
  rw [define, if_neg hcond] at h
  simp only [bind_eq_ok] at h
  obtain ⟨symbol, hsymbol, h⟩ := h
  split at h
  · simp at h
  · rw [pure_eq_ok] at h
    subst h
    refine ⟨symbol, hsymbol, ?_⟩
    rw [Table.get?_insert, if_pos rfl, hnew, Option.none_or]

/-- The symbols behind a scanned line are those that it has defined. -/
theorem exists_define_of_line (h : s.line line = .ok s') :
    ∃ operation s₁, line.operation? = some operation ∧
      (s.declare line operation).define line operation = .ok s₁ ∧ s'.symbols = s₁.symbols := by
  obtain ⟨operation, s₁, s₂, n, hop, hdef, hcol, -, hadv⟩ := line_eq_ok.mp h
  obtain ⟨-, -, rfl⟩ := advance_eq_ok.mp hadv
  refine ⟨operation, s₁, hop, hdef, ?_⟩
  rw [collect_ok hcol]

theorem get?_line_of_ne (h : s.line line = .ok s') (hne : line.label ≠ name) :
    s'.symbols.get? name = s.symbols.get? name := by
  obtain ⟨operation, s₁, -, hdef, hsymbols⟩ := exists_define_of_line h
  rw [hsymbols, get?_define_of_ne hdef hne, declare_eq]

theorem get?_lines_of_ne {lines : List Line} (h : s.lines lines = .ok s')
    (hne : ∀ line ∈ lines, line.label ≠ name) : s'.symbols.get? name = s.symbols.get? name := by
  induction lines generalizing s with
  | nil =>
      cases h
      rfl
  | cons line rest ih =>
      obtain ⟨s₁, hline, hrest⟩ := lines_cons_eq_ok.mp h
      rw [ih hrest fun other hmem => hne other (List.mem_cons_of_mem _ hmem),
        get?_line_of_ne hline (hne line List.mem_cons_self)]

/-- A new label stands for what its line says. -/
theorem get?_line (h : s.line line = .ok s') (hname : line.label ≠ "")
    (hnew : s.symbols.get? line.label = none) :
    ∃ operation symbol, line.operation? = some operation ∧
      (s.declare line operation).labelled line operation = .ok symbol ∧
      s'.symbols.get? line.label = some symbol := by
  obtain ⟨operation, s₁, hop, hdef, hsymbols⟩ := exists_define_of_line h
  have hnew' : (s.declare line operation).symbols.get? line.label = none := by
    rw [declare_eq]
    exact hnew
  obtain ⟨symbol, hsymbol, hget⟩ := get?_define hdef hname hnew'
  exact ⟨operation, symbol, hop, hsymbol, hsymbols ▸ hget⟩

/-- Of several lines with a label, the first defines it. -/
theorem defined_of_first {origin : UInt16} {before after : List Line}
    (h : (start origin).lines (before ++ line :: after) = .ok s')
    (hfirst : ∀ other ∈ before, other.label ≠ line.label) (hname : line.label ≠ "") :
    ∃ s operation symbol, (start origin).lines before = .ok s ∧
      line.operation? = some operation ∧
      (s.declare line operation).labelled line operation = .ok symbol ∧
      s'.symbols.get? line.label = some symbol := by
  obtain ⟨s, hbefore, hrest⟩ := lines_append_eq_ok.mp h
  obtain ⟨s₁, hline, hafter⟩ := lines_cons_eq_ok.mp hrest
  have hnew : s.symbols.get? line.label = none := get?_lines_of_ne hbefore hfirst
  obtain ⟨operation, symbol, hop, hsymbol, hget⟩ := get?_line hline hname hnew
  exact ⟨s, operation, symbol, hbefore, hop, hsymbol, symbols_le_of_lines hafter _ _ hget⟩

/-- A label whose first line is neither `.EQU` nor `.EXT` stands for the location of that
line. -/
theorem get?_of_first {origin : UInt16} {before after : List Line}
    (h : (start origin).lines (before ++ line :: after) = .ok s')
    (hfirst : ∀ other ∈ before, other.label ≠ line.label) (hname : line.label ≠ "")
    (hequ : line.operation? ≠ some (.directive .equ))
    (hext : line.operation? ≠ some (.directive .ext)) :
    ∃ s, (start origin).lines before = .ok s ∧
      s'.symbols.get? line.label = some (.relative s.location) := by
  obtain ⟨s, operation, symbol, hbefore, hop, hsymbol, hget⟩ := defined_of_first h hfirst hname
  rw [hop, ne_eq, Option.some.injEq] at hequ hext
  rw [labelled_of_ne hequ hext, declare_eq] at hsymbol
  cases hsymbol
  exact ⟨s, hbefore, hget⟩

/-- The empty label defines nothing. -/
theorem get?_line_empty (h : s.line line = .ok s') :
    s'.symbols.get? "" = s.symbols.get? "" := by
  by_cases hname : line.label = ""
  · obtain ⟨operation, s₁, -, hdef, hsymbols⟩ := exists_define_of_line h
    rw [define, hname] at hdef
    simp only [decide_true, Bool.true_or, if_true] at hdef
    rw [hsymbols, ← Except.ok.inj hdef, declare_eq]
  · exact get?_line_of_ne h hname

theorem get?_lines_empty {lines : List Line} (h : s.lines lines = .ok s') :
    s'.symbols.get? "" = s.symbols.get? "" := by
  induction lines generalizing s with
  | nil =>
      cases h
      rfl
  | cons line rest ih =>
      obtain ⟨s₁, hline, hrest⟩ := lines_cons_eq_ok.mp h
      rw [ih hrest, get?_line_empty hline]

/-- Every symbol is the label of a line, and the first of these lines defines it. -/
theorem exists_first_of_get? {origin : UInt16} {lines : List Line} {symbol : Symbol}
    (h : (start origin).lines lines = .ok s') (hget : s'.symbols.get? name = some symbol) :
    ∃ before line after s operation, lines = before ++ line :: after ∧ line.label = name ∧
      name ≠ "" ∧ (∀ other ∈ before, other.label ≠ name) ∧
      (start origin).lines before = .ok s ∧ line.operation? = some operation ∧
      (s.declare line operation).labelled line operation = .ok symbol := by
  have hname : name ≠ "" := by
    intro heq
    rw [heq, get?_lines_empty h] at hget
    cases hget
  cases hfind : lines.find? (fun line => line.label == name) with
  | none =>
      have hnone : s'.symbols.get? name = none := get?_lines_of_ne h fun line hmem heq => by
        have := List.find?_eq_none.mp hfind line hmem
        simp [heq] at this
      rw [hnone] at hget
      cases hget
  | some line =>
      obtain ⟨hlabel, before, after, rfl, hbefore⟩ := List.find?_eq_some_iff_append.mp hfind
      have hlabel : line.label = name := eq_of_beq hlabel
      subst hlabel
      have hfirst : ∀ other ∈ before, other.label ≠ line.label := fun other hmem => by
        simpa using hbefore other hmem
      obtain ⟨s, operation, symbol', hscan, hop, hsymbol, hget'⟩ :=
        defined_of_first h hfirst hname
      rw [hget'] at hget
      cases hget
      exact ⟨before, line, after, s, operation, rfl, rfl, hname, hfirst, hscan, hop, hsymbol⟩

end Scan

/-! ## what `.FILL` stores -/

namespace Emitter

variable {t : Layout} {e e' : Emitter} {line : Line} {out : Emission} {name : String}

/-- No external name is a symbol. -/
def IsForeign (t : Layout) (e : Emitter) : Prop :=
  ∀ name ∈ e.externals, t.symbols.contains name = false

theorem IsForeign.not_mem {symbol : Symbol} (h : e.IsForeign t)
    (hname : t.symbols.get? name = some symbol) : name ∉ e.externals := by
  intro hmem
  have hnone := h name hmem
  rw [Table.contains, hname] at hnone
  cases hnone

theorem Step.foreign (h : Step t e line out e') (hforeign : e.IsForeign t) : e'.IsForeign t := by
  cases h with
  | ext _ _ fresh =>
      intro name hmem
      cases Names.mem_declareAll.mp hmem with
      | inl hold => exact hforeign name hold
      | inr hnew => exact fresh name hnew
  | _ => exact hforeign

/-- A name that is a label and not a numeral refers to the address of the label. -/
theorem resolve_label {address : UInt16} (hforeign : e.IsForeign t)
    (hnumeric : isNumeric name = false) (hname : t.symbols.get? name = some (.relative address)) :
    e.resolve t line name = .ok (.relative address) := by
  have hext := hforeign.not_mem hname
  simp [resolve, hnumeric, hext, hname]

/-- `.FILL` with a numeral stores its value. -/
theorem Step.fill_numeral (h : Step t e line out e')
    (hop : line.operation? = some (.directive .fill))
    (hnumeric : isNumeric line.operands = true) :
    ∃ value, Numeral.parse line.operands = .ok value ∧
      out.records = [.text e.location value.word none] := by
  obtain ⟨-, word, hword, rfl, -⟩ | ⟨hno, -⟩ := h.of_fill hop
  · obtain ⟨value, hparse, rfl⟩ := literalWord_ok hword
    exact ⟨value, hparse, rfl⟩
  · rw [hnumeric] at hno
    cases hno

/-- `.FILL` with a label that is not a numeral stores the address of the label. -/
theorem Step.fill_label {address : UInt16} (h : Step t e line out e') (hforeign : e.IsForeign t)
    (hop : line.operation? = some (.directive .fill))
    (hnumeric : isNumeric line.operands = false)
    (hlabel : t.symbols.get? line.operands = some (.relative address)) :
    ∃ patch, out.records = [.text e.location address patch] := by
  obtain ⟨hyes, -⟩ | ⟨-, target, word, hresolve, hword, rfl, -⟩ := h.of_fill hop
  · rw [hnumeric] at hyes
    cases hyes
  · rw [resolve_label hforeign hnumeric hlabel] at hresolve
    cases hresolve
    cases hword
    exact ⟨_, rfl⟩

/-- `.FILL` with a label stores one word, and the first character of the label decides
which. -/
theorem Step.fill_name {address : UInt16} (h : Step t e line out e') (hforeign : e.IsForeign t)
    (hop : line.operation? = some (.directive .fill)) (hname : IsName line.operands)
    (hlabel : t.symbols.get? line.operands = some (.relative address)) :
    ∃ a w patch, out.records = [.text a w patch] ∧
      (line.operands.toList.head? ≠ some 'x' → w = address) ∧
      (line.operands.toList.head? = some 'x' →
        ∃ value, Numeral.parse line.operands = .ok value ∧ w = value.word) := by
  by_cases hx : line.operands.toList.head? = some 'x'
  · have hnumeric := hname.isNumeric_iff.mpr hx
    obtain ⟨value, hparse, hrecords⟩ := h.fill_numeral hop hnumeric
    exact ⟨_, _, _, hrecords, fun hne => absurd hx hne, fun _ => ⟨value, hparse, rfl⟩⟩
  · have hnumeric : isNumeric line.operands = false :=
      Bool.eq_false_iff.mpr (hx ∘ hname.isNumeric_iff.mp)
    obtain ⟨patch, hrecords⟩ := h.fill_label hforeign hop hnumeric hlabel
    exact ⟨_, _, _, hrecords, fun _ => rfl, fun heq => absurd heq hx⟩

end Emitter

/-- In the body of a segment, no external name is a symbol. -/
theorem Assembled.exists_foreign_step {first : Line} {body : List Line} {last : Line}
    {t : Layout} {s : Scan} {outs : List Emission} {e : Emitter} {pool : Emission}
    {address : UInt16} {line : Line} {out : Emission}
    (h : Assembled first body last t s outs e pool address)
    (hmem : (line, out) ∈ body.zip outs) :
    ∃ e₁ e₂, Emitter.IsForeign t e₁ ∧ Emitter.Step t e₁ line out e₂ := by
  have initially : ((Emitter.start t).opened first t.origin).IsForeign t :=
    fun _ hname => absurd hname List.not_mem_nil
  exact h.emitted.step_of_invariant Emitter.Step.foreign initially hmem

/-- Where the first line with a label is neither `.EQU` nor `.EXT`, every `.FILL` line with
that label as its operand has a word.  It is the location of the labelled line, unless the
label starts with `x`: then it is the value of the label as a hexadecimal number. -/
theorem fill_stores_location {lines before after : List Line} {line : Line} {t : Layout}
    (segment : IsSegment lines) (ok : (attempt lines).outcome = .ok t)
    (between : Layout.inner lines = before ++ line :: after) (name : IsName line.label)
    (first : ∀ other ∈ before, other.label ≠ line.label)
    (equ : line.operation? ≠ some (.directive .equ))
    (ext : line.operation? ≠ some (.directive .ext)) :
    ∃ s, (Scan.start t.origin).lines before = .ok s ∧
      ∀ fill ∈ Layout.inner lines, fill.operation? = some (.directive .fill) →
        fill.operands = line.label →
        (∃ a w patch, ⟨fill, .record (.text a w patch)⟩ ∈ (attempt lines).writes) ∧
        ∀ a w patch, ⟨fill, .record (.text a w patch)⟩ ∈ (attempt lines).writes →
          (line.label.toList.head? ≠ some 'x' → w = s.location) ∧
          (line.label.toList.head? = some 'x' →
            ∃ value, Numeral.parse line.label = .ok value ∧ w = value.word) := by
  obtain ⟨orig, body, last, horig, -, hclose⟩ := segment
  obtain ⟨s', outs, e, pool, address, h⟩ := assembled_of_attempt horig hclose ok
  rw [Layout.inner_segment] at between ⊢
  obtain ⟨s, hscan, hget⟩ :=
    Scan.get?_of_first (between ▸ h.scanned) first name.ne_empty equ ext
  have hlabel := Layout.symbols_le_of_ofScan h.placed _ _ hget
  refine ⟨s, hscan, ?_⟩
  intro fill hfill hop hoperand
  rw [← hoperand] at name hlabel ⊢
  have hwrites : ∀ {r}, ⟨fill, .record r⟩ ∈ (attempt (orig :: (body ++ [last]))).writes ↔
      ∃ out, (fill, out) ∈ body.zip outs ∧ r ∈ out.records :=
    h.mem_writes_iff_of_ne horig hclose (by simp [hop]) (by simp [hop])
  constructor
  · obtain ⟨out, hout⟩ := h.emitted.exists_mem_zip hfill
    obtain ⟨e₁, e₂, hforeign, step⟩ := h.exists_foreign_step hout
    obtain ⟨a, w, patch, hrecords, -⟩ := step.fill_name hforeign hop name hlabel
    refine ⟨a, w, patch, hwrites.mpr ⟨out, hout, ?_⟩⟩
    rw [hrecords]
    exact List.mem_singleton_self _
  · intro a w patch hwrite
    obtain ⟨out, hout, hmem⟩ := hwrites.mp hwrite
    obtain ⟨e₁, e₂, hforeign, step⟩ := h.exists_foreign_step hout
    obtain ⟨a', w', patch', hrecords, hword⟩ := step.fill_name hforeign hop name hlabel
    rw [hrecords, List.mem_singleton] at hmem
    cases hmem
    exact hword

/-- A segment with a reference to a label further on, which a later line has again. -/
def labelTwice : List Line :=
  [⟨"PROG", ".ORIG", "", 1, .nowhere⟩,
   ⟨"", ".FILL", "X1", 2, .nowhere⟩,
   ⟨"", ".BLKW", "#6", 3, .nowhere⟩,
   ⟨"X1", "RET", "", 4, .nowhere⟩,
   ⟨"X1", ".EQU", "#2", 5, .nowhere⟩,
   ⟨"", ".END", "", 6, .nowhere⟩]

theorem fill_stores_location_labelTwice :
    ∃ a w patch, ⟨⟨"", ".FILL", "X1", 2, .nowhere⟩, .record (.text a w patch)⟩ ∈
        (attempt labelTwice).writes ∧ w = 7 := by
  have segment : IsSegment labelTwice := .intro _ [_, _, _, _] _ rfl (by decide) rfl
  have between : Layout.inner labelTwice =
      [⟨"", ".FILL", "X1", 2, .nowhere⟩, ⟨"", ".BLKW", "#6", 3, .nowhere⟩] ++
        ⟨"X1", "RET", "", 4, .nowhere⟩ :: [⟨"X1", ".EQU", "#2", 5, .nowhere⟩] := rfl
  obtain ⟨t, ok, origin⟩ : ∃ t, (attempt labelTwice).outcome = .ok t ∧ t.origin = 0 :=
    ⟨_, rfl, rfl⟩
  obtain ⟨s, scanned, stores⟩ := fill_stores_location segment ok between (by decide) (by decide)
    (by decide) (by decide)
  rw [origin] at scanned
  cases scanned
  obtain ⟨⟨a, w, patch, written⟩, words⟩ := stores _ List.mem_cons_self rfl rfl
  exact ⟨a, w, patch, written, (words a w patch written).1 (by decide)⟩

/-- A segment with a label that reads as a hexadecimal number. -/
def hexadecimalLabel : List Line :=
  [⟨"P", ".ORIG", "x3000", 1, .nowhere⟩,
   ⟨"x1", ".FILL", "x1", 2, .nowhere⟩,
   ⟨"", ".END", "", 3, .nowhere⟩]

/-- The label is defined at the location of its line, and `.FILL` stores another word. -/
theorem fill_misses_hexadecimalLabel :
    IsSegment hexadecimalLabel ∧ IsName "x1" ∧
      Layout.inner hexadecimalLabel = [⟨"x1", ".FILL", "x1", 2, .nowhere⟩] ∧
      ∃ t s, (attempt hexadecimalLabel).outcome = .ok t ∧
        (Scan.start t.origin).lines [] = .ok s ∧
        t.symbols.get? "x1" = some (.relative s.location) ∧
        ∀ a w patch, ⟨⟨"x1", ".FILL", "x1", 2, .nowhere⟩, .record (.text a w patch)⟩ ∈
          (attempt hexadecimalLabel).writes → w ≠ s.location := by
  have segment : IsSegment hexadecimalLabel := .intro _ [_] _ rfl (by decide) rfl
  have records : (attempt hexadecimalLabel).records =
      [.header "P     " 0x3000 1, .text 0x3000 1 none, .end 0x3000] := by decide
  refine ⟨segment, by decide, rfl, _, Scan.start 0x3000, rfl, rfl, rfl, ?_⟩
  intro a w patch hwrite
  have hmem : .text a w patch ∈ (attempt hexadecimalLabel).records :=
    List.mem_filterMap.mpr ⟨_, hwrite, rfl⟩
  rw [records] at hmem
  have hword : w = 1 := by simp_all
  rw [hword]
  decide

end PageAsm
