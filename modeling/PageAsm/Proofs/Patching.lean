import PageAsm.Proofs.ExternalNames
import PageAsm.Proofs.Relocation

/-!
# PageAsm.Proofs.Patching

Which words of a movable segment are patched, and against which name, read off
the lines:

```
operand                               patched against
literal of a transfer                 the segment
name of an address in the segment     the segment
external name, or an alias of it      the external name
numeral, or name of a number          not patched
```

Only branches, jumps, transfers and `.FILL` have an operand of this kind
(`Line.reference?`).  An alias is followed from its line to the line of its
operand until an external name is reached: `StandsFor` is the chain of these
lines, and the table of symbols has its end (`Layout.meaning?_eq_external_iff`).
-/

namespace PageAsm

open Outcome

/-! ## references -/

/-- The operand of a line that refers to an address, and the bits of the word that do. -/
def Line.reference? (line : Line) : Option (PatchWidth × String) :=
  match line.operation?, line.operandList with
  | some (.instruction (.branch _)), [token] => some (.nine, token)
  | some (.instruction (.jump _)), [token] => some (.nine, token)
  | some (.instruction (.transfer _)), [_, token] => some (.nine, token)
  | some (.directive .fill), _ => some (.sixteen, line.operands)
  | _, _ => none

/-- The line is a transfer whose second operand is a literal. -/
def Line.takesLiteral (line : Line) : Bool :=
  match line.operation?, line.operandList with
  | some (.instruction (.transfer _)), [_, token] => isLiteral token
  | _, _ => false

theorem Line.exists_reference_of_takesLiteral {line : Line} (h : line.takesLiteral = true) :
    ∃ token, line.reference? = some (.nine, token) := by
  unfold takesLiteral at h
  split at h
  · next op reg token hop hlist =>
    refine ⟨token, ?_⟩
    rw [reference?, hop, hlist]
  · cases h

/-- A name stands for an external name: it is declared, or it is the label of a `.EQU` or
`.EXT` line, the first with this label, whose operand stands for the external name. -/
inductive StandsFor (lines : List Line) : String → String → Prop where
  | declared {name : String} (mem : name ∈ declaredNames lines) : StandsFor lines name name
  | chain {before after : List Line} {line : Line} {target : String}
      (split : lines = before ++ line :: after)
      (first : ∀ other ∈ before, other.label ≠ line.label)
      (label : line.label ≠ "")
      (operation : line.operation? = some (.directive .equ) ∨
        line.operation? = some (.directive .ext))
      (numeric : isNumeric line.operands = false)
      (operand : StandsFor lines line.operands target) :
      StandsFor lines line.label target

/-- The patch that a line needs in a movable segment, where `before` are the lines in front
of it. -/
inductive Refers (t : Layout) (lines before : List Line) (line : Line) : Patch → Prop where
  | literal (literal : line.takesLiteral = true) :
      Refers t lines before line ⟨.nine, segmentName lines⟩
  | label {width : PatchWidth} {token : String} {address : UInt16}
      (reference : line.reference? = some (width, token))
      (literal : line.takesLiteral = false)
      (numeric : isNumeric token = false)
      (symbol : t.symbols.get? token = some (.relative address)) :
      Refers t lines before line ⟨width, segmentName lines⟩
  | external {width : PatchWidth} {token target : String}
      (reference : line.reference? = some (width, token))
      (literal : line.takesLiteral = false)
      (numeric : isNumeric token = false)
      (stands : StandsFor (Layout.inner lines) token target)
      (declared : target ∈ declaredNames before) :
      Refers t lines before line ⟨width, target⟩

section

variable {t : Layout} {lines before : List Line} {line : Line} {width : PatchWidth}
  {token : String} {p : Patch}

theorem not_refers (h : line.reference? = none) : ¬ Refers t lines before line p := by
  intro hp
  cases hp with
  | literal literal =>
      obtain ⟨token, href⟩ := Line.exists_reference_of_takesLiteral literal
      rw [h] at href
      cases href
  | label reference | external reference =>
      rw [h] at reference
      cases reference

theorem refers_iff_of_literal (h : line.takesLiteral = true) :
    Refers t lines before line p ↔ p = ⟨.nine, segmentName lines⟩ := by
  constructor
  · intro hp
    cases hp with
    | literal => rfl
    | label _ literal | external _ literal =>
        rw [h] at literal
        cases literal
  · intro hp
    subst hp
    exact .literal h

theorem refers_iff_of_name (href : line.reference? = some (width, token))
    (h : line.takesLiteral = false) :
    Refers t lines before line p ↔ isNumeric token = false ∧
      ((∃ address, t.symbols.get? token = some (.relative address)) ∧
          p = ⟨width, segmentName lines⟩ ∨
        ∃ target, StandsFor (Layout.inner lines) token target ∧
          target ∈ declaredNames before ∧ p = ⟨width, target⟩) := by
  constructor
  · intro hp
    cases hp with
    | literal literal =>
        rw [h] at literal
        cases literal
    | label reference literal numeric symbol =>
        rw [href] at reference
        cases reference
        exact ⟨numeric, .inl ⟨⟨_, symbol⟩, rfl⟩⟩
    | external reference literal numeric stands declared =>
        rw [href] at reference
        cases reference
        exact ⟨numeric, .inr ⟨_, stands, declared, rfl⟩⟩
  · intro hp
    obtain ⟨numeric, ⟨⟨address, symbol⟩, rfl⟩ | ⟨target, stands, declared, rfl⟩⟩ := hp
    · exact .label href h numeric symbol
    · exact .external href h numeric stands declared

end

/-! ## aliases in the table of symbols -/

namespace Scan

variable {s : Scan} {line : Line}

/-- Only `.EQU` and `.EXT` make a label stand for an external name. -/
theorem aliased_of_labelled {operation : Operation} {target : String}
    (h : s.labelled line operation = .ok (.external target)) :
    (operation = .directive .equ ∨ operation = .directive .ext) ∧
      s.aliased line = .ok (.external target) := by
  unfold labelled at h
  split at h
  · exact ⟨.inl rfl, h⟩
  · exact ⟨.inr rfl, h⟩
  · cases h

/-- The external names behind the first lines are declared by lines. -/
theorem mem_declaredNames {origin : UInt16} {operation : Operation} {before : List Line}
    {name : String} (h : (start origin).lines before = .ok s)
    (hop : line.operation? = some operation)
    (hmem : name ∈ (s.declare line operation).externals) (after : List Line) :
    name ∈ declaredNames (before ++ line :: after) := by
  have hs : name ∈ s.externals → name ∈ declaredNames before := (mem_externals_iff h).mp
  unfold declare at hmem
  simp only [declaredNames, List.flatMap_append, List.flatMap_cons, List.mem_append]
  split at hmem
  · next hext =>
    cases Names.mem_declareAll.mp hmem with
    | inl hold => exact .inl (hs hold)
    | inr hnew =>
        rw [Line.declared_of_ext (hext ▸ hop)]
        exact .inr (.inl hnew)
  · exact .inl (hs hmem)

/-- A symbol for an external name has a chain of lines that leads there.  Each line of the
chain looks its operand up among the lines in front of it, so the induction is on how many
there are. -/
theorem standsFor_of_get? {origin : UInt16} {lines : List Line} {name target : String}
    (h : (start origin).lines lines = .ok s)
    (hget : s.symbols.get? name = some (.external target)) (rest : List Line) :
    StandsFor (lines ++ rest) name target := by
  induction hn : lines.length using Nat.strongRecOn generalizing lines rest name s with
  | ind n ih =>
      obtain ⟨before, line, after, s₁, operation, rfl, rfl, hname, hfirst, hscan, hop,
        hlabelled⟩ := exists_first_of_get? h hget
      obtain ⟨hdir, haliased⟩ := aliased_of_labelled hlabelled
      have hdir' : line.operation? = some (.directive .equ) ∨
          line.operation? = some (.directive .ext) := by
        rw [hop]
        exact hdir.imp (congrArg some) (congrArg some)
      obtain ⟨-, value, hvalue⟩ | ⟨hnumeric, hlook⟩ := aliased_ok haliased
      · cases hvalue
      · rw [List.append_assoc, List.cons_append]
        refine .chain rfl hfirst hname hdir' hnumeric ?_
        obtain hget' | ⟨-, hmem, htarget⟩ := hlook
        · rw [declare_eq] at hget'
          refine ih before.length ?_ hscan hget' _ rfl
          rw [← hn, List.length_append, List.length_cons]
          omega
        · cases htarget
          exact .declared (mem_declaredNames hscan hop hmem _)

end Scan

namespace Layout

variable {first : Line} {body : List Line} {last : Line} {t : Layout} {name target : String}

/-- A chain of lines ends at the external name itself, or at what the table of symbols
has. -/
theorem get?_of_standsFor (laid : ofLines (first :: (body ++ [last])) = .ok t)
    (disjoint : ∀ name ∈ t.externals, t.symbols.get? name = none)
    (h : StandsFor body name target) :
    (name ∈ t.externals ∧ target = name) ∨ t.symbols.get? name = some (.external target) := by
  obtain ⟨s, -, hscan, hplace⟩ := ofLines_ok laid
  have hsymbols : t.symbols = s.symbols := by rw [(ofScan_eq_ok.mp hplace).2]
  have hexternals := externals_eq laid
  induction h with
  | declared mem =>
      left
      rw [hexternals, List.mem_eraseDups]
      exact ⟨mem, rfl⟩
  | @chain before after line target split hfirst label operation numeric operand ih =>
      right
      rw [split] at hscan
      obtain ⟨s₁, op, symbol, hbefore, hop, hlabelled, hget⟩ :=
        Scan.defined_of_first hscan hfirst label
      obtain ⟨s₂, hbefore', hrest⟩ := Scan.lines_append_eq_ok.mp hscan
      rw [hbefore] at hbefore'
      cases hbefore'
      have hle : s₁.symbols.Le t.symbols := by
        rw [hsymbols]
        exact Scan.symbols_le_of_lines hrest
      have haliased : (s₁.declare line op).aliased line = .ok symbol := by
        rw [hop] at operation
        obtain h | h := operation
        · cases h
          exact hlabelled
        · cases h
          exact hlabelled
      rw [hsymbols, hget]
      obtain ⟨hyes, -⟩ | ⟨-, hlook⟩ := Scan.aliased_ok haliased
      · rw [numeric] at hyes
        cases hyes
      · obtain hget' | ⟨-, hmem, rfl⟩ := hlook
        · -- the operand is a symbol, so it is not the external name but has it
          rw [Scan.declare_eq] at hget'
          have hgetT := hle _ _ hget'
          obtain ⟨hext, -⟩ | hsymbol := ih
          · rw [disjoint _ hext] at hgetT
            cases hgetT
          · rw [← hgetT]
            exact hsymbol
        · -- the operand is declared, so it is not a symbol
          have hdeclared := Scan.mem_declaredNames hbefore hop hmem after
          rw [← split, ← List.mem_eraseDups, ← hexternals] at hdeclared
          obtain ⟨-, rfl⟩ | hsymbol := ih
          · rfl
          · rw [disjoint _ hdeclared] at hsymbol
            cases hsymbol

/-- What a name refers to, whatever lines are in front of it. -/
def meaning? (t : Layout) (name : String) : Option Target :=
  match t.symbols.get? name with
  | some (.absolute value) => some (.absolute value)
  | some (.relative address) => some (.relative address)
  | some (.external target) => some (.external target)
  | none => if name ∈ t.externals then some (.external name) else none

theorem meaning?_eq_relative_iff {address : UInt16} :
    t.meaning? name = some (.relative address) ↔
      t.symbols.get? name = some (.relative address) := by
  unfold meaning?
  split
  · next h => simp [h]
  · next h => simp [h]
  · next h => simp [h]
  · next h => split <;> simp [h]

/-- A name refers to an external name exactly if a chain of lines leads there. -/
theorem meaning?_eq_external_iff (laid : ofLines (first :: (body ++ [last])) = .ok t)
    (disjoint : ∀ name ∈ t.externals, t.symbols.get? name = none) :
    t.meaning? name = some (.external target) ↔ StandsFor body name target := by
  obtain ⟨s, -, hscan, hplace⟩ := ofLines_ok laid
  have hsymbols : t.symbols = s.symbols := by rw [(ofScan_eq_ok.mp hplace).2]
  constructor
  · intro h
    unfold meaning? at h
    split at h
    · cases h
    · cases h
    · next hget =>
      cases h
      rw [hsymbols] at hget
      have hchain := Scan.standsFor_of_get? hscan hget []
      rw [List.append_nil] at hchain
      exact hchain
    · split at h
      · next hmem =>
        cases h
        rw [externals_eq laid, List.mem_eraseDups] at hmem
        exact .declared hmem
      · cases h
  · intro h
    unfold meaning?
    obtain ⟨hmem, rfl⟩ | hget := get?_of_standsFor laid disjoint h
    · rw [disjoint _ hmem]
      simp [hmem]
    · rw [hget]

end Layout

/-! ## what a step patches -/

namespace Emitter

variable {t : Layout} {e e' : Emitter} {line : Line} {out : Emission} {token : String}
  {target : Target}

/-- What the operand of a line refers to: a literal of a transfer, or any other address. -/
def RefersTo (t : Layout) (e : Emitter) (line : Line) (token : String) (target : Target) : Prop :=
  if line.takesLiteral then literal t line token = .ok target
  else e.resolve t line token = .ok target

/-- An instruction that is read has found what its operand refers to, if it has such an
operand. -/
theorem Reads.reference {op : Opcode} {i : Instruction} {target? : Option Target}
    (h : Reads t e line op i target?) (hop : line.operation? = some (.instruction op)) :
    (line.reference? = none ∧ target? = none) ∨
      ∃ token target, line.reference? = some (.nine, token) ∧ target? = some target ∧
        e.RefersTo t line token target := by
  cases h with
  | branch operands refers page | jump operands refers page =>
      refine .inr ⟨_, _, by rw [Line.reference?, hop, operands], rfl, ?_⟩
      simp only [RefersTo, Line.takesLiteral, hop]
      exact refers
  | transfer operands register refers page =>
      refine .inr ⟨_, _, by rw [Line.reference?, hop, operands], rfl, ?_⟩
      simp only [RefersTo, Line.takesLiteral, hop, operands]
      exact refers
  | _ => exact .inl ⟨by simp [Line.reference?, hop], rfl⟩

/-- A line that refers to an address has found it and patches its word for it; other lines
patch nothing. -/
theorem Step.reference (h : Step t e line out e') :
    (line.reference? = none ∧
        ∀ a w patch, .text a w patch ∈ out.records → patch = none) ∨
      ∃ width token target, line.reference? = some (width, token) ∧
        e.RefersTo t line token target ∧
        ∀ a w patch, .text a w patch ∈ out.records → patch = e.patch? width target := by
  cases h with
  | instruction operation operands bits =>
      obtain ⟨hnone, rfl⟩ | ⟨token, target, href, rfl, hrefers⟩ := operands.reference operation
      · refine .inl ⟨hnone, fun a w patch hmem => ?_⟩
        cases List.mem_singleton.mp hmem
        rfl
      · refine .inr ⟨_, token, target, href, hrefers, fun a w patch hmem => ?_⟩
        cases List.mem_singleton.mp hmem
        rfl
  | fillNumber operation numeric operand =>
      obtain ⟨value, hparse, rfl⟩ := literalWord_ok operand
      have href : line.reference? = some (.sixteen, line.operands) := by
        simp only [Line.reference?, operation]
      refine .inr ⟨_, _, .absolute value, href, ?_, fun a w patch hmem => ?_⟩
      · simp [RefersTo, Line.takesLiteral, operation, resolve, numeric, hparse, Line.orFail, bind,
          Except.bind, pure, Except.pure]
      · cases List.mem_singleton.mp hmem
        simp [patch?]
  | @fillTarget target word operation numeric operand bits =>
      have href : line.reference? = some (.sixteen, line.operands) := by
        simp only [Line.reference?, operation]
      refine .inr ⟨_, _, target, href, ?_, fun a w patch hmem => ?_⟩
      · simp only [RefersTo, Line.takesLiteral, operation]
        exact operand
      · cases List.mem_singleton.mp hmem
        rfl
  | orig operation | «end» operation =>
      refine .inl ⟨by simp [Line.reference?, operation], fun a w patch hmem => ?_⟩
      cases List.mem_singleton.mp hmem
  | ent operation few names =>
      refine .inl ⟨by simp [Line.reference?, operation], fun a w patch hmem => ?_⟩
      obtain ⟨name, offset, heq⟩ := mem_entryRecords names hmem
      cases heq
  | ext operation | equ operation | blkw operation =>
      refine .inl ⟨by simp [Line.reference?, operation], fun a w patch hmem => ?_⟩
      exact absurd hmem List.not_mem_nil
  | strz operation =>
      refine .inl ⟨by simp [Line.reference?, operation], fun a w patch hmem => ?_⟩
      obtain ⟨word, -, heq⟩ := List.mem_map.mp hmem
      cases heq
      rfl

/-- The state in front of a line of a segment: the name of the segment, whether it may be
moved, and the external names of the lines before. -/
structure IsBehind (t : Layout) (segment : String) (before : List Line) (e : Emitter) : Prop where
  segment_eq : e.segment = segment
  relocatable_eq : e.relocatable = (t.origin == 0)
  mem_externals : ∀ name, name ∈ e.externals ↔ name ∈ declaredNames before
  foreign : e.IsForeign t

theorem Step.unopened (h : Step t e line out e')
    (hop : line.operation? ≠ some (.directive .orig)) :
    e'.segment = e.segment ∧ e'.relocatable = e.relocatable := by
  cases h with
  | orig operation => contradiction
  | _ => exact ⟨rfl, rfl⟩

theorem Steps.unopened {lines : List Line} {outs : List Emission} (h : Steps t e lines outs e')
    (hop : ∀ line ∈ lines, line.operation? ≠ some (.directive .orig)) :
    e'.segment = e.segment ∧ e'.relocatable = e.relocatable := by
  induction h with
  | nil => exact ⟨rfl, rfl⟩
  | cons head tail ih =>
      obtain ⟨hsegment, hrelocatable⟩ := head.unopened (hop _ List.mem_cons_self)
      rw [← hsegment, ← hrelocatable]
      exact ih fun other hmem => hop other (List.mem_cons_of_mem _ hmem)

/-- Emitting the lines in front of a line leads to such a state. -/
theorem Steps.isBehind {first : Line} {before : List Line} {outs : List Emission}
    (h : Steps t ((start t).opened first t.origin) before outs e)
    (inner : ∀ line ∈ before, line.operation? ≠ some (.directive .orig)) :
    e.IsBehind t (Text.alignLeft 6 first.label) before := by
  obtain ⟨hsegment, hrelocatable⟩ := h.unopened inner
  refine ⟨hsegment, hrelocatable, fun name => ?_, h.foreign fun _ hmem => ?_⟩
  · rw [h.externals, Names.mem_declareAll]
    exact or_iff_right List.not_mem_nil
  · exact absurd hmem List.not_mem_nil

/-- Numerals refer to no address of the segment. -/
theorem exists_absolute_of_numeric (numeric : isNumeric token = true)
    (h : e.resolve t line token = .ok target) : ∃ value, target = .absolute value := by
  rw [resolve, if_pos numeric, bind_eq_ok] at h
  obtain ⟨value, -, h⟩ := h
  exact ⟨value, (pure_eq_ok.mp h).symm⟩

/-- A name that an operand resolves to has its meaning in the layout. -/
theorem IsBehind.meaning? {segment : String} {before : List Line}
    (h : e.IsBehind t segment before) (hsub : ∀ name ∈ declaredNames before, name ∈ t.externals)
    (numeric : isNumeric token = false) (hresolve : e.resolve t line token = .ok target) :
    t.meaning? token = some target := by
  unfold resolve at hresolve
  rw [if_neg (by simp [numeric])] at hresolve
  unfold Layout.meaning?
  split at hresolve
  · next hext =>
    cases hresolve
    have hnone : t.symbols.get? token = none := by
      simpa [Table.contains] using h.foreign token hext
    rw [hnone]
    simp [hsub token ((h.mem_externals token).mp hext)]
  · split at hresolve
    · simp at hresolve
    · next name hget =>
      split at hresolve
      · cases hresolve
        rw [hget]
      · simp at hresolve
    · next hget =>
      cases hresolve
      rw [hget]
    · next hget =>
      cases hresolve
      rw [hget]

end Emitter

/-! ## segments -/

theorem Layout.patch_eq_none_of_pool {t : Layout} {line : Line} {pool : Emission} {a w : UInt16}
    {patch : Option Patch} (h : t.pool line = .ok pool)
    (hmem : .text a w patch ∈ pool.records) : patch = none := by
  obtain ⟨words, -, rfl⟩ := Layout.pool_eq_ok.mp h
  obtain ⟨word, -, heq⟩ := List.mem_map.mp hmem
  cases heq
  rfl

namespace Assembled

variable {first : Line} {body : List Line} {last : Line} {t : Layout} {s : Scan}
  {outs : List Emission} {e : Emitter} {pool : Emission} {address : UInt16}

/-- The words written for a line are those of its output, or they are in the pool. -/
theorem text_of_mem_writes (h : Assembled first body last t s outs e pool address) {line : Line}
    {a w : UInt16} {patch : Option Patch}
    (hmem : ⟨line, .record (.text a w patch)⟩ ∈ (attempt (first :: (body ++ [last]))).writes) :
    (∃ out, (line, out) ∈ body.zip outs ∧ .text a w patch ∈ out.records) ∨
      line = last ∧ .text a w patch ∈ pool.records := by
  rw [h.written, List.mem_append, Run.mem_lineWrites] at hmem
  obtain ⟨out, hout, hmem⟩ | hmem := hmem
  · cases hout with
    | head => simp [Emitter.bareOutput] at hmem
    | tail _ hout => exact .inl ⟨out, hout, hmem⟩
  · right
    simpa [Run.lastWrites, List.mem_append, Run.mem_recordWrites, Run.not_mem_rowWrites,
      Emitter.bareOutput] using hmem

/-- Every line of the body is emitted in the state behind the lines in front of it. -/
theorem exists_step (h : Assembled first body last t s outs e pool address)
    (inner : ∀ line ∈ body, line.operation? ≠ some (.directive .orig))
    {before after : List Line} {line : Line} (split : body = before ++ line :: after) :
    ∃ out e₁ e₂, e₁.IsBehind t (Text.alignLeft 6 first.label) before ∧
      Emitter.Step t e₁ line out e₂ := by
  obtain ⟨e₁, outs₁, outs₂, -, hbefore, hrest⟩ := (split ▸ h.emitted).of_append
  have hbehind := hbefore.isBehind fun other hmem => inner other (by simp [split, hmem])
  cases hrest with
  | cons step tail => exact ⟨_, e₁, _, hbehind, step⟩

/-- Every output of a line is that of a step in such a state. -/
theorem exists_step_of_mem_zip (h : Assembled first body last t s outs e pool address)
    (inner : ∀ line ∈ body, line.operation? ≠ some (.directive .orig)) {line : Line}
    {out : Emission} (hout : (line, out) ∈ body.zip outs) :
    ∃ before after e₁ e₂, body = before ++ line :: after ∧
      e₁.IsBehind t (Text.alignLeft 6 first.label) before ∧ Emitter.Step t e₁ line out e₂ := by
  obtain ⟨before, after, outs₁, e₁, e₂, split, hbefore, step⟩ := h.emitted.exists_split hout
  have hbehind := hbefore.isBehind fun other hmem => inner other (by simp [split, hmem])
  exact ⟨before, after, e₁, e₂, split, hbehind, step⟩

theorem not_symbol (h : Assembled first body last t s outs e pool address)
    (inner : ∀ line ∈ body, line.operation? ≠ some (.directive .orig)) {name : String}
    (hmem : name ∈ t.externals) : t.symbols.get? name = none := by
  have hend := h.emitted.isBehind inner
  rw [Layout.externals_eq h.laid, List.mem_eraseDups] at hmem
  have hforeign := hend.foreign name ((hend.mem_externals name).mpr hmem)
  simpa [Table.contains] using hforeign

/-- What a line of the body refers to, in the state that emission is in there. -/
theorem meaning? (h : Assembled first body last t s outs e pool address) {before after : List Line}
    {line : Line} {token : String} {target : Target} {segment : String} {e₁ : Emitter}
    (split : body = before ++ line :: after) (behind : e₁.IsBehind t segment before)
    (numeric : isNumeric token = false) (hresolve : e₁.resolve t line token = .ok target) :
    t.meaning? token = some target := by
  refine behind.meaning? (fun name hmem => ?_) numeric hresolve
  rw [Layout.externals_eq h.laid, List.mem_eraseDups, split]
  simp only [declaredNames, List.flatMap_append, List.mem_append]
  exact .inl hmem

variable {before after : List Line} {line : Line} {out : Emission} {e₁ e₂ : Emitter} {p : Patch}

/-- Words of a segment with a load address are not patched. -/
theorem patch_eq_none (h : Assembled first body last t s outs e pool address)
    (inner : ∀ line ∈ body, line.operation? ≠ some (.directive .orig)) (base : t.origin ≠ 0)
    {a w : UInt16} {patch : Option Patch}
    (hmem : ⟨line, .record (.text a w patch)⟩ ∈ (attempt (first :: (body ++ [last]))).writes) :
    patch = none := by
  obtain ⟨out, hout, hmem⟩ | ⟨-, hmem⟩ := h.text_of_mem_writes hmem
  · obtain ⟨before, after, e₁, e₂, -, hbehind, step⟩ := h.exists_step_of_mem_zip inner hout
    have hfixed : e₁.relocatable = false := by
      rw [hbehind.relocatable_eq]
      simpa using base
    obtain ⟨-, hpatch⟩ | ⟨width, token, target, -, -, hpatch⟩ := step.reference
    · exact hpatch a w patch hmem
    · rw [hpatch a w patch hmem]
      simp [Emitter.patch?, hfixed]
  · exact Layout.patch_eq_none_of_pool h.pooled hmem

/-- A word is patched exactly as its line refers to something. -/
theorem patch_iff (h : Assembled first body last t s outs e pool address)
    (inner : ∀ line ∈ body, line.operation? ≠ some (.directive .orig)) (zero : t.origin = 0)
    (split : body = before ++ line :: after)
    (behind : e₁.IsBehind t (Text.alignLeft 6 first.label) before)
    (step : Emitter.Step t e₁ line out e₂) {a w : UInt16} {patch : Option Patch}
    (hmem : .text a w patch ∈ out.records) :
    patch = some p ↔ Refers t (first :: (body ++ [last])) before line p := by
  have hrelocatable : e₁.relocatable = true := by
    rw [behind.relocatable_eq, zero]
    rfl
  have hsegment : segmentName (first :: (body ++ [last])) = e₁.segment := behind.segment_eq.symm
  have hexternal : ∀ {name target}, t.meaning? name = some (.external target) ↔
      StandsFor body name target :=
    Layout.meaning?_eq_external_iff h.laid fun _ => h.not_symbol inner
  obtain ⟨hnone, hpatch⟩ | ⟨width, token, target, href, hrefers, hpatch⟩ := step.reference
  · rw [hpatch a w patch hmem]
    exact iff_of_false (fun heq => nomatch heq) (not_refers hnone)
  · rw [hpatch a w patch hmem]
    simp only [Emitter.patch?, hrelocatable, if_true]
    by_cases hliteral : line.takesLiteral = true
    · obtain ⟨token', href'⟩ := Line.exists_reference_of_takesLiteral hliteral
      rw [href] at href'
      cases href'
      rw [Emitter.RefersTo, if_pos hliteral] at hrefers
      obtain ⟨address, -, rfl⟩ := Emitter.literal_ok hrefers
      rw [refers_iff_of_literal hliteral, hsegment, Option.some.injEq]
      exact eq_comm
    · rw [Emitter.RefersTo, if_neg hliteral] at hrefers
      rw [refers_iff_of_name href (Bool.eq_false_iff.mpr hliteral), hsegment,
        Layout.inner_segment]
      by_cases hnumeric : isNumeric token = true
      · obtain ⟨value, rfl⟩ := Emitter.exists_absolute_of_numeric hnumeric hrefers
        simp [hnumeric]
      · have hnumeric : isNumeric token = false := Bool.eq_false_iff.mpr hnumeric
        have hmeaning := h.meaning? split behind hnumeric hrefers
        simp only [← hexternal, ← Layout.meaning?_eq_relative_iff, hmeaning, hnumeric]
        cases target with
        | absolute value => simp
        | relative address => simp [eq_comm]
        | external name =>
            have hdeclared : name ∈ declaredNames before :=
              (behind.mem_externals name).mp (Emitter.mem_externals_of_resolve hrefers)
            simp [hdeclared, eq_comm]

/-- The lines in front of another line like it are no less a reason to patch. -/
theorem refers_of_step (h : Assembled first body last t s outs e pool address)
    (inner : ∀ line ∈ body, line.operation? ≠ some (.directive .orig)) {others : List Line}
    (split : body = before ++ line :: after)
    (behind : e₁.IsBehind t (Text.alignLeft 6 first.label) before)
    (step : Emitter.Step t e₁ line out e₂)
    (hp : Refers t (first :: (body ++ [last])) others line p) :
    Refers t (first :: (body ++ [last])) before line p := by
  cases hp with
  | literal literal => exact .literal literal
  | label reference literal numeric symbol => exact .label reference literal numeric symbol
  | @external width token target reference literal numeric stands declared =>
      refine .external reference literal numeric stands ?_
      obtain ⟨hnone, -⟩ | ⟨width', token', target', href, hrefers, -⟩ := step.reference
      · rw [hnone] at reference
        cases reference
      · rw [reference] at href
        cases href
        rw [Emitter.RefersTo, literal] at hrefers
        have hmeaning := h.meaning? split behind numeric hrefers
        rw [Layout.inner_segment] at stands
        rw [(Layout.meaning?_eq_external_iff h.laid fun _ => h.not_symbol inner).mpr stands]
          at hmeaning
        cases hmeaning
        exact (behind.mem_externals target).mp (Emitter.mem_externals_of_resolve hrefers)

end Assembled

/-- Words of a segment with a load address are not patched.  In a movable segment, a word is
patched exactly as its line refers to something: a transfer to a literal, or a branch, a
jump, a transfer or `.FILL` to a name that is an address in the segment, an external name
declared in front of the line, or an alias of one.  Literals and addresses are patched
against the segment, and however many aliases lead to an external name, against that name;
`.FILL` is patched in all bits, the others in nine. -/
theorem patches_follow_references {lines : List Line} {t : Layout} (segment : IsSegment lines)
    (ok : (attempt lines).outcome = .ok t) :
    (t.origin ≠ 0 → ∀ a w patch, .text a w patch ∈ (attempt lines).records → patch = none) ∧
    (t.origin = 0 → ∀ line a w patch,
      ⟨line, .record (.text a w patch)⟩ ∈ (attempt lines).writes →
        (line ∉ Layout.inner lines → patch = none) ∧
        ∀ before after, Layout.inner lines = before ++ line :: after →
          ∀ p, patch = some p ↔ Refers t lines before line p) := by
  obtain ⟨first, body, last, orig, inner, close⟩ := segment
  obtain ⟨s, outs, e, pool, address, h⟩ := assembled_of_attempt orig close ok
  constructor
  · intro base a w patch hrecord
    obtain ⟨⟨line, item⟩, hwrite, hitem⟩ := List.mem_filterMap.mp hrecord
    cases item with
    | row row => cases hitem
    | record r =>
        cases hitem
        exact h.patch_eq_none inner base hwrite
  · intro zero line a w patch hwrite
    rw [Layout.inner_segment]
    obtain ⟨out, hout, hmem⟩ | ⟨rfl, hmem⟩ := h.text_of_mem_writes hwrite
    · refine ⟨fun hline => absurd (List.of_mem_zip hout).1 hline, ?_⟩
      intro before after split p
      obtain ⟨_, e₁, e₂, behind, step⟩ := h.exists_step inner split
      obtain ⟨before', after', e₁', e₂', split', behind', step'⟩ :=
        h.exists_step_of_mem_zip inner hout
      rw [h.patch_iff inner zero split' behind' step' hmem]
      constructor
      · exact h.refers_of_step inner split behind step
      · exact h.refers_of_step inner split' behind' step'
    · have hnone := Layout.patch_eq_none_of_pool h.pooled hmem
      have href : line.reference? = none := by simp [Line.reference?, close]
      refine ⟨fun _ => hnone, ?_⟩
      intro before after _ p
      rw [hnone]
      exact iff_of_false (fun heq => nomatch heq) (not_refers href)

/-- A movable segment with an alias of an alias of an external name. -/
def aliasChain : List Line :=
  [⟨"PROG", ".ORIG", "", 1, .nowhere⟩,
   ⟨"OUT", ".EXT", "PUTS", 2, .nowhere⟩,
   ⟨"PRINT", ".EQU", "OUT", 3, .nowhere⟩,
   ⟨"", "LD", "R1,=#5", 4, .nowhere⟩,
   ⟨"", ".FILL", "PRINT", 5, .nowhere⟩,
   ⟨"", ".END", "", 6, .nowhere⟩]

theorem patches_follow_references_aliasChain :
    ⟨⟨"", ".FILL", "PRINT", 5, .nowhere⟩, .record (.text 1 0 (some ⟨.sixteen, "PUTS"⟩))⟩ ∈
        (attempt aliasChain).writes ∧
      ∀ a w patch, ⟨⟨"", ".FILL", "PRINT", 5, .nowhere⟩, .record (.text a w patch)⟩ ∈
        (attempt aliasChain).writes → patch = some ⟨.sixteen, "PUTS"⟩ := by
  have segment : IsSegment aliasChain := .intro _ [_, _, _, _] _ rfl (by decide) rfl
  obtain ⟨t, ok, zero⟩ : ∃ t, (attempt aliasChain).outcome = .ok t ∧ t.origin = 0 :=
    ⟨_, rfl, rfl⟩
  refine ⟨by decide, fun a w patch hwrite => ?_⟩
  have hrefers := ((patches_follow_references segment ok).2 zero _ a w patch hwrite).2
    [⟨"OUT", ".EXT", "PUTS", 2, .nowhere⟩, ⟨"PRINT", ".EQU", "OUT", 3, .nowhere⟩,
      ⟨"", "LD", "R1,=#5", 4, .nowhere⟩] [] rfl
  have hputs : StandsFor (Layout.inner aliasChain) "PUTS" "PUTS" := .declared (by decide)
  have hout : StandsFor (Layout.inner aliasChain) "OUT" "PUTS" :=
    @StandsFor.chain _ [] _ ⟨"OUT", ".EXT", "PUTS", 2, .nowhere⟩ _ rfl (by decide) (by decide)
      (.inr rfl) rfl hputs
  have hprint : StandsFor (Layout.inner aliasChain) "PRINT" "PUTS" :=
    @StandsFor.chain _ [_] _ ⟨"PRINT", ".EQU", "OUT", 3, .nowhere⟩ _ rfl (by decide) (by decide)
      (.inl rfl) rfl hout
  exact (hrefers ⟨.sixteen, "PUTS"⟩).mpr (.external rfl rfl rfl hprint (by decide))

end PageAsm
