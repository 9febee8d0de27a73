import PageAsm.Proofs.Aliases
import PageAsm.Proofs.LabelTable

/-!
# PageAsm.Proofs.ForwardReference

Where the name in an `.EQU` operand has to be known.  It is looked up twice:

```
            looked up among                        if the line
scan        labels and external names above        defines its label
emission    all labels, external names above       in any case
```

So a line that defines a label does not look ahead.  A line without a label, or
with one that is defined above, is checked by emission only, against the finished
table, and may have the label of a later line for its operand.
-/

namespace PageAsm

open Outcome

/-- The name is a label or an external name of these lines. -/
def Introduces (lines : List Line) (name : String) : Prop :=
  name ∈ labels lines ∨ name ∈ declaredNames lines

instance (lines : List Line) (name : String) : Decidable (Introduces lines name) :=
  inferInstanceAs (Decidable (_ ∨ _))

/-! ## the scan -/

/-- The operand of an `.EQU` line that defines its label is introduced above. -/
theorem Scan.introduces_of_line {origin : UInt16} {before : List Line} {line : Line}
    {s s' : Scan} (hscan : (start origin).lines before = .ok s) (hline : s.line line = .ok s')
    (equ : line.operation? = some (.directive .equ)) (name : isNumeric line.operands = false)
    (label : line.label ≠ "") (fresh : line.label ∉ labels before) :
    Introduces before line.operands := by
  have hnew : s.symbols.get? line.label = none := by
    rw [mem_labels_iff hscan, ← Option.isSome_iff_exists, Option.not_isSome_iff_eq_none] at fresh
    exact fresh
  obtain ⟨operation, symbol, hop, hlabelled, -⟩ := get?_line hline label hnew
  rw [equ, Option.some.injEq] at hop
  subst hop
  obtain ⟨hnumeric, -⟩ | ⟨-, hcopied | ⟨-, hexternal, -⟩⟩ := aliased_ok hlabelled
  · simp [name] at hnumeric
  · exact .inl ((mem_labels_iff hscan).mpr ⟨symbol, hcopied⟩)
  · exact .inr ((mem_externals_iff hscan).mp hexternal)

/-! ## emission -/

namespace Emitter

variable {t : Layout} {e : Emitter} {line : Line} {name : String}

/-- A name refers to something if it is external, or a symbol that is not for a name still
to be declared. -/
theorem exists_target_iff :
    (∃ target, e.target? t name = some target) ↔
      name ∈ e.externals ∨ ∃ symbol, t.symbols.get? name = some symbol ∧
        ∀ target, symbol = .external target → target ∈ e.externals := by
  unfold target?
  by_cases hext : name ∈ e.externals
  · simp [hext]
  · cases hget : t.symbols.get? name with
    | none => simp [hext]
    | some symbol => cases symbol <;> simp [hext]

/-- `.EQU` checks that the name in its operand refers to something, and does nothing. -/
theorem step_equ_iff (equ : line.operation? = some (.directive .equ))
    (hname : isNumeric line.operands = false) :
    (∃ out, e.step t line = (.ok out, e)) ↔ ∃ target, e.target? t line.operands = some target := by
  have hresolve : ∀ target, e.resolve t line line.operands = .ok target ↔
      e.target? t line.operands = some target := by
    intro target
    rw [resolve_eq_ok, if_neg (by simp [hname])]
  simp only [step, equ, emitEqu, hname, Bool.false_eq_true, if_false, Prod.mk.injEq, and_true,
    bind_eq_ok, pure_eq_ok, hresolve]
  grind

end Emitter

/-! ## both together -/

/-- The name in an `.EQU` operand.  If the line defines its label, the name is a label or an
external name from above.  Emission asks for less: it takes an external name from above, or
any symbol that does not stand for an external name still to be declared.  In lines that are
assembled, the name is therefore from above, unless the line defines no label; then it may
label a later line. -/
theorem new_names_look_back {lines : List Line} {t : Layout} (framed : IsFramed lines)
    (laid : Layout.ofLines lines = .ok t) {before after : List Line} {line : Line}
    (inner : Layout.inner lines = before ++ line :: after)
    (equ : line.operation? = some (.directive .equ)) (name : isNumeric line.operands = false) :
    (line.label ≠ "" → line.label ∉ labels before → Introduces before line.operands) ∧
    (∀ outs e,
      Emitter.emitLines t (Emitter.start t) (lines.take (before.length + 1)) = .ok (outs, e) →
      ((∃ out, e.step t line = (.ok out, e)) ↔ line.operands ∈ declaredNames before ∨
        ∃ symbol, t.symbols.get? line.operands = some symbol ∧
          ∀ target, symbol = .external target → target ∈ declaredNames before)) ∧
    ((attempt lines).outcome = .ok t →
      Introduces before line.operands ∨
        (line.label = "" ∨ line.label ∈ labels before) ∧ line.operands ∈ labels after) := by
  obtain ⟨first, body, last, orig, close⟩ := framed
  rw [Layout.inner_segment] at inner
  subst inner
  obtain ⟨s, -, hscan, hplace⟩ := Layout.ofLines_ok laid
  obtain ⟨s₁, hbefore, hrest⟩ := Scan.lines_append_eq_ok.mp hscan
  obtain ⟨s₂, hline, -⟩ := Scan.lines_cons_eq_ok.mp hrest
  have hscanned := Scan.introduces_of_line hbefore hline equ name
  have hemitted : ∀ outs e, Emitter.Steps t (Emitter.start t) (first :: before) outs e →
      ((∃ out, e.step t line = (.ok out, e)) ↔ line.operands ∈ declaredNames before ∨
        ∃ symbol, t.symbols.get? line.operands = some symbol ∧
          ∀ target, symbol = .external target → target ∈ declaredNames before) := by
    intro outs e hsteps
    simp only [Emitter.step_equ_iff equ name, Emitter.exists_target_iff,
      hsteps.mem_externals_iff orig]
  refine ⟨hscanned, fun outs e hemit => ?_, fun ok => ?_⟩
  · have htake : (first :: (before ++ line :: after ++ [last])).take (before.length + 1) =
        first :: before := by simp
    rw [htake] at hemit
    exact hemitted outs e (Emitter.emitLines_ok_iff.mp hemit)
  · by_cases hnew : line.label ≠ "" ∧ line.label ∉ labels before
    · exact .inl (hscanned hnew.1 hnew.2)
    · have hold : line.label = "" ∨ line.label ∈ labels before := by
        simpa [Classical.or_iff_not_imp_left] using hnew
      obtain ⟨outs, e', hsteps⟩ := Run.steps_of_ok (run_of_attempt ok).2
      rw [List.append_assoc, ← List.cons_append] at hsteps
      obtain ⟨e, outs₁, outs₂, -, hfront, htail⟩ := hsteps.of_append
      cases htail with
      | cons head tail =>
          have hstep := Emitter.step_ok_iff.mpr head
          rw [(head.of_equ equ).2] at hstep
          obtain hdeclared | ⟨symbol, hget, -⟩ := (hemitted outs₁ e hfront).mp ⟨_, hstep⟩
          · exact .inl (.inr hdeclared)
          · rw [(Layout.ofScan_eq_ok.mp hplace).2] at hget
            have hlabel := (Scan.mem_labels_iff hscan).mpr ⟨symbol, hget⟩
            rw [labels_append, List.mem_append, mem_labels_cons] at hlabel
            obtain habove | ⟨hown, hne⟩ | hafter := hlabel
            · exact .inl (.inl habove)
            · -- its own label, which is not blank and therefore from above
              rw [hown] at hne ⊢
              exact .inl (.inl (hold.resolve_left hne))
            · exact .inr ⟨hold, hafter⟩

/-- A segment with an `.EQU` line that has no label, for a name from below. -/
def equWithoutLabel : List Line :=
  [⟨"PROG", ".ORIG", "x3000", 1, .nowhere⟩,
   ⟨"", ".EQU", "B", 2, .nowhere⟩,
   ⟨"B", "RET", "", 3, .nowhere⟩,
   ⟨"", ".END", "", 4, .nowhere⟩]

/-- It is assembled, although the name is neither a label nor an external name from above. -/
theorem assembled_equWithoutLabel :
    ∃ a before line after, assemble equWithoutLabel = .ok a ∧ IsFramed equWithoutLabel ∧
      Layout.inner equWithoutLabel = before ++ line :: after ∧
      line.operation? = some (.directive .equ) ∧ isNumeric line.operands = false ∧
      ¬ Introduces before line.operands :=
  ⟨_, [], ⟨"", ".EQU", "B", 2, .nowhere⟩, [⟨"B", "RET", "", 3, .nowhere⟩], rfl,
    .intro _ [_, _] _ rfl rfl, rfl, rfl, rfl, by decide⟩

theorem new_names_look_back_equWithoutLabel :
    ∃ t outs e out, (attempt equWithoutLabel).outcome = .ok t ∧
      Emitter.emitLines t (Emitter.start t) (equWithoutLabel.take 1) = .ok (outs, e) ∧
      e.step t ⟨"", ".EQU", "B", 2, .nowhere⟩ = (.ok out, e) ∧
      "B" ∈ labels [⟨"B", "RET", "", 3, .nowhere⟩] := by
  obtain ⟨t, outs, e, laid, ok, hemit, hget⟩ : ∃ t outs e,
      Layout.ofLines equWithoutLabel = .ok t ∧ (attempt equWithoutLabel).outcome = .ok t ∧
      Emitter.emitLines t (Emitter.start t) (equWithoutLabel.take 1) = .ok (outs, e) ∧
      t.symbols.get? "B" = some (.relative 0x3000) := ⟨_, _, _, rfl, rfl, rfl, rfl⟩
  have inner : Layout.inner equWithoutLabel =
      [] ++ ⟨"", ".EQU", "B", 2, .nowhere⟩ :: [⟨"B", "RET", "", 3, .nowhere⟩] := rfl
  obtain ⟨-, hstep, hassembled⟩ :=
    new_names_look_back (.intro _ [_, _] _ rfl rfl) laid inner rfl rfl
  obtain ⟨out, hout⟩ := (hstep outs e hemit).mpr (.inr ⟨_, hget, fun _ h => nomatch h⟩)
  exact ⟨t, outs, e, out, ok, hemit, hout, ((hassembled ok).resolve_left (by decide)).2⟩

end PageAsm
