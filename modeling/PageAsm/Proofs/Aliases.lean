import Mathlib.Data.List.Forall2
import PageAsm.Proofs.Operands

/-!
# PageAsm.Proofs.Aliases

An alias and the name it is made from can be written for each other.  Names in
operands are read for what they refer to in the state of the emission:

```
external name, declared so far                  the name itself
symbol of a number or a place                   the number or the place
symbol of an external name, declared so far     that name
```

Where `.EQU` has copied a symbol, alias and operand have the same entry in the
table.  Where it has made a symbol for an external name, only the alias has one;
its operand is declared by then, and both refer to this name
(`Layout.alike_of_equ`).  For all other tokens nothing changes, so that the two
lines are read in the same way, operand by operand (`Reads.alike`).
-/

namespace PageAsm

open Outcome

/-- A name that is taken for nothing else than one name. -/
structure IsPlain (name : String) : Prop where
  nonempty : name ≠ ""
  numeric : isNumeric name = false
  literal : isLiteral name = false
  register : Register.isToken name = false
  comma : ',' ∉ name.toList

/-! ## what is read does not depend on where it stands -/

section

variable {line line' : Line} {token token' : String} {word : UInt16}

theorem Target.address_congr {target : Target} (h : target.address line token = .ok word) :
    target.address line' token' = .ok word := by
  cases target with
  | absolute value => exact Line.orFail_eq_ok.mpr (Line.orFail_eq_ok.mp h)
  | relative address => exact h
  | external name => exact h

theorem Target.word_congr {target : Target} (h : target.word line token = .ok word) :
    target.word line' token' = .ok word := by
  cases target with
  | absolute value => exact Line.orFail_eq_ok.mpr (Line.orFail_eq_ok.mp h)
  | relative address => exact h
  | external name => exact h

theorem Line.blockCount_congr {value : Numeral} (h : line.blockCount value = .ok word) :
    line'.blockCount value = .ok word := by
  unfold blockCount at h ⊢
  split at h
  · split at h
    · simp at h
    · next hne =>
      rw [if_neg hne]
      exact h
  · simp at h

end

namespace Emitter

variable {t : Layout} {e e' : Emitter} {line line' : Line} {x y token : String} {target : Target}

/-- What a name refers to, as far as names are declared. -/
def target? (t : Layout) (e : Emitter) (name : String) : Option Target :=
  if name ∈ e.externals then some (.external name)
  else
    match t.symbols.get? name with
    | none => none
    | some (.absolute value) => some (.absolute value)
    | some (.relative address) => some (.relative address)
    | some (.external other) => if other ∈ e.externals then some (.external other) else none

/-- An address operand is a numeral, or a name for what it refers to. -/
theorem resolve_eq_ok :
    e.resolve t line token = .ok target ↔
      if isNumeric token then ∃ n, Numeral.parse token = .ok n ∧ .absolute n = target
      else e.target? t token = some target := by
  unfold resolve
  split
  · simp only [bind_eq_ok, Line.orFail_eq_ok, pure_eq_ok]
  · unfold target?
    split
    · rw [Except.ok.injEq, Option.some.injEq]
    · split
      · next hget => simp [hget]
      · next other hget =>
        simp only [hget]
        split <;> simp
      · next hget => simp [hget]
      · next hget => simp [hget]

/-- A name holds a number if it refers to one. -/
theorem holdsNumber_iff {n : Numeral} (numeric : isNumeric token = false) :
    e.HoldsNumber t token n ↔ e.target? t token = some (.absolute n) := by
  unfold target?
  constructor
  · intro h
    cases h with
    | numeral hnumeric => simp [numeric] at hnumeric
    | symbol _ internal defined => rw [if_neg internal, defined]
  · intro h
    split at h
    · cases h
    · next internal =>
      split at h
      · cases h
      · next defined =>
        cases h
        exact .symbol numeric internal defined
      · cases h
      · split at h
        · cases h
        · cases h

theorem pageOffset_congr {offset : UInt16} (h : e.pageOffset line x target = .ok offset) :
    e.pageOffset line' y target = .ok offset := by
  obtain ⟨address, haddress, hoffset⟩ := pageOffset_eq_ok.mp h
  exact pageOffset_eq_ok.mpr ⟨address, Target.address_congr haddress, hoffset⟩

/-! ## operands -/

/-- Operands that are read in the same way: they are equal, or names that refer to the same. -/
inductive Alike (t : Layout) (e : Emitter) : String → String → Prop where
  | same {token : String} : Alike t e token token
  | renamed {x y : String} (left : IsPlain x) (right : IsPlain y)
      (target : e.target? t x = e.target? t y) : Alike t e x y

namespace Alike

theorem symm (h : e.Alike t x y) : e.Alike t y x := by
  cases h with
  | same => exact .same
  | renamed left right target => exact .renamed right left target.symm

theorem blank_iff (h : e.Alike t x y) : x = "" ↔ y = "" := by
  cases h with
  | same => exact Iff.rfl
  | renamed left right => exact iff_of_false left.nonempty right.nonempty

theorem isToken_eq (h : e.Alike t x y) : Register.isToken x = Register.isToken y := by
  cases h with
  | same => rfl
  | renamed left right => rw [left.register, right.register]

theorem isNumeric_eq (h : e.Alike t x y) : isNumeric x = isNumeric y := by
  cases h with
  | same => rfl
  | renamed left right => rw [left.numeric, right.numeric]

theorem eq_of_numeric (h : e.Alike t x y) (numeric : isNumeric x = true) : x = y := by
  cases h with
  | same => rfl
  | renamed left => simp [left.numeric] at numeric

theorem holdsNumber {n : Numeral} (h : e.Alike t x y) (hx : e.HoldsNumber t x n) :
    e.HoldsNumber t y n := by
  cases h with
  | same => exact hx
  | renamed left right target =>
      rw [holdsNumber_iff left.numeric, target] at hx
      exact (holdsNumber_iff right.numeric).mpr hx

theorem value {field : Field} {bits : UInt16} (h : e.Alike t x y)
    (hx : e.value t line x field = .ok bits) : e.value t line' y field = .ok bits := by
  obtain ⟨n, hn, hfit⟩ := value_eq_ok.mp hx
  exact value_eq_ok.mpr ⟨n, h.holdsNumber hn, hfit⟩

theorem register {r : Register} (h : e.Alike t x y) (hx : e.register t line x = .ok r) :
    e.register t line' y = .ok r := by
  rw [register_eq_ok] at hx ⊢
  cases hx with
  | token spelled number =>
      have htoken := Register.isToken_of_parse (Register.parse_eq_ok.mpr ⟨_, spelled, number⟩)
      cases h with
      | same => exact .token spelled number
      | renamed left => simp [left.register] at htoken
  | symbol plain numeric held number =>
      exact .symbol (h.isToken_eq ▸ plain) (h.isNumeric_eq ▸ numeric) (h.holdsNumber held) number

theorem resolve (h : e.Alike t x y) (hx : e.resolve t line x = .ok target) :
    e.resolve t line' y = .ok target := by
  rw [resolve_eq_ok] at hx ⊢
  cases h with
  | same => exact hx
  | renamed left right htarget =>
      simpa [left.numeric, right.numeric, htarget] using hx

theorem addresses (h : e.Alike t x y) (hx : e.Addresses t line x target) :
    e.Addresses t line' y target := by
  unfold Addresses at hx ⊢
  cases h with
  | same =>
      split at hx
      · next literal =>
        rw [if_pos literal]
        exact literal_eq_ok.mpr (literal_eq_ok.mp hx)
      · next literal =>
        rw [if_neg literal]
        exact Alike.same.resolve hx
  | renamed left right htarget =>
      rw [left.literal] at hx
      rw [right.literal]
      exact (Alike.renamed left right htarget).resolve hx

end Alike

/-- Operands that are alike make the same instruction. -/
theorem Reads.alike {op : Opcode} {i : Instruction} {target? : Option Target}
    (h : Reads t e line op i target?)
    (hoperands : List.Forall₂ (e.Alike t) line.operandList line'.operandList) :
    Reads t e line' op i target? := by
  generalize hlist : line'.operandList = operands' at hoperands
  cases h with
  | arithRegister operands destination first token second =>
      rw [operands] at hoperands
      obtain _ | ⟨h₁, _ | ⟨h₂, _ | ⟨h₃, _ | _⟩⟩⟩ := hoperands
      exact .arithRegister hlist (h₁.register destination) (h₂.register first)
        (h₃.isToken_eq ▸ token) (h₃.register second)
  | arithImmediate operands destination first token second =>
      rw [operands] at hoperands
      obtain _ | ⟨h₁, _ | ⟨h₂, _ | ⟨h₃, _ | _⟩⟩⟩ := hoperands
      exact .arithImmediate hlist (h₁.register destination) (h₂.register first)
        (h₃.isToken_eq ▸ token) (h₃.value second)
  | complement operands destination source =>
      rw [operands] at hoperands
      obtain _ | ⟨h₁, _ | ⟨h₂, _ | _⟩⟩ := hoperands
      exact .complement hlist (h₁.register destination) (h₂.register source)
  | branch operands refers page =>
      rw [operands] at hoperands
      obtain _ | ⟨h₁, _ | _⟩ := hoperands
      exact .branch hlist (h₁.resolve refers) (pageOffset_congr page)
  | jump operands refers page =>
      rw [operands] at hoperands
      obtain _ | ⟨h₁, _ | _⟩ := hoperands
      exact .jump hlist (h₁.resolve refers) (pageOffset_congr page)
  | jumpVia operands register value =>
      rw [operands] at hoperands
      obtain _ | ⟨h₁, _ | ⟨h₂, _ | _⟩⟩ := hoperands
      exact .jumpVia hlist (h₁.register register) (h₂.value value)
  | transfer operands register refers page =>
      rw [operands] at hoperands
      obtain _ | ⟨h₁, _ | ⟨h₂, _ | _⟩⟩ := hoperands
      exact .transfer hlist (h₁.register register) (h₂.addresses refers) (pageOffset_congr page)
  | indexed operands register via value =>
      rw [operands] at hoperands
      obtain _ | ⟨h₁, _ | ⟨h₂, _ | ⟨h₃, _ | _⟩⟩⟩ := hoperands
      exact .indexed hlist (h₁.register register) (h₂.register via) (h₃.value value)
  | ret operands =>
      rw [operands] at hoperands
      cases hoperands
      exact .ret hlist
  | debug operands =>
      rw [operands] at hoperands
      cases hoperands
      exact .debug hlist
  | trap operands value =>
      rw [operands] at hoperands
      obtain _ | ⟨h₁, _ | _⟩ := hoperands
      exact .trap hlist (h₁.value value)

end Emitter

/-! ## lines -/

namespace Line

/-- The operands that are looked up one by one.  Directives that look up their operand take
the whole field for it. -/
def arguments (line : Line) : List String :=
  match line.operation? with
  | some (.instruction _) => line.operandList
  | _ => [line.operands]

/-- The line with other operands. -/
def withArguments (line : Line) (tokens : List String) : Line :=
  { line with operands := ",".intercalate tokens }

/-- The line looks up its operands, and declares or publishes none of them. -/
def LooksUp (line : Line) : Prop :=
  (∃ op, line.operation? = some (.instruction op)) ∨ line.operation? = some (.directive .fill) ∨
    line.operation? = some (.directive .blkw) ∨ line.operation? = some (.directive .end)

theorem arguments_of_instruction {line : Line} {op : Opcode}
    (h : line.operation? = some (.instruction op)) : line.arguments = line.operandList := by
  rw [arguments, h]

theorem arguments_of_ne {line : Line} (h : ∀ op, line.operation? ≠ some (.instruction op)) :
    line.arguments = [line.operands] := by
  unfold arguments
  split
  · next op hop => exact absurd hop (h op)
  · rfl

end Line

namespace Emitter

variable {t : Layout} {e e' : Emitter} {line line' : Line} {out : Emission}

theorem EndsAt.alike {address : UInt16} (h : e.EndsAt t line address)
    (hsame : e.Alike t line.operands line'.operands) : e.EndsAt t line' address := by
  unfold EndsAt at h ⊢
  split at h
  · next hblank =>
    rw [if_pos (hsame.blank_iff.mp hblank)]
    exact h
  · next hblank =>
    rw [if_neg (mt hsame.blank_iff.mpr hblank)]
    obtain ⟨target, hresolve, haddress⟩ := h
    exact ⟨target, hsame.resolve hresolve, Target.address_congr haddress⟩

/-- A line goes on as another one does whose operands are alike. -/
theorem Step.alike (h : Step t e line out e') (looksUp : line.LooksUp)
    (hop : line'.operation? = line.operation?)
    (harguments : List.Forall₂ (e.Alike t) line.arguments line'.arguments) :
    ∃ out', Step t e line' out' e' ∧ out'.records = out.records := by
  have hfield : ∀ {d}, line.operation? = some (.directive d) →
      e.Alike t line.operands line'.operands := by
    intro d hd
    rw [Line.arguments_of_ne (by simp [hd]), Line.arguments_of_ne (by simp [hop, hd])] at harguments
    obtain _ | ⟨hsame, -⟩ := harguments
    exact hsame
  cases h with
  | instruction operation operands bits =>
      rw [Line.arguments_of_instruction operation,
        Line.arguments_of_instruction (hop.trans operation)] at harguments
      exact ⟨_, .instruction (hop.trans operation) (operands.alike harguments) bits, rfl⟩
  | «end» operation operand =>
      exact ⟨_, .end (hop.trans operation) (operand.alike (hfield operation)), rfl⟩
  | @fillNumber word operation numeric operand =>
      have heq := (hfield operation).eq_of_numeric numeric
      have hword : literalWord line' line'.operands = .ok word := by
        rw [← heq]
        exact Line.orFail_eq_ok.mpr (Line.orFail_eq_ok.mp operand)
      exact ⟨_, .fillNumber (hop.trans operation) (heq ▸ numeric) hword, rfl⟩
  | fillTarget operation numeric operand bits =>
      have hsame := hfield operation
      exact ⟨_, .fillTarget (hop.trans operation) (hsame.isNumeric_eq ▸ numeric)
        (hsame.resolve operand) (Target.word_congr bits), rfl⟩
  | blkw operation operand block =>
      have hblock := blockValue_iff.mpr ((hfield operation).holdsNumber (blockValue_iff.mp operand))
      exact ⟨_, .blkw (hop.trans operation) hblock (Line.blockCount_congr block), rfl⟩
  | orig operation | ent operation | ext operation | equ operation | strz operation =>
      simp [Line.LooksUp, operation] at looksUp

end Emitter

/-! ## the alias and its operand -/

/-- Lines between the first and the last come behind the first, in order. -/
theorem Layout.mem_take_of_inner {lines before after : List Line} {line other : Line} {k : Nat}
    (inner : inner lines = before ++ line :: after) (hk : before.length + 2 ≤ k)
    (hmem : other ∈ before) : other ∈ lines.take k := by
  cases lines with
  | nil => simp [Layout.inner] at inner
  | cons first rest =>
      have hfront : before <+: rest := by
        have hdrop : before <+: rest.dropLast := ⟨_, inner.symm⟩
        exact hdrop.trans (List.dropLast_prefix rest)
      have htake : before <+: rest.take (k - 1) := List.prefix_take_iff.mpr ⟨hfront, by omega⟩
      rw [List.take_cons (by omega)]
      exact List.mem_cons_of_mem _ (htake.mem hmem)

namespace Emitter

variable {t : Layout} {e : Emitter} {x y : String} {symbol : Symbol}

theorem target?_of_symbol (foreign : e.IsForeign t) (hx : t.symbols.get? x = some symbol)
    (hy : t.symbols.get? y = some symbol) : e.target? t x = e.target? t y := by
  rw [target?, target?, if_neg (foreign.not_mem hx), if_neg (foreign.not_mem hy), hx, hy]

theorem target?_of_external (foreign : e.IsForeign t)
    (hx : t.symbols.get? x = some (.external y)) (hy : y ∈ e.externals) :
    e.target? t x = e.target? t y := by
  rw [target?, target?, if_neg (foreign.not_mem hx), hx, if_pos hy]
  exact if_pos hy

end Emitter

/-- Behind an `.EQU` line that has defined its label, this refers to what the operand refers
to. -/
theorem Layout.alike_of_equ {lines before after : List Line} {t : Layout} {line : Line}
    {k : Nat} {outs : List Emission} {e : Emitter} (laid : ofLines lines = .ok t)
    (inner : inner lines = before ++ line :: after)
    (first : ∀ other ∈ before, other.label ≠ line.label)
    (equ : line.operation? = some (.directive .equ))
    (label : IsPlain line.label) (operand : IsPlain line.operands) (hk : before.length + 2 ≤ k)
    (steps : Emitter.Steps t (Emitter.start t) (lines.take k) outs e) :
    e.Alike t line.label line.operands := by
  refine .renamed label operand ?_
  have foreign := steps.foreign (Emitter.foreign_start t)
  obtain ⟨s, hscan, hplace⟩ := exists_scan_of_ofLines laid
  have hsymbols : t.symbols = s.symbols := by rw [(ofScan_eq_ok.mp hplace).2]
  rw [inner] at hscan
  obtain ⟨s₁, operation, symbol, hbefore, hop, hlabelled, hget⟩ :=
    Scan.defined_of_first hscan first label.nonempty
  rw [← hsymbols] at hget
  rw [equ, Option.some.injEq] at hop
  subst hop
  obtain ⟨hnumeric, -⟩ | ⟨-, hcopied | ⟨-, hexternal, rfl⟩⟩ := Scan.aliased_ok hlabelled
  · simp [operand.numeric] at hnumeric
  · -- the operand is a symbol, and the finished table has the same entry for both
    obtain ⟨s₂, hbefore₂, hrest⟩ := Scan.lines_append_eq_ok.mp hscan
    rw [hbefore] at hbefore₂
    cases hbefore₂
    have hle := Scan.symbols_le_of_lines hrest
    rw [← hsymbols] at hle
    exact Emitter.target?_of_symbol foreign hget (hle _ _ hcopied)
  · -- the operand is external, and emission has come to its declaration
    refine Emitter.target?_of_external foreign hget ?_
    rw [steps.externals_of_start, List.mem_eraseDups]
    have hdeclared := (Scan.mem_externals_iff hbefore).mp hexternal
    obtain ⟨other, hother, hname⟩ := List.mem_flatMap.mp hdeclared
    exact List.mem_flatMap.mpr ⟨other, mem_take_of_inner inner hk hother, hname⟩

/-! ## lines with other operands -/

/-- One operand for another, in some of its places. -/
def Replaces (x y : String) (tokens tokens' : List String) : Prop :=
  List.Forall₂ (fun token token' => token' = token ∨ token = x ∧ token' = y) tokens tokens'

theorem Line.operandList_ne_blank (line : Line) : line.operandList ≠ [""] := by
  intro h
  have hlist := line.toList_operands
  rw [h] at hlist
  have hblank : line.operands = "" := String.toList_inj.mp hlist
  rw [operandList, if_pos hblank] at h
  cases h

theorem Replaces.mem {x y token : String} {tokens tokens' : List String}
    (h : Replaces x y tokens tokens') (hmem : token ∈ tokens') : token ∈ tokens ∨ token = y := by
  induction h with
  | nil => cases hmem
  | cons head tail ih =>
      cases hmem with
      | head =>
          obtain rfl | ⟨-, rfl⟩ := head
          · exact .inl List.mem_cons_self
          · exact .inr rfl
      | tail _ hmem => exact (ih hmem).imp_left (List.mem_cons_of_mem _)

/-- A line with operands replaced has these operands. -/
theorem Line.arguments_withArguments {line : Line} {x y : String} {tokens : List String}
    (replaced : Replaces x y line.arguments tokens) (nonempty : y ≠ "") (comma : ',' ∉ y.toList) :
    (line.withArguments tokens).arguments = tokens := by
  have hop : (line.withArguments tokens).operation? = line.operation? := rfl
  by_cases hinstruction : ∃ op, line.operation? = some (.instruction op)
  · obtain ⟨op, hline⟩ := hinstruction
    rw [arguments_of_instruction (hop.trans hline)]
    rw [arguments_of_instruction hline] at replaced
    refine operandList_of_intercalate rfl (fun token hmem => ?_) ?_
    · obtain hold | rfl := replaced.mem hmem
      · exact comma_not_mem hold
      · exact comma
    · rintro rfl
      generalize hlist : line.operandList = operands at replaced
      obtain _ | ⟨rfl | ⟨-, rfl⟩, _ | _⟩ := replaced
      · exact line.operandList_ne_blank hlist
      · exact nonempty rfl
  · have hne : ∀ op, line.operation? ≠ some (.instruction op) := fun op h => hinstruction ⟨op, h⟩
    rw [arguments_of_ne (hop ▸ hne)]
    rw [arguments_of_ne hne] at replaced
    obtain _ | ⟨-, _ | _⟩ := replaced
    rfl

/-- Where the label of an `.EQU` line stands for its operand, and neither can be taken for
anything but a name, each can be written for the other in the lines behind.  A line that
looks up its operands, with the label for some of them or with the operand instead, has the
same records and leads to the same state, or fails in both forms. -/
theorem aliases_are_transparent {lines before after : List Line} {t : Layout} {equate : Line}
    {k : Nat} {outs : List Emission} {e : Emitter} (laid : Layout.ofLines lines = .ok t)
    (inner : Layout.inner lines = before ++ equate :: after)
    (first : ∀ other ∈ before, other.label ≠ equate.label)
    (equ : equate.operation? = some (.directive .equ))
    (label : IsPlain equate.label) (operand : IsPlain equate.operands)
    (passed : before.length + 2 ≤ k)
    (reached : Emitter.emitLines t (Emitter.start t) (lines.take k) = .ok (outs, e)) (line : Line)
    (tokens : List String) (looksUp : line.LooksUp)
    (replaced : Replaces equate.label equate.operands line.arguments tokens) :
    (∃ out out' e', e.step t line = (.ok out, e') ∧
      e.step t (line.withArguments tokens) = (.ok out', e') ∧ out'.records = out.records) ∨
    ((∃ f, (e.step t line).1 = .error f) ∧
      ∃ f, (e.step t (line.withArguments tokens)).1 = .error f) := by
  have hsteps := Emitter.emitLines_ok_iff.mp reached
  have halike := Layout.alike_of_equ laid inner first equ label operand passed hsteps
  have hop : (line.withArguments tokens).operation? = line.operation? := rfl
  have harguments : List.Forall₂ (e.Alike t) line.arguments
      (line.withArguments tokens).arguments := by
    rw [Line.arguments_withArguments replaced operand.nonempty operand.comma]
    refine replaced.imp fun token token' h => ?_
    obtain rfl | ⟨rfl, rfl⟩ := h
    · exact .same
    · exact halike
  rcases hstep : e.step t line with ⟨f | out, e₁⟩
  · rcases hstep' : e.step t (line.withArguments tokens) with ⟨f' | out', e₁'⟩
    · exact .inr ⟨⟨f, rfl⟩, f', rfl⟩
    · -- the replacement can be taken back
      have hback := harguments.flip.imp fun _ _ h => h.symm
      obtain ⟨out, hout, -⟩ : ∃ out, Emitter.Step t e line out e₁' ∧ _ :=
        (Emitter.step_ok_iff.mp hstep').alike looksUp rfl hback
      rw [Emitter.step_ok_iff.mpr hout] at hstep
      cases hstep
  · obtain ⟨out', hout, hrecords⟩ := (Emitter.step_ok_iff.mp hstep).alike looksUp hop harguments
    exact .inl ⟨out, out', e₁, rfl, Emitter.step_ok_iff.mpr hout, hrecords⟩

/-- A segment with an alias of an external name. -/
def renamedExternal : List Line :=
  [⟨"PROG", ".ORIG", "", 1, .nowhere⟩,
   ⟨"", ".EXT", "PUTS", 2, .nowhere⟩,
   ⟨"OUT", ".EQU", "PUTS", 3, .nowhere⟩,
   ⟨"", "LEA", "R0,OUT", 4, .nowhere⟩,
   ⟨"", ".END", "", 5, .nowhere⟩]

theorem aliases_are_transparent_renamedExternal :
    ∃ t outs e, Layout.ofLines renamedExternal = .ok t ∧
      Emitter.emitLines t (Emitter.start t) (renamedExternal.take 3) = .ok (outs, e) ∧
      ∃ out out' e', e.step t ⟨"", "LEA", "R0,OUT", 4, .nowhere⟩ = (.ok out, e') ∧
        e.step t ⟨"", "LEA", "R0,PUTS", 4, .nowhere⟩ = (.ok out', e') ∧
        out'.records = out.records := by
  obtain ⟨t, outs, e, laid, reached, out, e', hstep⟩ : ∃ t outs e,
      Layout.ofLines renamedExternal = .ok t ∧
      Emitter.emitLines t (Emitter.start t) (renamedExternal.take 3) = .ok (outs, e) ∧
      ∃ out e', e.step t ⟨"", "LEA", "R0,OUT", 4, .nowhere⟩ = (.ok out, e') :=
    ⟨_, _, _, rfl, rfl, _, _, rfl⟩
  have inner : Layout.inner renamedExternal = [⟨"", ".EXT", "PUTS", 2, .nowhere⟩] ++
      ⟨"OUT", ".EQU", "PUTS", 3, .nowhere⟩ :: [⟨"", "LEA", "R0,OUT", 4, .nowhere⟩] := rfl
  have label : IsPlain "OUT" := ⟨by decide, by decide, by decide, by decide, by decide⟩
  have operand : IsPlain "PUTS" := ⟨by decide, by decide, by decide, by decide, by decide⟩
  have replaced : Replaces "OUT" "PUTS" ["R0", "OUT"] ["R0", "PUTS"] :=
    .cons (.inl rfl) (.cons (.inr ⟨rfl, rfl⟩) .nil)
  obtain hsame | ⟨⟨f, hfails⟩, -⟩ := aliases_are_transparent laid inner (by decide) rfl label
    operand (by decide) reached ⟨"", "LEA", "R0,OUT", 4, .nowhere⟩ _ (.inl ⟨_, rfl⟩) replaced
  · exact ⟨t, outs, e, laid, reached, hsame⟩
  · rw [hstep] at hfails
    cases hfails

end PageAsm
