import PageAsm.Proofs.LiteralPool
import PageAsm.Proofs.Operands
import PageAsm.Proofs.Placement
import PageAsm.Proofs.Streaming

/-!
# PageAsm.Proofs.Acceptance

What emission looks up again, once lines are read and laid out, and why it finds
it there:

```
operation   reader and emission have one table of mnemonics
literal     the scan takes an operand field from its first `=` on, emission the
            second operand; there is no `=` in the first, which is a register
block       the operand is a numeral, or a number in the table; the table only
            grows, and both passes have come to the same external names
```

For a literal this rests on the labels: a register may be given by a symbol, and
a symbol may be spelled with `=`.
-/

namespace PageAsm

open Outcome

/-! ## operations -/

namespace SourceText

theorem PhysicalLine.operation?_of_read {p : PhysicalLine} {line : Line} (h : p.read = .ok line) :
    ∃ operation, line.operation? = some operation := by
  rw [read_eq, readFields] at h
  split at h
  · cases h
  · split at h
    · cases h
    · dsimp only at h
      split at h
      · cases h
      · next operation hparse =>
        cases h
        exact ⟨operation, hparse⟩

/-- Every line that is read has an operation. -/
theorem operation?_of_read {source : String} {lines : List Line} {line : Line}
    (h : read source = .ok lines) (hmem : line ∈ lines) :
    ∃ operation, line.operation? = some operation := by
  obtain ⟨p, -, hread⟩ := exists_read_of_mem (readLines_of_read h) hmem
  exact PhysicalLine.operation?_of_read hread

end SourceText

/-- A line that is neither `.ORIG` nor `.END` stands between the first and the last. -/
theorem IsFramed.mem_inner {lines : List Line} {line : Line} (framed : IsFramed lines)
    (hmem : line ∈ lines) (horig : line.operation? ≠ some (.directive .orig))
    (hend : line.operation? ≠ some (.directive .end)) : line ∈ Layout.inner lines := by
  obtain ⟨first, body, last, orig, close⟩ := framed
  rw [Layout.inner_segment]
  simp only [List.mem_cons, List.mem_append, List.not_mem_nil, or_false] at hmem
  obtain rfl | hbody | rfl := hmem
  · exact absurd orig horig
  · exact hbody
  · exact absurd close hend

/-- The same with the lines in front of it. -/
theorem split_body {first : Line} {body : List Line} {last : Line} {before after : List Line}
    {line : Line} (split : first :: (body ++ [last]) = before ++ line :: after)
    (hfirst : line ≠ first) (hlast : line ≠ last) :
    ∃ front back, before = first :: front ∧ body = front ++ line :: back := by
  cases before with
  | nil => exact absurd (List.cons.inj split).1.symm hfirst
  | cons other front =>
      obtain ⟨rfl, htail⟩ := List.cons.inj split
      change body ++ [last] = front ++ line :: after at htail
      obtain rfl | ⟨back, other, rfl⟩ := after.eq_nil_or_concat
      · have hline : last = line := (List.cons.inj (List.append_inj' htail rfl).2).1
        exact absurd hline.symm hlast
      · rw [List.concat_eq_append, ← List.cons_append, ← List.append_assoc] at htail
        exact ⟨front, back, rfl, (List.append_inj' htail rfl).1⟩

/-! ## literals -/

namespace Emitter

variable {t : Layout} {e : Emitter} {token : String} {r : Register}

/-- What stands for a register has no `=` in it, if no symbol has. -/
theorem HoldsRegister.not_mem (h : e.HoldsRegister t token r)
    (plain : ∀ name symbol, t.symbols.get? name = some symbol → '=' ∉ name.toList) :
    '=' ∉ token.toList := by
  cases h with
  | @token digits spelled number =>
      intro hmem
      rw [spelled] at hmem
      have hdigit : '=' ∈ digits := (List.mem_cons.mp hmem).resolve_left (by decide)
      have hdigits : (Text.ofDigits? 10 digits).isSome = _ := Text.isSome_ofDigits?
      rw [number, Option.isSome_some, eq_comm, Bool.and_eq_true, List.all_eq_true] at hdigits
      exact absurd (hdigits.2 '=' hdigit) (by decide)
  | symbol plain' numeric held number =>
      cases held with
      | numeral hnumeric => simp [numeric] at hnumeric
      | symbol _ _ defined => exact plain token _ defined

end Emitter

/-- A literal behind one other operand is the literal that a scan finds. -/
theorem literalTokens_of_second {line : Line} {op : Opcode} {first token : String}
    (hop : line.operation? = some (.instruction op)) (hoperands : line.operandList = [first, token])
    (hliteral : isLiteral token = true) (hfirst : '=' ∉ first.toList) :
    literalTokens [line] = [token] := by
  obtain ⟨rest, hrest⟩ : ∃ rest, token.toList = '=' :: rest := by
    unfold isLiteral at hliteral
    split at hliteral
    · next c rest htoken => exact ⟨rest, by rw [htoken, eq_of_beq hliteral]⟩
    · cases hliteral
  have hfield : line.operands.toList = first.toList ++ ',' :: '=' :: rest := by
    rw [line.toList_operands, hoperands, ← hrest]
    simp [List.intercalate_cons_cons]
  have hmem : '=' ∈ line.operands.toList := by simp [hfield]
  have hdrop : line.operands.toList.dropWhile (· != '=') = token.toList := by
    rw [hfield, List.dropWhile_append_of_pos, hrest]
    · rfl
    · intro c hc
      exact bne_iff_ne.mpr fun heq => hfirst (heq ▸ hc)
  simp [literalTokens, hop, hmem, hdrop]

theorem mem_literalTokens {lines : List Line} {line : Line} {token : String} (hmem : line ∈ lines)
    (htoken : token ∈ literalTokens [line]) : token ∈ literalTokens lines := by
  obtain ⟨before, after, rfl⟩ := List.append_of_mem hmem
  rw [← List.singleton_append, literalTokens_append, literalTokens_append]
  exact List.mem_append_right _ (List.mem_append_left _ htoken)

namespace Layout

variable {lines : List Line} {t : Layout}

/-- A symbol is the label of a line. -/
theorem exists_label_of_get? (laid : ofLines lines = .ok t) {name : String} {symbol : Symbol}
    (hget : t.symbols.get? name = some symbol) : ∃ line ∈ lines, line.label = name := by
  obtain ⟨s, hscan, hplace⟩ := exists_scan_of_ofLines laid
  rw [(ofScan_eq_ok.mp hplace).2] at hget
  obtain ⟨before, line, after, -, -, hsplit, hlabel, -⟩ := Scan.exists_first_of_get? hscan hget
  exact ⟨line, mem_of_mem_inner (by simp [hsplit]), hlabel⟩

/-- Every literal that a scan finds has a place in the pool. -/
theorem exists_place (laid : ofLines lines = .ok t) {token : String}
    (hmem : token ∈ literalTokens (inner lines)) :
    ∃ address, t.literals.get? token = some address := by
  obtain ⟨s, hscan, hplace⟩ := exists_scan_of_ofLines laid
  have hkey : token ∈ t.literals.keys := by
    rw [(ofScan_eq_ok.mp hplace).2]
    simp only [LiteralTable.keys_allocate, (Scan.lines_literals hscan).1]
    exact Names.mem_declareAll.mpr (.inr (Names.mem_declareAll.mpr (.inr hmem)))
  exact Option.isSome_iff_exists.mp (Table.contains_iff_mem_keys.mpr hkey)

end Layout

/-! ## blocks -/

theorem Line.pos_of_blockCount {line : Line} {value : Numeral} {count : UInt16}
    (h : line.blockCount value = .ok count) : 0 < count.toNat := by
  unfold Line.blockCount at h
  split at h
  · split at h
    · simp at h
    · next hne =>
      cases h
      exact Nat.pos_of_ne_zero fun hzero => hne (UInt16.toNat_inj.mp hzero)
  · simp at h

/-- The number that `.BLKW` has for its operand when it is scanned, and the words that are
counted for it. -/
theorem Scan.block_of_line {s s' : Scan} {line : Line}
    (hop : line.operation? = some (.directive .blkw)) (h : s.line line = .ok s') :
    ∃ value count, line.blockCount value = .ok count ∧ s'.length = s.length + count.toNat ∧
      ((isNumeric line.operands = true ∧ Numeral.parse line.operands = .ok value) ∨
        isNumeric line.operands = false ∧ line.operands ∉ s.externals ∧
          s'.symbols.get? line.operands = some (.absolute value)) := by
  obtain ⟨operation, s₁, s₂, n, hop', hdef, hcol, hwords, hadv⟩ := line_eq_ok.mp h
  rw [hop, Option.some.injEq] at hop'
  subst hop'
  have hlength := (counters_eq hdef hcol).2
  have hexternals : s₂.externals = s.externals := by
    rw [collect_ok hcol, (define_ok hdef).2]
    rfl
  obtain ⟨-, -, rfl⟩ := advance_eq_ok.mp hadv
  simp only [words, bind_eq_ok, pure_eq_ok] at hwords
  obtain ⟨value, hvalue, count, hcount, rfl⟩ := hwords
  refine ⟨value, count, hcount, by rw [hlength], ?_⟩
  unfold blockValue at hvalue
  split at hvalue
  · next hnumeric => exact .inl ⟨hnumeric, Line.orFail_eq_ok.mp hvalue⟩
  · next hnumeric =>
    rw [← hexternals]
    split at hvalue
    · simp at hvalue
    · next hinternal =>
      split at hvalue
      · next hget =>
        cases hvalue
        exact .inr ⟨Bool.eq_false_iff.mpr hnumeric, hinternal, hget⟩
      · simp at hvalue
      · simp at hvalue

/-- A block that has been scanned is emitted, with the words that the scan has counted. -/
theorem Emitter.step_of_scanned_block {t : Layout} {e : Emitter} {line : Line} {s s' : Scan}
    (hop : line.operation? = some (.directive .blkw)) (hline : s.line line = .ok s')
    (hle : s'.symbols.Le t.symbols) (hexternals : ∀ name ∈ e.externals, name ∈ s.externals) :
    ∃ n out, 1 ≤ n ∧ n ≤ 65535 ∧ s'.length = s.length + n ∧
      e.step t line = (.ok out, { e with location := e.location + UInt16.ofNat n }) := by
  obtain ⟨value, count, hcount, hlength, hoperand⟩ := Scan.block_of_line hop hline
  have hheld : e.HoldsNumber t line.operands value := by
    obtain ⟨hnumeric, hparse⟩ | ⟨hnumeric, hinternal, hget⟩ := hoperand
    · exact .numeral hnumeric hparse
    · exact .symbol hnumeric (fun hmem => hinternal (hexternals _ hmem)) (hle _ _ hget)
  have hstep := step_ok_iff.mpr (.blkw hop (blockValue_iff.mpr hheld) hcount)
  have hpos := Line.pos_of_blockCount hcount
  have hlt := count.toNat_lt
  rw [advance, ← UInt16.ofNat_toNat (x := count)] at hstep
  exact ⟨count.toNat, _, hpos, by omega, hlength, hstep⟩

/-! ## what remains to be found wrong -/

/-- Neither an operation nor a literal is what was not found. -/
def Failure.IsOpen (f : Failure) : Prop :=
  ∀ d, f = .diagnostic d → d.code ≠ "source::unknown_op" ∧ d.code ≠ "pass2::unknown_literal"

theorem Line.admits_isOpen (line : Line) : line.Admits Failure.IsOpen := by
  rintro cause hknown hpooled d ⟨⟩
  cases cause with
  | unknownOperation mnemonic => exact absurd rfl (hknown mnemonic)
  | unknownLiteral token => exact absurd rfl (hpooled token)
  | badValue token field error =>
      cases error <;> simp [Line.diagnostic, Diagnostic.code, Cause.code]
  | _ => simp [Line.diagnostic, Diagnostic.code, Cause.code]

/-- A run that fails has come to a line whose step or pool fails. -/
theorem Run.exists_failing {t : Layout} {e : Emitter} {lines : List Line} {f : Failure}
    (h : (resume t e lines).outcome = .error f) :
    ∃ before line after outs e₁, lines = before ++ line :: after ∧
      Emitter.Steps t e before outs e₁ ∧
      (t.pool line = .error f ∨ (e₁.step t line).1 = .error f) := by
  have hstreams := streams_resume t e lines
  rw [h] at hstreams
  generalize (resume t e lines).records = records, (resume t e lines).rows = rows at hstreams
  cases hstreams with
  | stopped steps _ failed => exact ⟨_, _, _, _, _, rfl, steps, .inr (congrArg Prod.fst failed)⟩
  | unpooled steps failed => exact ⟨_, _, [], _, _, rfl, steps, .inl failed⟩
  | unfinished steps _ failed =>
      exact ⟨_, _, [], _, _, rfl, steps, .inr (congrArg Prod.fst failed)⟩

/-- A delivery fails as its run does, or because a file is full. -/
theorem Delivery.failsOnly_ofRun {α : Type} {P : Failure → Prop} {run : Run α}
    (hrun : FailsOnly P run.outcome) (hP : ∀ line : Line, line.Admits P)
    (objectRoom listingRoom : Option Nat) :
    FailsOnly P (ofRun run objectRoom listingRoom).outcome := by
  unfold ofRun
  split
  · exact hrun
  · simp [hP]

/-- Emission of lines that are read and laid out finds every operation and every literal. -/
theorem Emitter.step_isOpen {source : String} {lines : List Line} {t : Layout} {line : Line}
    (read : SourceText.read source = .ok lines) (plain : ∀ line ∈ lines, '=' ∉ line.label.toList)
    (laid : Layout.ofLines lines = .ok t) (hmem : line ∈ lines) (e : Emitter) :
    FailsOnly Failure.IsOpen (e.step t line).1 := by
  refine failsOnly_step_of t e line.admits_isOpen (fun hop => ?_) ?_
  · obtain ⟨operation, hknown⟩ := SourceText.operation?_of_read read hmem
    rw [hop] at hknown
    cases hknown
  · intro op reg token r hop hoperands hregister hliteral
    have hreg : '=' ∉ reg.toList := by
      refine (register_eq_ok.mp hregister).not_mem fun name symbol hget => ?_
      obtain ⟨other, hother, rfl⟩ := Layout.exists_label_of_get? laid hget
      exact plain other hother
    have hinner : line ∈ Layout.inner lines :=
      (SourceText.isFramed_of_read read).mem_inner hmem (by simp [hop]) (by simp [hop])
    have htoken : token ∈ literalTokens (Layout.inner lines) :=
      mem_literalTokens hinner (by simp [literalTokens_of_second hop hoperands hliteral hreg])
    refine failsOnly_literal t line.admits_isOpen token fun hnone => ?_
    obtain ⟨address, hget⟩ := Layout.exists_place laid htoken
    rw [hnone] at hget
    cases hget

/-- Once lines are read and laid out, and no label has an `=` in it, emission finds every
operation and every literal.  It finds the number of every block that it comes to as well,
and goes on behind as many words as were counted in the layout for this line. -/
theorem accepted_lines_are_found {source : String} {lines : List Line} {t : Layout}
    (read : SourceText.read source = .ok lines) (plain : ∀ line ∈ lines, '=' ∉ line.label.toList)
    (laid : Layout.ofLines lines = .ok t) :
    (∀ objectRoom listingRoom d,
      (Delivery.ofRun (Run.ofLines t lines) objectRoom listingRoom).outcome =
        .error (.diagnostic d) →
      d.code ≠ "source::unknown_op" ∧ d.code ≠ "pass2::unknown_literal") ∧
    ∀ before line after outs e, lines = before ++ line :: after →
      line.operation? = some (.directive .blkw) →
      Emitter.emitLines t (Emitter.start t) before = .ok (outs, e) →
      ∃ s s' n out, (Scan.start t.origin).lines before.tail = .ok s ∧ s.line line = .ok s' ∧
        s'.length = s.length + n ∧ 1 ≤ n ∧ n ≤ 65535 ∧
        e.step t line = (.ok out, { e with location := e.location + UInt16.ofNat n }) := by
  constructor
  · intro objectRoom listingRoom d hout
    have hrun : FailsOnly Failure.IsOpen (Run.ofLines t lines).outcome := by
      intro f hf
      obtain ⟨before, line, after, outs, e, hsplit, -, hfailed⟩ := Run.exists_failing hf
      have hmem : line ∈ lines := by simp [hsplit]
      obtain hpool | hstep := hfailed
      · exact Layout.failsOnly_pool line.admits_isOpen t f hpool
      · exact Emitter.step_isOpen read plain laid hmem e f hstep
    exact Delivery.failsOnly_ofRun hrun Line.admits_isOpen objectRoom listingRoom _ hout d rfl
  · intro before line after outs e split hop hemit
    obtain ⟨first, body, last, orig, close⟩ := SourceText.isFramed_of_read read
    have hne : line ≠ first ∧ line ≠ last := by
      constructor <;> rintro rfl
      · simp [hop] at orig
      · simp [hop] at close
    obtain ⟨front, back, rfl, rfl⟩ := split_body split hne.1 hne.2
    obtain ⟨s₂, -, hscan, hplace⟩ := Layout.ofLines_ok laid
    obtain ⟨s, hfront, hrest⟩ := Scan.lines_append_eq_ok.mp hscan
    obtain ⟨s', hline, hback⟩ := Scan.lines_cons_eq_ok.mp hrest
    have hle : s'.symbols.Le t.symbols :=
      (Scan.symbols_le_of_lines hback).trans (Layout.symbols_le_of_ofScan hplace)
    have hexternals : ∀ name ∈ e.externals, name ∈ s.externals := by
      intro name hmem
      rw [(Emitter.emitLines_ok_iff.mp hemit).mem_externals_iff orig] at hmem
      exact (Scan.mem_externals_iff hfront).mpr hmem
    obtain ⟨n, out, hpos, hle', hlength, hstep⟩ :=
      Emitter.step_of_scanned_block hop hline hle hexternals
    exact ⟨s, s', n, out, hfront, hline, hlength, hpos, hle', hstep⟩

/-- A segment with a block of a named size, and a literal for a register that is a symbol. -/
def namedBlock : String :=
  "P        .ORIG\nN        .EQU     #2\n         .BLKW    N\n" ++
    "         LD       N,=#5\n         .END"

theorem accepted_lines_are_found_namedBlock :
    ∃ lines t line outs e, SourceText.read namedBlock = .ok lines ∧
      Layout.ofLines lines = .ok t ∧ lines = lines.take 2 ++ line :: lines.drop 3 ∧
      line.operation? = some (.directive .blkw) ∧
      Emitter.emitLines t (Emitter.start t) (lines.take 2) = .ok (outs, e) ∧
      ∃ n out, 1 ≤ n ∧ n ≤ 65535 ∧
        e.step t line = (.ok out, { e with location := e.location + UInt16.ofNat n }) := by
  obtain ⟨lines, t, line, outs, e, read, plain, laid, split, hop, hemit⟩ : ∃ lines t line outs e,
      SourceText.read namedBlock = .ok lines ∧ (∀ line ∈ lines, '=' ∉ line.label.toList) ∧
      Layout.ofLines lines = .ok t ∧ lines = lines.take 2 ++ line :: lines.drop 3 ∧
      line.operation? = some (.directive .blkw) ∧
      Emitter.emitLines t (Emitter.start t) (lines.take 2) = .ok (outs, e) :=
    ⟨_, _, _, _, _, rfl, by decide, rfl, rfl, rfl, rfl⟩
  obtain ⟨-, hblocks⟩ := accepted_lines_are_found read plain laid
  obtain ⟨s, s', n, out, -, -, -, hpos, hle, hstep⟩ := hblocks _ line _ outs e split hop hemit
  exact ⟨lines, t, line, outs, e, read, laid, split, hop, hemit, n, out, hpos, hle, hstep⟩

end PageAsm
