import PageAsm.Proofs.LiteralReference
import PageAsm.Proofs.Operands

/-!
# PageAsm.Proofs.PageReference

The address that a branch, a jump or a transfer refers to.  Its word has nine
bits for an address; the seven bits in front of them are those of the address
behind the word:

```
page of location + 1    |    low bits of the word
          page of the target | offset of the target
```

Once the operand stands for an address, nothing but the two pages decides
whether the line is emitted (`Emitter.exists_instruction`): on the same page the
word denotes the target, also where the word is the last of memory and the page
behind it the first.
-/

namespace PageAsm

open Outcome

namespace Emitter

variable {t : Layout} {e : Emitter} {line : Line} {token : String} {target : Target}

/-- The operands of a line that refers to an address make an instruction as soon as the
address has an offset. -/
theorem exists_instruction (href : line.reference? = some (.nine, token))
    (hregister : ∀ reg, line.operandList = [reg, token] → ∃ r, e.HoldsRegister t reg r)
    (hrefers : e.RefersTo t line token target) :
    ∃ (op : Opcode) (make : UInt16 → Instruction),
      line.operation? = some (.instruction op) ∧ (∀ offset, (make offset).offset? = some offset) ∧
      e.instruction t line op = do
        let offset ← e.pageOffset line token target
        return (make offset, some target) := by
  unfold Line.reference? at href
  split at href
  · next condition operand hop operands =>
    cases href
    have hresolve : e.resolve t line token = .ok target := by
      simpa [RefersTo, Line.takesLiteral, hop] using hrefers
    refine ⟨.branch condition, .branch condition, hop, fun _ => rfl, ?_⟩
    simp only [instruction, operands, hresolve]
    rfl
  · next link operand hop operands =>
    cases href
    have hresolve : e.resolve t line token = .ok target := by
      simpa [RefersTo, Line.takesLiteral, hop] using hrefers
    refine ⟨.jump link, .jump link, hop, fun _ => rfl, ?_⟩
    simp only [instruction, operands, hresolve]
    rfl
  · next op reg operand hop operands =>
    cases href
    obtain ⟨r, hr⟩ := hregister reg operands
    simp only [RefersTo, Line.takesLiteral, hop, operands] at hrefers
    refine ⟨.transfer op, .transfer op r, hop, fun _ => rfl, ?_⟩
    simp only [instruction, operands, register_eq_ok.mpr hr]
    split at hrefers
    · next hliteral =>
      simp only [hliteral, hrefers]
      rfl
    · next hliteral =>
      simp only [hliteral, hrefers]
      rfl
  · cases href
  · cases href

/-- Such a line is emitted exactly if the address has an offset, and the word has the
offset in its low bits. -/
theorem step_of_pointsAt {address : UInt16} (href : line.reference? = some (.nine, token))
    (hregister : ∀ reg, line.operandList = [reg, token] → ∃ r, e.HoldsRegister t reg r)
    (hpoints : e.PointsAt t line token address) :
    match Page.offset e.location address with
    | .ok offset => ∃ word patch, word.toNat % 512 = offset.toNat % 512 ∧
        e.step t line = (.ok (e.wordOutput line word patch), e.advance 1)
    | .error error =>
        e.step t line = (.error (.diagnostic (line.diagnostic (.pageRange error))), e) := by
  obtain ⟨target, hrefers, haddress⟩ := pointsAt_iff.mp hpoints
  obtain ⟨op, make, hop, hmake, hinstruction⟩ := exists_instruction href hregister hrefers
  split
  · next offset hoffset =>
    obtain ⟨word, hword⟩ := (make offset).exists_word
    have hpage : e.pageOffset line token target = .ok offset :=
      pageOffset_eq_ok.mpr ⟨address, haddress, hoffset⟩
    refine ⟨word, e.patch? .nine target, (Instruction.word?_atOffset (hmake offset) hword).1, ?_⟩
    rw [hpage] at hinstruction
    simp only [step, hop, emitInstruction, hinstruction, bind, Except.bind, pure, Except.pure,
      hword]
    rfl
  · next error hoffset =>
    have hpage : e.pageOffset line token target =
        .error (.diagnostic (line.diagnostic (.pageRange error))) := by
      rw [pageOffset, haddress]
      simp only [bind, Except.bind, hoffset]
      rfl
    rw [hpage] at hinstruction
    simp only [step, hop, emitInstruction, hinstruction, bind, Except.bind]
    rfl

end Emitter

/-- A branch, jump or transfer whose operand stands for an address is emitted exactly if
the address is on the page of the following word; otherwise it is rejected for this reason
and nothing else changes.  The word that is emitted refers to the address. -/
theorem step_iff_same_page {t : Layout} {e : Emitter} {line : Line} {token : String}
    {target : UInt16} (reference : line.reference? = some (.nine, token))
    (register : ∀ reg, line.operandList = [reg, token] → ∃ r, e.HoldsRegister t reg r)
    (points : e.PointsAt t line token target) :
    ((∃ out e', e.step t line = (.ok out, e')) ↔
      Page.ofAddress (e.location + 1) = Page.ofAddress target) ∧
    (Page.ofAddress (e.location + 1) ≠ Page.ofAddress target →
      ∃ d, e.step t line = (.error (.diagnostic d), e) ∧ d.code = "pass2::page_range") ∧
    ∀ out e', e.step t line = (.ok out, e') →
      ∃ word patch, out.records = [.text e.location word patch] ∧
        Page.reference e.location word = target := by
  have hstep := Emitter.step_of_pointsAt reference register points
  by_cases hpage : Page.ofAddress (e.location + 1) = Page.ofAddress target
  · have hoffset : Page.offset e.location target = .ok _ := if_pos hpage
    rw [hoffset] at hstep
    obtain ⟨word, patch, hlow, hstep⟩ := hstep
    refine ⟨iff_of_true ⟨_, _, hstep⟩ hpage, fun hne => absurd hpage hne, ?_⟩
    intro out e' hok
    rw [hstep] at hok
    cases hok
    refine ⟨word, patch, rfl, ?_⟩
    rw [Page.reference_eq_address, Page.address_congr hlow, Page.address_of_offset hoffset]
  · have hoffset : Page.offset e.location target = .error _ := if_neg hpage
    rw [hoffset] at hstep
    have hfails : ∀ out e', e.step t line ≠ (.ok out, e') := by
      intro out e' hok
      rw [hstep] at hok
      cases hok
    refine ⟨iff_of_false (fun ⟨out, e', hok⟩ => hfails out e' hok) hpage, fun _ => ?_, ?_⟩
    · exact ⟨_, hstep, rfl⟩
    · exact fun out e' hok => absurd hok (hfails out e')

/-- A layout whose only word is the last of memory, so the page behind it is the first. -/
def lastWord : Layout := ⟨.empty, [], .empty, 0xFFFF, 0, 0, 1⟩

/-- A branch to the last word of the first page. -/
def nearBranch : Line := ⟨"", "BRNZP", "#511", 2, .nowhere⟩

/-- A transfer from the last word of memory. -/
def farTransfer : Line := ⟨"", "LEA", "R3,#65535", 2, .nowhere⟩

theorem step_iff_same_page_lastWord :
    (∃ out e', (Emitter.start lastWord).step lastWord nearBranch = (.ok out, e')) ∧
      ∃ d, (Emitter.start lastWord).step lastWord farTransfer =
        (.error (.diagnostic d), .start lastWord) ∧ d.code = "pass2::page_range" := by
  constructor
  · have register : ∀ reg, nearBranch.operandList = [reg, "#511"] →
        ∃ r, (Emitter.start lastWord).HoldsRegister lastWord reg r := fun _ h => nomatch h
    have points : (Emitter.start lastWord).PointsAt lastWord nearBranch "#511" 511 :=
      .number rfl (.numeral rfl rfl) rfl
    exact (step_iff_same_page rfl register points).1.mpr rfl
  · have register : ∀ reg, farTransfer.operandList = [reg, "#65535"] →
        ∃ r, (Emitter.start lastWord).HoldsRegister lastWord reg r := by
      intro reg hreg
      cases hreg
      exact ⟨3, .token rfl rfl⟩
    have points : (Emitter.start lastWord).PointsAt lastWord farTransfer "#65535" 0xFFFF :=
      .number rfl (.numeral rfl rfl) rfl
    exact (step_iff_same_page rfl register points).2.1 (by decide)

end PageAsm
