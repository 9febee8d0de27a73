import PageAsm.Proofs.BinaryText
import PageAsm.Proofs.Decoding

/-!
# PageAsm.Proofs.WordFields

A word is its bit fields written one behind the other:

```
opcode:4  reg:3  mode:1  index:8        fields, most significant first
0001      010    1       11111110       their binary text
0001010111111110                        binary text of the word
```

Fields make a word exactly if they have sixteen bits together
(`Word.ofFields?_eq`), and of each value only the low bits of its width count
(`Word.ofFields?_congr`).
-/

namespace PageAsm

open Text

namespace BitField

/-- The fields are of one width and have the same bits in it. -/
def SameBits (f g : BitField) : Prop :=
  f.width = g.width ∧ f.value.toNat % 2 ^ f.width = g.value.toNat % 2 ^ g.width

theorem totalWidth_eq_sum (fields : List BitField) :
    totalWidth fields = (fields.map BitField.width).sum := by
  induction fields with
  | nil => rfl
  | cons field rest ih => rw [totalWidth_cons, ih, List.map_cons, List.sum_cons]

theorem totalWidth_congr {fields others : List BitField} (h : List.Forall₂ SameBits fields others) :
    totalWidth fields = totalWidth others := by
  induction h with
  | nil => rfl
  | cons head _ ih => rw [totalWidth_cons, totalWidth_cons, head.1, ih]

theorem number_congr {fields others : List BitField} (h : List.Forall₂ SameBits fields others) :
    number fields = number others := by
  induction h with
  | nil => rfl
  | cons head tail ih => rw [number, number, head.2, totalWidth_congr tail, ih]

end BitField

namespace Word

open BitField

/-- Bits of a value above its width do not count. -/
theorem ofFields?_congr {fields others : List BitField} (h : List.Forall₂ SameBits fields others) :
    ofFields? fields = ofFields? others := by
  rw [ofFields?_eq, ofFields?_eq, totalWidth_congr h, number_congr h]

/-- The last bits of a word are written as the fields that it has there. -/
theorem fixedDigits_of_holds {word : UInt16} {fields : List BitField}
    (hpos : ∀ field ∈ fields, 0 < field.width) (h : Holds word fields) :
    fixedDigits 2 (totalWidth fields) word.toNat =
      fields.flatMap fun field => (binary field.value field.width).toList := by
  induction fields with
  | nil => rfl
  | cons field rest ih =>
      obtain ⟨hfield, hrest⟩ := h
      have hfront : fixedDigits 2 field.width (word.toNat / 2 ^ totalWidth rest) =
          (binary field.value field.width).toList := by
        rw [toList_binary (hpos field List.mem_cons_self), ← fixedDigits_mod,
          ← fixedDigits_mod 2 field.width field.value.toNat, ← hfield]
        rfl
      rw [totalWidth_cons, fixedDigits_add, hfront, List.flatMap_cons,
        ih (fun other hother => hpos other (List.mem_cons_of_mem _ hother)) hrest]

/-- Fields behind an opcode make a word exactly if they have twelve bits together.  The text
of the word is that of the opcode and of each field, one behind the other, and bits of a
value above its width do not count. -/
theorem word_concatenates_fields (opcode : UInt16) (fields : List BitField)
    (widths : ∀ field ∈ fields, 1 ≤ field.width) :
    ((∃ word, ofFields? (⟨opcode, 4⟩ :: fields) = some word) ↔
      (fields.map BitField.width).sum = 12) ∧
    (∀ word, ofFields? (⟨opcode, 4⟩ :: fields) = some word →
      binary word 16 =
        String.join (binary opcode 4 :: fields.map fun field => binary field.value field.width)) ∧
    ∀ others, List.Forall₂ SameBits (⟨opcode, 4⟩ :: fields) others →
      ofFields? others = ofFields? (⟨opcode, 4⟩ :: fields) := by
  refine ⟨?_, ?_, fun others hsame => (ofFields?_congr hsame).symm⟩
  · rw [ofFields?_eq, totalWidth_cons, totalWidth_eq_sum]
    split
    · next hfull => exact iff_of_true ⟨_, rfl⟩ (by simp only at hfull; omega)
    · next hfull => exact iff_of_false (by simp) (by simp only at hfull; omega)
  · intro word hword
    have hfull : totalWidth (⟨opcode, 4⟩ :: fields) = 16 := by
      rw [ofFields?_eq, Option.ite_none_right_eq_some] at hword
      exact hword.1
    have hpos : ∀ field ∈ (⟨opcode, 4⟩ :: fields : List BitField), 0 < field.width := by
      intro field hfield
      rcases List.mem_cons.mp hfield with rfl | hfield
      · exact Nat.zero_lt_succ 3
      · exact widths field hfield
    have hholds := (ofFields?_eq_some_iff hfull).mp hword
    rw [← String.toList_inj, toList_binary (by decide), String.toList_join, ← hfull,
      fixedDigits_of_holds hpos hholds, List.flatMap_cons, List.flatMap_cons, List.flatMap_map]

/-- Fields behind an opcode, all with bits above their widths. -/
def wideFields : List BitField := [⟨0xFFFA, 3⟩, ⟨0x0003, 1⟩, ⟨0xFFFE, 8⟩]

theorem word_concatenates_fields_wideFields :
    (∀ field ∈ wideFields, 1 ≤ field.width) ∧
      ∃ word, ofFields? (⟨0xFFF1, 4⟩ :: wideFields) = some word ∧
        binary word 16 = "0001010111111110" := by
  have widths : ∀ field ∈ wideFields, 1 ≤ field.width := by decide
  obtain ⟨hexists, htext, -⟩ := word_concatenates_fields 0xFFF1 wideFields widths
  obtain ⟨word, hword⟩ := hexists.mpr rfl
  exact ⟨widths, word, hword, (htext word hword).trans (by decide)⟩

end Word

end PageAsm
