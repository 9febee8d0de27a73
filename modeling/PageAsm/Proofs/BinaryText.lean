import PageAsm.Proofs.DigitText
import PageAsm.Word

/-!
# PageAsm.Proofs.BinaryText

Binary text of words.  Up to sixteen low bits of a word are written in as many
places, and what is written is what is read:

```
value    width   text    value that is read
xFFFF    5       11111   x001F
x0005    4       0101    x0005
```

Reading takes any zeros and ones that fit in sixteen bytes, also after a `+`,
and never finds a number that is too large for a word
(`Word.ofBinary?_eq_some_iff`).
-/

namespace PageAsm

namespace Text

variable {cs : List Char}

/-- The characters, at least one, are zeros and ones. -/
def IsBinary (cs : List Char) : Prop := cs ≠ [] ∧ ∀ c ∈ cs, c = '0' ∨ c = '1'

theorem isSome_digit?_two {c : Char} : (digit? 2 c).isSome = true ↔ c = '0' ∨ c = '1' := by
  simp only [Option.isSome_iff_exists, digit?_eq_some_iff (by decide : 2 ≤ 16)]
  constructor
  · rintro ⟨d, hd⟩
    have hlt := hd.1
    rw [hd.eq_digitChar (by decide)]
    interval_cases d <;> decide
  · rintro (rfl | rfl)
    · exact ⟨0, by decide, by decide⟩
    · exact ⟨1, by decide, by decide⟩

/-- Zeros and ones are what has a value in base two. -/
theorem exists_ofDigits?_two_iff : (∃ n, ofDigits? 2 cs = some n) ↔ IsBinary cs := by
  rw [← Option.isSome_iff_exists, isSome_ofDigits?, Bool.and_eq_true, List.all_eq_true]
  simp only [isSome_digit?_two, IsBinary, Bool.not_eq_true', List.isEmpty_eq_false_iff]

theorem IsBinary.byteSize_eq (h : IsBinary cs) : byteSize cs = cs.length := by
  refine byteSize_of_ascii fun c hc => ?_
  rcases h.2 c hc with rfl | rfl <;> decide

theorem isBinary_fixedDigits {width : Nat} (h : 0 < width) (n : Nat) :
    IsBinary (fixedDigits 2 width n) :=
  exists_ofDigits?_two_iff.mp ⟨_, ofDigits?_fixedDigits (by decide) (by decide) h n⟩

end Text

namespace Word

open Text

theorem toList_binary {width : Nat} (h : 0 < width) (value : UInt16) :
    (binary value width).toList = fixedDigits 2 width value.toNat := by
  rw [binary, String.toList_ofList, Nat.max_eq_left h, Nat.one_shiftLeft, fixedDigits_mod]

/-- Reading finds the number of up to sixteen bytes of zeros and ones, also after a `+`. -/
theorem ofBinary?_eq_some_iff {s : String} {value : UInt16} :
    ofBinary? s = some value ↔ s.utf8ByteSize ≤ 16 ∧
      ∃ digits, (s.toList = digits ∨ s.toList = '+' :: digits) ∧
        ofDigits? 2 digits = some value.toNat := by
  simp only [ofBinary?, utf8ByteSize_eq]
  constructor
  · intro h
    split at h
    · cases h
    · next hsize =>
      obtain ⟨n, hn, rfl⟩ := Option.map_eq_some_iff.mp h
      obtain ⟨hread, hlt⟩ := Option.filter_eq_some_iff.mp hn
      have hword : (UInt16.ofNat n).toNat = n := UInt16.toNat_ofNat_of_lt' (of_decide_eq_true hlt)
      refine ⟨Nat.le_of_not_gt hsize, ?_⟩
      rw [hword]
      split at hread
      · next digits hlist => exact ⟨digits, .inr hlist, hread⟩
      · exact ⟨s.toList, .inl rfl, hread⟩
  · rintro ⟨hsize, digits, hlist, hread⟩
    have hlt : decide (value.toNat < 65536) = true := decide_eq_true value.toNat_lt
    have hword : UInt16.ofNat value.toNat = value := UInt16.ofNat_toNat
    simp only [Nat.not_lt.mpr hsize, if_false]
    rcases hlist with hlist | hlist
    · have hunsigned : ∀ rest, digits ≠ '+' :: rest := by
        rintro rest rfl
        exact (((ofDigits?_eq_some_iff (by decide)).mp hread).head_ne (by decide)).1 rfl
      split
      · next rest hplus => exact absurd (hlist.symm.trans hplus) (hunsigned rest)
      · rw [hlist, hread, Option.filter_some, hlt, if_pos rfl, Option.map_some, hword]
    · simp only [hlist, hread, Option.filter_some, hlt, if_true, Option.map_some, hword]

-- the sign takes one of the sixteen bytes
example : ofBinary? "+101" = some 5 ∧ ofBinary? "0000000000000101" = some 5 ∧
    ofBinary? "+0000000000000101" = none := by decide

/-- Up to sixteen zeros and ones make a word. -/
theorem exists_word_of_isBinary {digits : List Char} (h : IsBinary digits)
    (hlength : digits.length ≤ 16) :
    ∃ value : UInt16, ofDigits? 2 digits = some value.toNat := by
  obtain ⟨n, hread⟩ := exists_ofDigits?_two_iff.mpr h
  have hlt : n < 2 ^ 16 :=
    Nat.lt_of_lt_of_le (lt_of_ofDigits? (by decide) (by decide) hread)
      (Nat.pow_le_pow_right (by decide) hlength)
  exact ⟨UInt16.ofNat n, by rw [UInt16.toNat_ofNat_of_lt' hlt]; exact hread⟩

theorem ofBinary?_binary {width : Nat} (hpos : 1 ≤ width) (hle : width ≤ 16) (value : UInt16) :
    ofBinary? (binary value width) = some (UInt16.ofNat (value.toNat % 2 ^ width)) := by
  have hlt : value.toNat % 2 ^ width < 2 ^ 16 :=
    Nat.lt_of_lt_of_le (Nat.mod_lt _ (Nat.two_pow_pos width))
      (Nat.pow_le_pow_right (by decide) hle)
  refine ofBinary?_eq_some_iff.mpr ⟨?_, _, .inl rfl, ?_⟩
  · rw [utf8ByteSize_eq, toList_binary hpos, (isBinary_fixedDigits hpos _).byteSize_eq,
      length_fixedDigits]
    exact hle
  · rw [toList_binary hpos, ofDigits?_fixedDigits (by decide) (by decide) hpos,
      UInt16.toNat_ofNat_of_lt' hlt]

theorem binary_of_ofDigits? {b : String} {value : UInt16}
    (h : ofDigits? 2 b.toList = some value.toNat) : binary value b.length = b := by
  have hpos : 0 < b.length := by
    rw [← String.length_toList, List.length_pos_iff]
    exact (exists_ofDigits?_two_iff.mp ⟨_, h⟩).1
  rw [← String.toList_inj, toList_binary hpos, ← String.length_toList,
    fixedDigits_of_ofDigits? (by decide) h]

/-- The text of up to sixteen low bits has a zero or a one for each of them and is read as
the number that they make; up to sixteen zeros and ones are read as a word and are the text
of its low bits.  Reading succeeds for sixteen bytes of zeros and ones and, if there is room,
a `+` in front, and for nothing else. -/
theorem binary_text_inverts :
    (∀ (value : UInt16) (width : Nat), 1 ≤ width → width ≤ 16 →
      (binary value width).length = width ∧ IsBinary (binary value width).toList ∧
        ofBinary? (binary value width) = some (UInt16.ofNat (value.toNat % 2 ^ width))) ∧
    (∀ b : String, b.length ≤ 16 → IsBinary b.toList →
      ∃ value, ofBinary? b = some value ∧ binary value b.length = b) ∧
    ∀ s : String, (ofBinary? s).isSome = true ↔ s.utf8ByteSize ≤ 16 ∧
      ∃ digits, IsBinary digits ∧ (s.toList = digits ∨ s.toList = '+' :: digits) := by
  refine ⟨fun value width hpos hle => ⟨?_, ?_, ofBinary?_binary hpos hle value⟩, ?_, ?_⟩
  · rw [← String.length_toList, toList_binary hpos, length_fixedDigits]
  · rw [toList_binary hpos]
    exact isBinary_fixedDigits hpos _
  · intro b hlength hbinary
    rw [← String.length_toList] at hlength
    obtain ⟨value, hread⟩ := exists_word_of_isBinary hbinary hlength
    have hsize : b.utf8ByteSize ≤ 16 := by rwa [utf8ByteSize_eq, hbinary.byteSize_eq]
    exact ⟨value, ofBinary?_eq_some_iff.mpr ⟨hsize, _, .inl rfl, hread⟩, binary_of_ofDigits? hread⟩
  · intro s
    simp only [Option.isSome_iff_exists, ofBinary?_eq_some_iff]
    constructor
    · rintro ⟨value, hsize, digits, hlist, hread⟩
      exact ⟨hsize, digits, exists_ofDigits?_two_iff.mp ⟨_, hread⟩, hlist⟩
    · rintro ⟨hsize, digits, hbinary, hlist⟩
      have hlength : digits.length ≤ 16 := by
        rw [← hbinary.byteSize_eq]
        rw [utf8ByteSize_eq] at hsize
        rcases hlist with hlist | hlist
        · rwa [hlist] at hsize
        · rw [hlist, byteSize_cons] at hsize
          exact (Nat.le_add_left _ _).trans hsize
      obtain ⟨value, hread⟩ := exists_word_of_isBinary hbinary hlength
      exact ⟨value, hsize, digits, hlist, hread⟩

/-- The five low bits of words that differ above them, and a text that is longer than its number
needs. -/
theorem binary_text_inverts_lowBits :
    ofBinary? (binary 0xFFC5 5) = some 5 ∧ ofBinary? (binary 0x0025 5) = some 5 ∧
      ∃ value, ofBinary? "00101" = some value ∧ binary value 5 = "00101" := by
  obtain ⟨hvalue, htext, -⟩ := binary_text_inverts
  have hbinary : IsBinary "00101".toList := exists_ofDigits?_two_iff.mp ⟨5, by decide⟩
  exact ⟨(hvalue 0xFFC5 5 (by decide) (by decide)).2.2,
    (hvalue 0x0025 5 (by decide) (by decide)).2.2, htext "00101" (by decide) hbinary⟩

end Word

end PageAsm
