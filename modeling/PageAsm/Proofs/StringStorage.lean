import Mathlib.Data.List.Forall2
import PageAsm.Proofs.ListingAgreement

/-!
# PageAsm.Proofs.StringStorage

What memory keeps of a string.  Each character takes one word, which is the
lower half of its code:

```
address    location       location + 1   ...   location + n
word       code₁ % 65536  code₂ % 65536  ...   0
```

So the words of two strings are the same exactly if their codes agree modulo
65536 (`map_charWord_eq_iff`), and a character whose code is a multiple of
65536 looks like the terminator.  A string of characters whose codes fit a word
is read back from memory (`stringAt_of_holdsRecords`); there is such a memory
as long as the string does not go round it (`exists_holdsRecords_iff`).
-/

namespace PageAsm

/-! ## records of words -/

/-- Text records without patches for words at consecutive addresses. -/
def textRecords : UInt16 → List UInt16 → List Record
  | _, [] => []
  | address, word :: words => .text address word none :: textRecords (address + 1) words

/-- The words that text records give, in order. -/
def storedWords (records : List Record) : List UInt16 :=
  (records.filterMap Record.cell?).map Prod.snd

/-- Memory that holds what text records give. -/
def HoldsRecords (memory : UInt16 → UInt16) (records : List Record) : Prop :=
  ∀ cell ∈ records.filterMap Record.cell?, memory cell.1 = cell.2

section

variable {memory : UInt16 → UInt16} {address word : UInt16} {words : List UInt16}

theorem Emitter.place_cons (address word : UInt16) (words : List UInt16) :
    place address (word :: words) = (address, word) :: place (address + 1) words := by
  unfold place
  rw [List.zipIdx_cons', List.map_cons, List.map_map]
  congr 1
  · exact congrArg (·, word) (UInt16.add_zero address)
  · apply List.map_congr_left
    intro p hp
    have hnext : address + UInt16.ofNat (p.2 + 1) = address + 1 + UInt16.ofNat p.2 := by
      rw [Nat.add_comm, UInt16.ofNat_add, ← UInt16.add_assoc]
      rfl
    exact congrArg (·, p.1) hnext

theorem textRecords_eq_map_place (address : UInt16) (words : List UInt16) :
    textRecords address words =
      (Emitter.place address words).map fun cell => .text cell.1 cell.2 none := by
  induction words generalizing address with
  | nil => rfl
  | cons word words ih => rw [textRecords, ih, Emitter.place_cons, List.map_cons]

theorem filterMap_cell?_textRecords (address : UInt16) (words : List UInt16) :
    (textRecords address words).filterMap Record.cell? = Emitter.place address words := by
  rw [textRecords_eq_map_place, List.filterMap_map]
  exact List.filterMap_some

theorem storedWords_textRecords (address : UInt16) (words : List UInt16) :
    storedWords (textRecords address words) = words := by
  rw [storedWords, filterMap_cell?_textRecords, Emitter.place, List.map_map]
  exact List.zipIdx_map_fst 0 words

theorem holdsRecords_cons :
    HoldsRecords memory (textRecords address (word :: words)) ↔
      memory address = word ∧ HoldsRecords memory (textRecords (address + 1) words) :=
  List.forall_mem_cons

/-- Each word is as far from the first address as it is in the list. -/
theorem holdsRecords_iff :
    HoldsRecords memory (textRecords address words) ↔
      ∀ i word, words[i]? = some word → memory (address + UInt16.ofNat i) = word := by
  simp only [HoldsRecords, filterMap_cell?_textRecords, Emitter.place, List.forall_mem_map,
    Prod.forall, List.mk_mem_zipIdx_iff_getElem?]
  exact forall_comm

/-- Words and a terminator fit in memory if the terminator is not put in place of a word. -/
theorem exists_holdsRecords_iff (hzero : 0 ∉ words) :
    (∃ memory, HoldsRecords memory (textRecords address (words ++ [0]))) ↔
      words.length < 65536 := by
  constructor
  · intro h
    obtain ⟨memory, hmemory⟩ := h
    rw [holdsRecords_iff] at hmemory
    by_contra hlong
    have hlt : words.length - 65536 < words.length := by omega
    -- the word that lies a whole memory in front of the terminator
    have hword := hmemory (words.length - 65536) words[words.length - 65536]
      (by rw [List.getElem?_append_left hlt, List.getElem?_eq_getElem hlt])
    have hlast := hmemory words.length 0 (by rw [List.getElem?_concat_length])
    have hsame : UInt16.ofNat words.length = UInt16.ofNat (words.length - 65536) := by
      apply UInt16.toNat_inj.mp
      rw [UInt16.toNat_ofNat', UInt16.toNat_ofNat']
      omega
    rw [hsame, hword] at hlast
    exact hzero (hlast ▸ List.getElem_mem hlt)
  · intro hshort
    refine ⟨fun a => (words ++ [0])[(a - address).toNat]?.getD 0, ?_⟩
    rw [holdsRecords_iff]
    intro i word hword
    have hi := (List.getElem?_eq_some_iff.mp hword).1
    rw [List.length_append, List.length_singleton] at hi
    have hback : (address + UInt16.ofNat i - address).toNat = i := by
      rw [UInt16.add_comm, UInt16.add_sub_cancel, UInt16.toNat_ofNat']
      omega
    rw [hback, hword, Option.getD_some]

end

/-! ## the words of a string -/

/-- The word that a character is stored as. -/
def charWord (c : Char) : UInt16 := UInt16.ofNat (c.toNat % 65536)

/-- A string of characters whose codes fit a word. -/
def IsNarrow (cs : List Char) : Prop := ∀ c ∈ cs, c.toNat < 65536

instance : DecidablePred IsNarrow := List.decidableBAll fun c : Char => c.toNat < 65536

theorem toNat_charWord (c : Char) : (charWord c).toNat = c.toNat % 65536 := by
  rw [charWord, UInt16.toNat_ofNat', Nat.mod_mod]

theorem charWord_eq_iff {c d : Char} :
    charWord c = charWord d ↔ c.toNat % 65536 = d.toNat % 65536 := by
  rw [← UInt16.toNat_inj, toNat_charWord, toNat_charWord]

theorem charWord_eq_zero_iff {c : Char} (h : c ≠ '\x00') :
    charWord c = 0 ↔ 65536 ≤ c.toNat ∧ c.toNat % 65536 = 0 := by
  have hpos : c.toNat ≠ 0 := fun hzero => h (Char.toNat_inj.mp hzero)
  rw [← UInt16.toNat_inj, toNat_charWord, UInt16.toNat_zero]
  omega

theorem ofNat_toNat_charWord {c : Char} (h : c.toNat < 65536) :
    Char.ofNat (charWord c).toNat = c := by
  rw [toNat_charWord, Nat.mod_eq_of_lt h, Char.ofNat_toNat]

theorem map_charWord_eq_iff {cs ds : List Char} :
    cs.map charWord = ds.map charWord ↔
      List.Forall₂ (fun c d => c.toNat % 65536 = d.toNat % 65536) cs ds := by
  rw [← List.forall₂_eq_eq_eq, List.forall₂_map_left_iff, List.forall₂_map_right_iff]
  simp only [charWord_eq_iff]

theorem eq_of_map_charWord {cs ds : List Char} (hcs : IsNarrow cs) (hds : IsNarrow ds)
    (h : cs.map charWord = ds.map charWord) : cs = ds := by
  have hback : ∀ es, IsNarrow es →
      (es.map charWord).map (fun w => Char.ofNat w.toNat) = es := by
    intro es hes
    have hchars := List.map_congr_left fun c hc => ofNat_toNat_charWord (hes c hc)
    rw [List.map_map]
    exact hchars.trans (List.map_id' es)
  rw [← hback cs hcs, h, hback ds hds]

theorem zero_mem_map_charWord_iff {cs : List Char} (hnul : '\x00' ∉ cs) :
    0 ∈ cs.map charWord ↔ ∃ c ∈ cs, 65536 ≤ c.toNat ∧ c.toNat % 65536 = 0 := by
  rw [List.mem_map]
  apply exists_congr
  intro c
  apply and_congr_right
  intro hc
  exact charWord_eq_zero_iff fun heq => hnul (heq ▸ hc)

/-! ## strings in memory -/

/-- The string at an address of memory: the characters of the words up to the first zero. -/
inductive StringAt (memory : UInt16 → UInt16) : UInt16 → List Char → Prop where
  | stop {address : UInt16} (zero : memory address = 0) : StringAt memory address []
  | next {address : UInt16} {cs : List Char} (word : memory address ≠ 0)
      (rest : StringAt memory (address + 1) cs) :
      StringAt memory address (Char.ofNat (memory address).toNat :: cs)

theorem StringAt.unique {memory : UInt16 → UInt16} {address : UInt16} {cs ds : List Char}
    (h : StringAt memory address cs) (h' : StringAt memory address ds) : cs = ds := by
  induction h generalizing ds with
  | stop zero =>
      cases h' with
      | stop => rfl
      | next word => contradiction
  | next word rest ih =>
      cases h' with
      | stop zero => contradiction
      | next _ rest' => rw [ih rest']

theorem stringAt_of_holdsRecords {memory : UInt16 → UInt16} {address : UInt16} {cs : List Char}
    (hnarrow : IsNarrow cs) (hzero : 0 ∉ cs.map charWord)
    (h : HoldsRecords memory (textRecords address (cs.map charWord ++ [0]))) :
    StringAt memory address cs := by
  induction cs generalizing address with
  | nil => exact .stop (holdsRecords_cons.mp h).1
  | cons c cs ih =>
      obtain ⟨hfirst, hrest⟩ := holdsRecords_cons.mp h
      have hchar : Char.ofNat (memory address).toNat = c := by
        rw [hfirst]
        exact ofNat_toNat_charWord (hnarrow c List.mem_cons_self)
      have hword : memory address ≠ 0 := by
        intro heq
        rw [heq] at hfirst
        exact hzero (hfirst ▸ List.mem_cons_self)
      have hstring := ih (fun d hd => hnarrow d (List.mem_cons_of_mem _ hd))
        (fun hmem => hzero (List.mem_cons_of_mem _ hmem)) hrest
      rw [← hchar]
      exact .next hword hstring

/-! ## string lines -/

theorem Emitter.records_emitStrz (e : Emitter) (line : Line) :
    (e.emitStrz line).1.records =
      textRecords e.location (line.operands.toList.map charWord ++ [0]) :=
  (textRecords_eq_map_place _ _).symm

/-- A string line stores its characters and a zero.  Characters are kept modulo 65536, so that
only a wide one can look like the terminator, and strings are told apart and read back from
memory if they are narrow. -/
theorem strings_kept_by_low_halves (t : Layout) (e : Emitter) (line : Line)
    (strz : line.operation? = some (.directive .strz))
    (hnul : '\x00' ∉ line.operands.toList) :
    ∃ out e' words, e.step t line = (.ok out, e') ∧
      out.records = textRecords e.location (words ++ [0]) ∧
      words.map UInt16.toNat = line.operands.toList.map (fun c => c.toNat % 65536) ∧
      (0 ∈ words ↔ ∃ c ∈ line.operands.toList, 65536 ≤ c.toNat ∧ c.toNat % 65536 = 0) ∧
      (∀ t₂ e₂ line₂ out₂ e₂', line₂.operation? = some (.directive .strz) →
        Emitter.step t₂ e₂ line₂ = (.ok out₂, e₂') →
        (storedWords out.records = storedWords out₂.records ↔
          List.Forall₂ (fun c d => c.toNat % 65536 = d.toNat % 65536)
            line.operands.toList line₂.operands.toList) ∧
        (IsNarrow line.operands.toList → IsNarrow line₂.operands.toList →
          line.operands ≠ line₂.operands →
          storedWords out.records ≠ storedWords out₂.records)) ∧
      (IsNarrow line.operands.toList →
        0 ∉ words ∧
        ((∃ memory, HoldsRecords memory out.records) ↔ line.operands.length < 65536) ∧
        ∀ memory, HoldsRecords memory out.records →
          ∀ cs, StringAt memory e.location cs ↔ cs = line.operands.toList) := by
  refine ⟨_, _, line.operands.toList.map charWord, Emitter.step_ok_iff.mpr (.strz strz),
    e.records_emitStrz line, ?_, zero_mem_map_charWord_iff hnul, ?_, ?_⟩
  · rw [List.map_map]
    exact List.map_congr_left fun c _ => toNat_charWord c
  · intro t₂ e₂ line₂ out₂ e₂' strz₂ hstep
    obtain ⟨rfl, -⟩ := (Emitter.step_ok_iff.mp hstep).of_strz strz₂
    rw [e.records_emitStrz, e₂.records_emitStrz, storedWords_textRecords,
      storedWords_textRecords, List.append_left_inj]
    refine ⟨map_charWord_eq_iff, ?_⟩
    intro hnarrow hnarrow₂ hne heq
    rw [List.append_left_inj] at heq
    exact hne (String.toList_inj.mp (eq_of_map_charWord hnarrow hnarrow₂ heq))
  · intro hnarrow
    have hzero : 0 ∉ line.operands.toList.map charWord := by
      intro hmem
      obtain ⟨c, hc, hwide, -⟩ := (zero_mem_map_charWord_iff hnul).mp hmem
      have := hnarrow c hc
      omega
    rw [e.records_emitStrz]
    refine ⟨hzero, ?_, ?_⟩
    · rw [exists_holdsRecords_iff hzero, List.length_map, String.length_toList]
    · intro memory hmemory cs
      have hstring := stringAt_of_holdsRecords hnarrow hzero hmemory
      constructor
      · exact fun h => h.unique hstring
      · exact fun h => h ▸ hstring

/-- A layout without symbols whose first word is the last of memory. -/
def bareLayout : Layout := ⟨.empty, [], .empty, 0xFFFF, 0, 0, 1⟩

/-- A string line of one character. -/
def stringOf (code : Nat) : Line :=
  ⟨"", ".STRZ", String.singleton (Char.ofNat code), 2, .nowhere⟩

/-- The first character beyond `U+FFFF` is stored as a zero, and another one as an `A`. -/
theorem not_lossless_of_wideCharacter :
    (∃ out e', (Emitter.start bareLayout).step bareLayout (stringOf 0x10000) = (.ok out, e') ∧
        '\x00' ∉ (stringOf 0x10000).operands.toList ∧
        storedWords out.records = [0, 0]) ∧
      ∃ out e' out₂ e₂',
        (Emitter.start bareLayout).step bareLayout (stringOf 0x41) = (.ok out, e') ∧
        (Emitter.start bareLayout).step bareLayout (stringOf 0x10041) = (.ok out₂, e₂') ∧
        '\x00' ∉ (stringOf 0x41).operands.toList ∧
        '\x00' ∉ (stringOf 0x10041).operands.toList ∧
        (stringOf 0x41).operands ≠ (stringOf 0x10041).operands ∧
        storedWords out.records = storedWords out₂.records := by
  constructor
  · exact ⟨_, _, rfl, by decide, by decide⟩
  · exact ⟨_, _, _, _, rfl, rfl, by decide, by decide, by decide, by decide⟩

/-- A string line of several characters, among them one of three bytes. -/
def narrowString : Line := ⟨"S", ".STRZ", "A;\u2003=", 2, .nowhere⟩

theorem strings_kept_by_low_halves_narrowString :
    ∃ out e', (Emitter.start bareLayout).step bareLayout narrowString = (.ok out, e') ∧
      out.records = [.text 0xFFFF 0x41 none, .text 0 0x3B none, .text 1 0x2003 none,
        .text 2 0x3D none, .text 3 0 none] ∧
      (∃ memory, HoldsRecords memory out.records) ∧
      ∀ memory, HoldsRecords memory out.records →
        ∀ cs, StringAt memory 0xFFFF cs ↔ cs = narrowString.operands.toList := by
  have hnarrow : IsNarrow narrowString.operands.toList := by decide
  obtain ⟨out, e', words, hstep, -, -, -, -, hread⟩ :=
    strings_kept_by_low_halves bareLayout (.start bareLayout) narrowString rfl (by decide)
  obtain ⟨-, hloaded, hstring⟩ := hread hnarrow
  have hrecords : out.records = [.text 0xFFFF 0x41 none, .text 0 0x3B none,
      .text 1 0x2003 none, .text 2 0x3D none, .text 3 0 none] := by
    cases hstep
    decide
  exact ⟨out, e', hstep, hrecords, hloaded.mpr (by decide), hstring⟩

end PageAsm
