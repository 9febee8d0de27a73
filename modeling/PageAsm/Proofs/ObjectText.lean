import Mathlib.Data.List.DropRight
import PageAsm.Proofs.DigitText
import PageAsm.Run

/-!
# PageAsm.Proofs.ObjectText

Reading an object file.  Its records have fields of any length next to each
other and nothing in between, but there is one such field in a record, and what
is around it has a known length or a known end:

```
H name origin length      the last eight characters are the words
T address word patch      the first eight characters are the words
N name = offset           the last `=` ends the name
E address
```

Of records whose names have no newline in them, the text is read as the same
records, with the names in headers padded (`Record.readAll?_fileText`).
-/

namespace PageAsm

namespace Word

/-- The word that hexadecimal digits give. -/
def ofHex? (digits : List Char) : Option UInt16 := (Text.ofDigits? 16 digits).map UInt16.ofNat

theorem ofHex?_fixedDigits {width : Nat} {w : UInt16} (hwidth : 0 < width)
    (hw : w.toNat < 16 ^ width) : ofHex? (Text.fixedDigits 16 width w.toNat) = some w := by
  rw [ofHex?, Text.ofDigits?_fixedDigits (by decide) (by decide) hwidth, Nat.mod_eq_of_lt hw,
    Option.map_some, UInt16.ofNat_toNat]

theorem ofHex?_hexChars (w : UInt16) : ofHex? (hexChars w) = some w :=
  ofHex?_fixedDigits (by decide) w.toNat_lt

@[simp] theorem length_hexChars (w : UInt16) : (hexChars w).length = 4 :=
  Text.length_fixedDigits 16 4 w.toNat

@[simp] theorem toList_hex (w : UInt16) : (hex w).toList = hexChars w := String.toList_ofList

theorem newline_not_mem_hexChars (w : UInt16) : '\n' ∉ hexChars w :=
  Text.not_mem_fixedDigits (by decide) (by decide) (by decide) 4 w.toNat

end Word

namespace Record

/-! ## reading records -/

/-- Read a header behind its letter. -/
def headerOf? (cs : List Char) : Option Record := do
  let words := cs.drop (cs.length - 8)
  let origin ← Word.ofHex? (words.take 4)
  let length ← Word.ofHex? (words.drop 4)
  return .header (String.ofList (cs.take (cs.length - 8))) origin length

def patchOf? : List Char → Option (Option Patch)
  | [] => some none
  | 'X' :: '9' :: name => some (some ⟨.nine, String.ofList name⟩)
  | 'X' :: '1' :: '6' :: name => some (some ⟨.sixteen, String.ofList name⟩)
  | _ => none

/-- Read a text record behind its letter. -/
def textOf? (cs : List Char) : Option Record := do
  let address ← Word.ofHex? (cs.take 4)
  let word ← Word.ofHex? ((cs.drop 4).take 4)
  let patch ← patchOf? ((cs.drop 4).drop 4)
  return .text address word patch

/-- Read an entry record behind its letter. -/
def entryOf? (cs : List Char) : Option Record := do
  let offset ← Word.ofHex? (cs.rtakeWhile (· != '='))
  return .entry (String.ofList (cs.rdropWhile (· != '=')).dropLast) offset

/-- Read the line of a record. -/
def read? : List Char → Option Record
  | 'H' :: cs => headerOf? cs
  | 'T' :: cs => textOf? cs
  | 'N' :: cs => entryOf? cs
  | 'E' :: cs => (Word.ofHex? cs).map .end
  | _ => none

/-- The text of a file with the records, which is what `Run.object` writes. -/
def fileText (records : List Record) : String :=
  String.join (records.map fun r => r.render ++ "\n")

/-- Read the records of a file. -/
def readAll? (text : String) : Option (List Record) :=
  (Text.splitOn '\n' text.toList).dropLast.mapM read?

/-! ## the line of a record -/

def patchChars : Option Patch → List Char
  | none => []
  | some p => p.render.toList

/-- The characters of the line of a record. -/
def chars : Record → List Char
  | header name origin length =>
    'H' :: ((Text.alignLeft 6 name).toList ++ (Word.hexChars origin ++ Word.hexChars length))
  | text address word patch =>
    'T' :: (Word.hexChars address ++ (Word.hexChars word ++ patchChars patch))
  | entry name offset => 'N' :: (name.toList ++ '=' :: (offsetText offset).toList)
  | «end» address => 'E' :: Word.hexChars address

theorem toList_render (r : Record) : r.render.toList = r.chars := by
  cases r with
  | text address word patch => cases patch <;> simp [render, chars, patchChars]
  | header | entry | «end» => simp [render, chars]

/-! ## records that can be read -/

/-- The names in a record. -/
def names : Record → List String
  | header name _ _ => [name]
  | text _ _ patch => patch.toList.map Patch.name
  | entry name _ => [name]
  | «end» _ => []

/-- The record takes up one line of the file. -/
def IsOneLine (r : Record) : Prop := ∀ name ∈ r.names, '\n' ∉ name.toList

/-- The name in a header fills its columns. -/
def IsFull : Record → Prop
  | header name _ _ => 6 ≤ name.length
  | _ => True

instance (r : Record) : Decidable r.IsOneLine := inferInstanceAs (Decidable (∀ name ∈ r.names, _))

instance (r : Record) : Decidable r.IsFull :=
  match r with
  | header name _ _ => inferInstanceAs (Decidable (6 ≤ name.length))
  | text _ _ _ | entry _ _ | «end» _ => inferInstanceAs (Decidable True)

/-- The record with the name in a header padded to its columns. -/
def padded : Record → Record
  | header name origin length => .header (Text.alignLeft 6 name) origin length
  | r => r

theorem padded_of_isFull {r : Record} (h : r.IsFull) : r.padded = r := by
  cases r with
  | header name origin length =>
      have hwidth : 6 - name.toList.length = 0 := by
        rw [String.length_toList]
        exact Nat.sub_eq_zero_of_le h
      rw [padded, Text.alignLeft, Text.padEnd, hwidth, List.replicate_zero, List.append_nil,
        String.ofList_toList]
  | text | entry | «end» => rfl

/-! ## what is read -/

theorem headerOf?_append (name : List Char) (origin length : UInt16) :
    headerOf? (name ++ (Word.hexChars origin ++ Word.hexChars length)) =
      some (.header (String.ofList name) origin length) := by
  have hlength : (name ++ (Word.hexChars origin ++ Word.hexChars length)).length - 8 =
      name.length := by
    simp
  have horigin : (Word.hexChars origin ++ Word.hexChars length).take 4 = Word.hexChars origin :=
    List.take_left' (Word.length_hexChars origin)
  have hlast : (Word.hexChars origin ++ Word.hexChars length).drop 4 = Word.hexChars length :=
    List.drop_left' (Word.length_hexChars origin)
  simp only [headerOf?, hlength, List.drop_left, List.take_left, horigin, hlast,
    Word.ofHex?_hexChars, Option.bind_eq_bind, Option.bind_some, Option.pure_def]

theorem patchOf?_patchChars (patch : Option Patch) : patchOf? (patchChars patch) = some patch := by
  cases patch with
  | none => rfl
  | some p =>
      obtain ⟨width, name⟩ := p
      cases width <;> simp [patchChars, Patch.render, PatchWidth.render, patchOf?]

theorem textOf?_append (address word : UInt16) {cs : List Char} {patch : Option Patch}
    (h : patchOf? cs = some patch) :
    textOf? (Word.hexChars address ++ (Word.hexChars word ++ cs)) =
      some (.text address word patch) := by
  simp only [textOf?, List.take_left' (Word.length_hexChars _),
    List.drop_left' (Word.length_hexChars _), Word.ofHex?_hexChars, h, Option.bind_eq_bind,
    Option.bind_some, Option.pure_def]

/-- The name may have a `=` in it, but the offset has none. -/
theorem entryOf?_append (name : List Char) {digits : List Char} {offset : UInt16}
    (hdigits : '=' ∉ digits) (hoffset : Word.ofHex? digits = some offset) :
    entryOf? (name ++ '=' :: digits) = some (.entry (String.ofList name) offset) := by
  have hreverse : (name ++ '=' :: digits).reverse = digits.reverse ++ '=' :: name.reverse := by
    simp
  have hkeep : ∀ c ∈ digits.reverse, (c != '=') = true := by
    intro c hc
    rw [bne_iff_ne]
    rintro rfl
    exact hdigits (List.mem_reverse.mp hc)
  have htake : (name ++ '=' :: digits).rtakeWhile (· != '=') = digits := by
    rw [List.rtakeWhile, hreverse, List.takeWhile_append_of_pos hkeep]
    simp
  have hdrop : (name ++ '=' :: digits).rdropWhile (· != '=') = name ++ ['='] := by
    rw [List.rdropWhile, hreverse, List.dropWhile_append_of_pos hkeep]
    simp
  simp only [entryOf?, htake, hdrop, hoffset, List.dropLast_concat, Option.bind_eq_bind,
    Option.bind_some, Option.pure_def]

theorem ofHex?_offsetText (offset : UInt16) :
    Word.ofHex? (offsetText offset).toList = some offset := by
  rw [offsetText, String.toList_ofList]
  split
  · next hlt => exact Word.ofHex?_fixedDigits (by decide) (UInt16.lt_iff_toNat_lt.mp hlt)
  · exact Word.ofHex?_fixedDigits (by decide) offset.toNat_lt

theorem not_mem_offsetText {c : Char} (hc : Text.digit? 16 c = none) (offset : UInt16) :
    c ∉ (offsetText offset).toList := by
  rw [offsetText, String.toList_ofList]
  exact Text.not_mem_fixedDigits (by decide) (by decide) hc _ _

/-- The line of a record is read as the record. -/
theorem read?_chars (r : Record) : read? r.chars = some r.padded := by
  cases r with
  | header name origin length =>
      rw [chars, read?, headerOf?_append, String.ofList_toList, padded]
  | text address word patch => exact textOf?_append address word (patchOf?_patchChars patch)
  | entry name offset =>
      have hentry := entryOf?_append name.toList (not_mem_offsetText (by decide) offset)
        (ofHex?_offsetText offset)
      rw [String.ofList_toList] at hentry
      exact hentry
  | «end» address =>
      have hword := Word.ofHex?_hexChars address
      exact congrArg (Option.map Record.end) hword

/-! ## lines -/

theorem newline_not_mem_chars {r : Record} (h : r.IsOneLine) : '\n' ∉ r.chars := by
  cases r with
  | header name origin length =>
      have hname : '\n' ∉ name.toList := h name (by simp [names])
      simp [chars, Text.alignLeft, Text.padEnd, hname, Word.newline_not_mem_hexChars]
  | text address word patch =>
      have hpatch : '\n' ∉ patchChars patch := by
        cases patch with
        | none => exact List.not_mem_nil
        | some p =>
            have hname : '\n' ∉ p.name.toList := h p.name (by simp [names])
            cases hwidth : p.width <;>
              simp [patchChars, Patch.render, PatchWidth.render, hwidth, hname]
      simp [chars, hpatch, Word.newline_not_mem_hexChars]
  | entry name offset =>
      have hname : '\n' ∉ name.toList := h name (by simp [names])
      have hoffset := not_mem_offsetText (c := '\n') (by decide) offset
      simp [chars, hname, hoffset]
  | «end» address =>
      simp [chars, Word.newline_not_mem_hexChars]

theorem fileText_cons (r : Record) (rs : List Record) :
    (fileText (r :: rs)).toList = r.chars ++ '\n' :: (fileText rs).toList := by
  simp [fileText, ← toList_render]

/-- The pieces between newlines are the lines of the records, and nothing behind the last. -/
theorem splitOn_fileText {rs : List Record} (h : ∀ r ∈ rs, r.IsOneLine) :
    Text.splitOn '\n' (fileText rs).toList = rs.map chars ++ [[]] := by
  induction rs with
  | nil => rfl
  | cons r rs ih =>
      have hr := newline_not_mem_chars (h r List.mem_cons_self)
      have hrest := ih fun other hmem => h other (List.mem_cons_of_mem _ hmem)
      rw [fileText_cons, Text.splitOn_append, Text.splitOn_of_not_mem hr, hrest, List.map_cons]
      rfl

/-- The text of records is read as these records. -/
theorem readAll?_fileText {rs : List Record} (h : ∀ r ∈ rs, r.IsOneLine) :
    readAll? (fileText rs) = some (rs.map padded) := by
  have hread : read? ∘ chars = fun r => pure r.padded := funext read?_chars
  rw [readAll?, splitOn_fileText h, List.dropLast_concat, List.mapM_map, hread]
  exact List.mapM_pure

theorem readAll?_of_isFull {rs : List Record} (h : ∀ r ∈ rs, r.IsOneLine ∧ r.IsFull) :
    readAll? (fileText rs) = some rs := by
  have hpadded : rs.map padded = rs := by
    rw [List.map_congr_left fun r hr => padded_of_isFull (h r hr).2, List.map_id']
  rw [readAll?_fileText fun r hr => (h r hr).1, hpadded]

/-- The text of an object file determines its records, if their names have no newline in them
and the names in headers fill their columns: it is read as these records, and no others have
the same text. -/
theorem object_text_decodes {rs rs' : List Record} (h : ∀ r ∈ rs, r.IsOneLine ∧ r.IsFull)
    (h' : ∀ r ∈ rs', r.IsOneLine ∧ r.IsFull) :
    readAll? (fileText rs) = some rs ∧ (fileText rs = fileText rs' → rs = rs') := by
  have hread : readAll? (fileText rs) = some rs := readAll?_of_isFull h
  refine ⟨hread, fun heq => ?_⟩
  rw [heq, readAll?_of_isFull h'] at hread
  exact (Option.some.inj hread).symm

/-- Records whose names look like the fields around them. -/
def misleadingNames : List Record :=
  [.header "AB 3000" 0x3000 0x0012,
   .text 0x3000 0x2005 (some ⟨.nine, "16"⟩),
   .text 0x3001 0xFFFF (some ⟨.sixteen, "X9"⟩),
   .entry "A=B=0" 0x1000,
   .end 0x3000]

theorem object_text_decodes_misleadingNames :
    fileText misleadingNames =
      "HAB 300030000012\nT30002005X916\nT3001FFFFX16X9\nNA=B=0=1000\nE3000\n" ∧
    readAll? (fileText misleadingNames) = some misleadingNames :=
  ⟨by decide, (@object_text_decodes misleadingNames misleadingNames (by decide) (by decide)).1⟩

end Record

end PageAsm
