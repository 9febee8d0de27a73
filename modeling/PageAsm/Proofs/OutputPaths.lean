import PageAsm.Disk
import PageAsm.Proofs.SourceLine

/-!
# PageAsm.Proofs.OutputPaths

Where the output of a source file goes.  A path is a front, up to the last slash,
and a name; the extension of the name is exchanged:

```
path       front   stem    with extension obj
d/p.asm    d/      p       d/p.obj
p.q.asm            p.q     p.q.obj
..asm              .       ..              names no file
```

The file with another extension is in the same directory
(`Disk.locate_withExtension`), so the output can be made wherever the source is.
The one exception is `..asm`: what is left of it without its extension is `..`.
-/

namespace PageAsm

/-! ## components -/

namespace Path

/-- The text ends with the name, which is its last component. -/
structure EndsWith (cs front name : List Char) : Prop where
  text : cs = front ++ name
  slash : '/' ∉ name
  front : front = [] ∨ ∃ directory, front = directory ++ ['/']

theorem exists_endsWith (cs : List Char) : ∃ front name, EndsWith cs front name := by
  induction cs with
  | nil => exact ⟨[], [], rfl, List.not_mem_nil, .inl rfl⟩
  | cons c cs ih =>
      obtain ⟨front, name, rfl, slash, rfl | ⟨directory, rfl⟩⟩ := ih
      · by_cases hc : c = '/'
        · exact ⟨[c], name, rfl, slash, .inr ⟨[], by rw [hc]; rfl⟩⟩
        · have hname : '/' ∉ c :: name := by simp [Ne.symm hc, slash]
          exact ⟨[], c :: name, rfl, hname, .inl rfl⟩
      · exact ⟨c :: (directory ++ ['/']), name, rfl, slash, .inr ⟨c :: directory, rfl⟩⟩

namespace EndsWith

variable {cs front name : List Char} {path : String}

/-- The components in front of the name depend on the front only. -/
theorem exists_components (h : EndsWith cs front name) :
    ∃ names, ∀ path : String, ∀ name, path.toList = front ++ name → '/' ∉ name →
      components path = names ++ [String.ofList name] := by
  obtain ⟨-, -, rfl | ⟨directory, rfl⟩⟩ := h
  · refine ⟨[], fun path name hpath slash => ?_⟩
    rw [components, hpath, List.nil_append, Text.splitOn_of_not_mem slash]
    rfl
  · refine ⟨(Text.splitOn '/' directory).map String.ofList, fun path name hpath slash => ?_⟩
    rw [components, hpath, List.append_assoc, List.singleton_append, Text.splitOn_append,
      Text.splitOn_of_not_mem slash, List.map_append]
    rfl

theorem getLast?_components (h : EndsWith path.toList front name) :
    (components path).getLast? = some (String.ofList name) := by
  obtain ⟨names, hnames⟩ := h.exists_components
  rw [hnames path name h.text h.slash, List.getLast?_concat]

/-- Whether a path is absolute depends on its front only. -/
theorem isAbsolute_eq (h : EndsWith path.toList front name) (hempty : name ≠ []) :
    isAbsolute path = (front.head? == some '/') := by
  rw [isAbsolute, h.text, List.head?_append]
  obtain ⟨c, cs, rfl⟩ := List.exists_cons_of_ne_nil hempty
  cases front with
  | nil =>
      have hc : c ≠ '/' := Ne.symm (List.ne_of_not_mem_cons h.slash)
      simp [hc]
  | cons d ds => rfl

/-- A name that is neither empty nor a dot is the name of a file. -/
theorem splitName_eq (h : EndsWith path.toList front name) (hempty : name ≠ [])
    (hdot : name ≠ ['.']) : splitName path = (front, name) := by
  obtain ⟨text, slash, hfront⟩ := h
  have hslash : '/' ∉ name.reverse := by simpa using slash
  have hhead : front.reverse = [] ∨ front.reverse.head? = some '/' := by
    obtain rfl | ⟨directory, rfl⟩ := hfront
    · exact .inl rfl
    · exact .inr (by simp)
  have hkeep : dropDots (name.reverse ++ front.reverse) = name.reverse ++ front.reverse := by
    obtain ⟨c, cs, hreverse⟩ := List.exists_cons_of_ne_nil (List.reverse_ne_nil_iff.mpr hempty)
    rw [hreverse] at hslash ⊢
    have hc : '/' ≠ c := List.ne_of_not_mem_cons hslash
    have hcs : '/' ∉ cs := List.not_mem_of_not_mem_cons hslash
    rw [List.cons_append, dropDots.eq_def]
    split
    · next heq => exact absurd (List.cons.inj heq).1.symm hc
    · next heq =>
      obtain ⟨rfl, hrest⟩ := List.cons.inj heq
      cases cs with
      | nil => exact absurd (List.reverse_eq_cons_iff.mp hreverse) hdot
      | cons d ds => exact absurd (List.cons.inj hrest).1.symm (List.ne_of_not_mem_cons hcs)
    · rfl
  simp only [splitName, text, List.reverse_append, hkeep, Text.takeWhile_ne hslash hhead,
    Text.dropWhile_ne hslash hhead, List.reverse_reverse]

end EndsWith

/-! ## extensions -/

/-- A name with an extension is a stem, a dot and the extension. -/
theorem exists_stem_of_splitExtension {name ext : List Char}
    (h : (splitExtension name).2 = some ext) : ∃ stem, stem ≠ [] ∧ name = stem ++ '.' :: ext := by
  unfold splitExtension at h
  dsimp only at h
  split at h
  · cases h
  · next hstem =>
    cases h
    simp only [Bool.or_eq_true, List.isEmpty_iff, not_or] at hstem
    obtain ⟨hne, -⟩ := hstem
    have hdot : (name.reverse.dropWhile (· != '.')).head? = some '.' := by
      cases hrest : name.reverse.dropWhile (· != '.') with
      | nil =>
          rw [hrest] at hne
          exact absurd rfl hne
      | cons c cs =>
          have hc := List.head?_dropWhile_not (· != '.') name.reverse
          rw [hrest] at hc
          simpa using hc
    obtain ⟨stem, hrest⟩ := List.head?_eq_some_iff.mp hdot
    rw [hrest] at hne
    refine ⟨stem.reverse, List.reverse_ne_nil_iff.mpr hne, ?_⟩
    have hsplit := List.takeWhile_append_dropWhile (p := (· != '.')) (l := name.reverse)
    rw [hrest] at hsplit
    have hname := congrArg List.reverse hsplit
    rw [List.reverse_append, List.reverse_cons, List.append_assoc, List.reverse_reverse] at hname
    exact hname.symm

theorem EndsWith.exists_stem {path old : String} {front name : List Char}
    (h : EndsWith path.toList front name) (hempty : name ≠ []) (hdot : name ≠ ['.'])
    (hold : extension? path = some old) :
    ∃ stem, stem ≠ [] ∧ name = stem ++ '.' :: old.toList := by
  rw [extension?, h.splitName_eq hempty hdot, Option.map_eq_some_iff] at hold
  obtain ⟨ext, hext, rfl⟩ := hold
  rw [String.toList_ofList]
  exact exists_stem_of_splitExtension hext

theorem concat_dot_ne_dots {stem : List Char} (hdot : stem ≠ ['.']) :
    stem ++ ['.'] ≠ ['.', '.'] := by
  intro heq
  have hconcat : stem ++ ['.'] = ['.'] ++ ['.'] := heq
  exact hdot (List.append_cancel_right hconcat)

theorem splitExtension_concat_dot {stem : List Char} (hempty : stem ≠ []) (hdot : stem ≠ ['.']) :
    (splitExtension (stem ++ ['.'])).1 = stem := by
  simp [splitExtension, hempty, concat_dot_ne_dots hdot]

/-- Another extension is put behind the stem, unless that is a dot. -/
theorem withExtension_eq {path old : String} {front stem : List Char}
    (h : EndsWith path.toList front (stem ++ '.' :: old.toList)) (hempty : stem ≠ [])
    (hold : extension? path = some old) (ext : String) :
    (withExtension path ext).toList =
      if stem = ['.'] then front ++ ['.', '.'] else front ++ (stem ++ '.' :: ext.toList) := by
  have htake : path.toList.take (path.toList.length - old.toList.length) =
      front ++ (stem ++ ['.']) := by
    have hpath : path.toList = front ++ (stem ++ ['.']) ++ old.toList := by simp [h.text]
    rw [hpath, List.length_append, Nat.add_sub_cancel, List.take_left']
    rfl
  have hends : EndsWith (String.ofList (front ++ (stem ++ ['.']))).toList front (stem ++ ['.']) := by
    refine ⟨String.toList_ofList, ?_, h.front⟩
    have hslash := h.slash
    simp only [List.mem_append, not_or] at hslash ⊢
    exact ⟨hslash.1, by decide⟩
  have hname := hends.splitName_eq (by simp) (by simp [hempty])
  simp only [withExtension, hold, htake, setExtension, hname]
  by_cases hdot : stem = ['.']
  · simp [hdot]
  · simp [hdot, concat_dot_ne_dots hdot, hempty, splitExtension_concat_dot hempty hdot]

theorem EndsWith.withExtension {path old ext : String} {front stem : List Char}
    (h : EndsWith path.toList front (stem ++ '.' :: old.toList)) (hempty : stem ≠ [])
    (hdot : stem ≠ ['.']) (hold : extension? path = some old) (slash : '/' ∉ ext.toList) :
    EndsWith (Path.withExtension path ext).toList front (stem ++ '.' :: ext.toList) where
  text := by rw [withExtension_eq h hempty hold, if_neg hdot]
  slash := by
    have hslash := h.slash
    simp only [List.mem_append, List.mem_cons, not_or] at hslash ⊢
    exact ⟨hslash.1, by decide, slash⟩
  front := h.front

end Path

/-! ## places -/

namespace Disk

variable {disk : Disk} {path : String} {place : Location}

/-- The name can be that of a file. -/
def IsFileName (name : String) : Prop :=
  name ∉ ["", ".", ".."] ∧ name.utf8ByteSize ≤ maxName

/-- The place of a file is in the directory that is named in front. -/
theorem locate_eq_some_iff {names : List String} {name : String}
    (h : Path.components path = names ++ [name]) :
    disk.locate path = some place ↔
      path.utf8ByteSize ≤ maxPath ∧ IsFileName name ∧
        ∃ directory, disk.walk (disk.base path) names = some directory ∧
          directory ++ [name] = place := by
  simp only [locate, h, List.getLast?_concat, List.dropLast_concat, IsFileName]
  split
  · next hlong => simp [Nat.not_le.mpr hlong]
  · next hshort =>
    split
    · next hname =>
      simp only [reduceCtorEq, false_iff, not_and]
      simp only [Bool.or_eq_true, decide_eq_true_eq] at hname
      grind
    · next hname =>
      simp only [Bool.or_eq_true, decide_eq_true_eq] at hname
      simp only [Option.map_eq_some_iff]
      grind

theorem base_eq {other : String} {front name name' : List Char}
    (h : Path.EndsWith path.toList front name) (hempty : name ≠ [])
    (h' : Path.EndsWith other.toList front name') (hempty' : name' ≠ []) :
    disk.base other = disk.base path := by
  rw [base, base, h.isAbsolute_eq hempty, h'.isAbsolute_eq hempty']

theorem IsFileName.ne {name other : List Char} (h : IsFileName (String.ofList name))
    (hother : String.ofList other ∈ ["", ".", ".."]) : name ≠ other := by
  rintro rfl
  exact h.1 hother

/-- The place of a file is named in its directory, and other files that are named behind the same
front are in this directory too. -/
theorem exists_directory {front name : List Char} (h : Path.EndsWith path.toList front name)
    (located : disk.locate path = some place) :
    IsFileName (String.ofList name) ∧ ∃ directory, place = directory ++ [String.ofList name] ∧
      ∀ other name', Path.EndsWith other.toList front name' →
        other.utf8ByteSize ≤ path.utf8ByteSize → IsFileName (String.ofList name') →
          disk.locate other = some (directory ++ [String.ofList name']) := by
  obtain ⟨names, hnames⟩ := h.exists_components
  obtain ⟨hshort, hname, directory, hwalk, rfl⟩ :=
    (locate_eq_some_iff (hnames path name h.text h.slash)).mp located
  refine ⟨hname, directory, rfl, fun other name' h' hle hname' => ?_⟩
  rw [← base_eq h (hname.ne (by decide)) h' (hname'.ne (by decide))] at hwalk
  exact (locate_eq_some_iff (hnames other name' h'.text h'.slash)).mpr
    ⟨Nat.le_trans hle hshort, hname', directory, hwalk, rfl⟩

/-- There is no file at a path that ends with two dots. -/
theorem locate_eq_none {front : List Char} (h : Path.EndsWith path.toList front ['.', '.']) :
    disk.locate path = none := by
  refine Option.eq_none_iff_forall_ne_some.mpr fun place hplace => ?_
  exact (exists_directory h hplace).1.ne (by decide) rfl

theorem ofList_stem (stem : List Char) (ext : String) :
    String.ofList (stem ++ '.' :: ext.toList) = String.ofList stem ++ "." ++ ext := by
  rw [← String.toList_inj]
  simp

/-- A stem that is not a dot makes a name that is none of the dots. -/
theorem not_mem_dots {stem ext : List Char} (hempty : stem ≠ []) (hdot : stem ≠ ['.']) :
    String.ofList (stem ++ '.' :: ext) ∉ ["", ".", ".."] := by
  obtain ⟨c, cs, rfl⟩ := List.exists_cons_of_ne_nil hempty
  have hcs : cs = [] → c ≠ '.' := fun hnil hc => hdot (by rw [hnil, hc])
  simp only [List.mem_cons, List.not_mem_nil, or_false, ← String.toList_inj, String.toList_ofList,
    not_or]
  cases cs with
  | nil => simp [hcs rfl]
  | cons d ds => simp

/-- The file with another extension that is not longer is in the same directory.  If only a dot
stands in front of the old one, there is none. -/
theorem locate_withExtension {old : String} (hold : Path.extension? path = some old)
    (located : disk.locate path = some place) :
    (Path.components path).getLast? = some (".." ++ old) ∧
        (∀ ext, disk.locate (Path.withExtension path ext) = none) ∨
      (Path.components path).getLast? ≠ some (".." ++ old) ∧
        ∃ directory stem, place = directory ++ [stem ++ "." ++ old] ∧
          ∀ ext, '/' ∉ ext.toList → ext.utf8ByteSize ≤ old.utf8ByteSize →
            disk.locate (Path.withExtension path ext) =
              some (directory ++ [stem ++ "." ++ ext]) := by
  obtain ⟨front, name, h⟩ := Path.exists_endsWith path.toList
  obtain ⟨hname, directory, rfl, hothers⟩ := exists_directory h located
  obtain ⟨stem, hstem, rfl⟩ := h.exists_stem (hname.ne (by decide)) (hname.ne (by decide)) hold
  rw [h.getLast?_components]
  by_cases hdots : stem = ['.']
  · left
    refine ⟨?_, fun ext => ?_⟩
    · rw [hdots, Option.some.injEq, ← String.toList_inj]
      simp
    · have hparent : Path.EndsWith (Path.withExtension path ext).toList front ['.', '.'] := by
        refine ⟨?_, by decide, h.front⟩
        rw [Path.withExtension_eq h hstem hold, if_pos hdots]
      exact locate_eq_none hparent
  · right
    refine ⟨fun heq => ?_, directory, String.ofList stem, by rw [ofList_stem],
      fun ext hslash hsize => ?_⟩
    · have hnames := congrArg String.toList (Option.some.inj heq)
      rw [String.toList_ofList, String.toList_append] at hnames
      have hdot : "..".toList ++ old.toList = ['.'] ++ '.' :: old.toList := rfl
      exact hdots (List.append_cancel_right (hnames.trans hdot))
    · have h' := h.withExtension hstem hdots hold hslash
      rw [← ofList_stem]
      refine hothers _ _ h' ?_ ⟨not_mem_dots hstem hdots, Nat.le_trans ?_ hname.2⟩
      · rw [Text.utf8ByteSize_eq, Text.utf8ByteSize_eq, h.text, h'.text]
        simp only [Text.byteSize_append, Text.byteSize_cons, ← Text.utf8ByteSize_eq]
        omega
      · simp only [ofList_stem, String.utf8ByteSize_append]
        omega

end Disk

end PageAsm
