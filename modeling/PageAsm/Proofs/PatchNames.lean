import PageAsm.Proofs.Patching

/-!
# PageAsm.Proofs.PatchNames

A patch names what a word is patched against, and the header names the segment:

```
patched against    name in the patch           name in the header
the segment        label of `.ORIG`, padded    label of `.ORIG`, padded
an external        the external name
```

The label of `.ORIG` is no symbol, so `.EXT` may declare it.  A patch against an
external name can be told from one against the segment exactly if the external
name is not the padded label: the patch has the external name as it is
(`Assembled.patch_of_meansExternal`).
-/

namespace PageAsm

/-- The operand of the line is an external name or stands for one. -/
def Line.MeansExternal (lines : List Line) (line : Line) (target : String) : Prop :=
  ∃ width token, line.reference? = some (width, token) ∧ line.takesLiteral = false ∧
    isNumeric token = false ∧ StandsFor (Layout.inner lines) token target

/-- A name stands for declared names only. -/
theorem StandsFor.mem_declaredNames {lines : List Line} {name target : String}
    (h : StandsFor lines name target) : target ∈ declaredNames lines := by
  induction h with
  | declared mem => exact mem
  | chain split first label operation numeric operand ih => exact ih

theorem Line.MeansExternal.mem_declaredNames {lines : List Line} {line : Line} {target : String}
    (h : line.MeansExternal lines target) : target ∈ declaredNames (Layout.inner lines) := by
  obtain ⟨width, token, reference, literal, numeric, stands⟩ := h
  exact stands.mem_declaredNames

namespace Assembled

variable {first : Line} {body : List Line} {last : Line} {t : Layout} {s : Scan}
  {outs : List Emission} {e : Emitter} {pool : Emission} {address : UInt16} {line : Line}
  {a w : UInt16} {patch : Option Patch} {target : String}

theorem head?_records (h : Assembled first body last t s outs e pool address) :
    (attempt (first :: (body ++ [last]))).records.head? =
      some (.header (segmentName (first :: (body ++ [last]))) t.origin
        (UInt16.ofNat t.length)) := by
  rw [h.records_eq]
  rfl

/-- A word that refers to an external name is patched against that name. -/
theorem patch_of_meansExternal (h : Assembled first body last t s outs e pool address)
    (inner : ∀ line ∈ body, line.operation? ≠ some (.directive .orig))
    (close : last.operation? = some (.directive .end)) (zero : t.origin = 0)
    (hwrite : ⟨line, .record (.text a w patch)⟩ ∈ (attempt (first :: (body ++ [last]))).writes)
    (hmeans : line.MeansExternal (first :: (body ++ [last])) target) :
    ∃ width, patch = some ⟨width, target⟩ := by
  obtain ⟨width, token, reference, literal, numeric, stands⟩ := hmeans
  obtain ⟨out, hout, hmem⟩ | ⟨rfl, -⟩ := h.text_of_mem_writes hwrite
  · obtain ⟨before, after, e₁, e₂, split, behind, step⟩ := h.exists_step_of_mem_zip inner hout
    have hrefers : Refers t (first :: (body ++ [last])) (Layout.inner (first :: (body ++ [last])))
        line ⟨width, target⟩ :=
      .external reference literal numeric stands stands.mem_declaredNames
    refine ⟨width, (h.patch_iff inner zero split behind step hmem).mpr ?_⟩
    exact h.refers_of_step inner split behind step hrefers
  · have hnone : line.reference? = none := by simp [Line.reference?, close]
    rw [hnone] at reference
    cases reference

/-- A word that is patched refers to an external name, or it is patched against the
segment. -/
theorem meansExternal_or_name_eq {p : Patch}
    (h : Assembled first body last t s outs e pool address)
    (inner : ∀ line ∈ body, line.operation? ≠ some (.directive .orig)) (zero : t.origin = 0)
    (hwrite : ⟨line, .record (.text a w (some p))⟩ ∈
      (attempt (first :: (body ++ [last]))).writes) :
    line.MeansExternal (first :: (body ++ [last])) p.name ∨
      p.name = segmentName (first :: (body ++ [last])) := by
  obtain ⟨out, hout, hmem⟩ | ⟨-, hmem⟩ := h.text_of_mem_writes hwrite
  · obtain ⟨before, after, e₁, e₂, split, behind, step⟩ := h.exists_step_of_mem_zip inner hout
    have hrefers := (h.patch_iff inner zero split behind step hmem).mp rfl
    cases hrefers with
    | literal | label => exact .inr rfl
    | external reference literal numeric stands =>
        exact .inl ⟨_, _, reference, literal, numeric, stands⟩
  · have hnone := Layout.patch_eq_none_of_pool h.pooled hmem
    cases hnone

end Assembled

/-- A word of a movable segment that refers to an external name is patched against that
name, which `.EXT` has declared; its patch has the name that is in the header exactly if
the external name is the label of `.ORIG`, padded to six characters.  If no line declares
that name, patches with the name that is in the header are those of words that refer to
no external name. -/
theorem patch_names_segment_iff {lines : List Line} {t : Layout} (segment : IsSegment lines)
    (ok : (attempt lines).outcome = .ok t) (zero : t.origin = 0) :
    ∃ name length, (attempt lines).records.head? = some (.header name 0 length) ∧
      name = segmentName lines ∧
      (∀ line a w patch target, ⟨line, .record (.text a w patch)⟩ ∈ (attempt lines).writes →
        line.MeansExternal lines target →
          target ∈ declaredNames (Layout.inner lines) ∧
            (∃ width, patch = some ⟨width, target⟩) ∧
            ((∃ p, patch = some p ∧ p.name = name) ↔ target = name)) ∧
      (name ∉ declaredNames (Layout.inner lines) → ∀ line a w p,
        ⟨line, .record (.text a w (some p))⟩ ∈ (attempt lines).writes →
          (p.name = name ↔ ¬ ∃ target, line.MeansExternal lines target)) := by
  obtain ⟨first, body, last, orig, inner, close⟩ := segment
  obtain ⟨s, outs, e, pool, address, h⟩ := assembled_of_attempt orig close ok
  have hhead := h.head?_records
  rw [zero] at hhead
  refine ⟨_, _, hhead, rfl, ?_, ?_⟩
  · intro line a w patch target hwrite hmeans
    obtain ⟨width, hpatch⟩ := h.patch_of_meansExternal inner close zero hwrite hmeans
    refine ⟨hmeans.mem_declaredNames, ⟨width, hpatch⟩, ?_⟩
    simp [hpatch]
  · intro hfree line a w p hwrite
    constructor
    · intro hname hmeans
      obtain ⟨target, hmeans⟩ := hmeans
      obtain ⟨width, hpatch⟩ := h.patch_of_meansExternal inner close zero hwrite hmeans
      cases hpatch
      exact hfree (hname ▸ hmeans.mem_declaredNames)
    · intro hmeans
      exact (h.meansExternal_or_name_eq inner zero hwrite).resolve_left fun hexternal =>
        hmeans ⟨_, hexternal⟩

/-- A segment that patches a word against itself and another one against an external name. -/
def bothPatches : List Line :=
  [⟨"PROG", ".ORIG", "", 1, .nowhere⟩,
   ⟨"", ".EXT", "PUTS", 2, .nowhere⟩,
   ⟨"A", ".FILL", "A", 3, .nowhere⟩,
   ⟨"", ".FILL", "PUTS", 4, .nowhere⟩,
   ⟨"", ".END", "", 5, .nowhere⟩]

theorem patch_names_segment_iff_bothPatches :
    ⟨⟨"A", ".FILL", "A", 3, .nowhere⟩, .record (.text 0 0 (some ⟨.sixteen, "PROG  "⟩))⟩ ∈
        (attempt bothPatches).writes ∧
      ¬ ∃ target, Line.MeansExternal bothPatches ⟨"A", ".FILL", "A", 3, .nowhere⟩ target := by
  have segment : IsSegment bothPatches := .intro _ [_, _, _] _ rfl (by decide) rfl
  obtain ⟨t, ok, zero⟩ : ∃ t, (attempt bothPatches).outcome = .ok t ∧ t.origin = 0 :=
    ⟨_, rfl, rfl⟩
  have hwrite : ⟨⟨"A", ".FILL", "A", 3, .nowhere⟩,
      .record (.text 0 0 (some ⟨.sixteen, "PROG  "⟩))⟩ ∈ (attempt bothPatches).writes := by decide
  obtain ⟨name, length, -, rfl, -, hfree⟩ := patch_names_segment_iff segment ok zero
  exact ⟨hwrite, (hfree (by decide) _ _ _ _ hwrite).mp rfl⟩

/-- A segment that declares its own name external. -/
def ownNameExternal : List Line :=
  [⟨"ABCDEF", ".ORIG", "", 1, .nowhere⟩,
   ⟨"", ".EXT", "ABCDEF", 2, .nowhere⟩,
   ⟨"", ".FILL", "ABCDEF", 3, .nowhere⟩,
   ⟨"", ".END", "", 4, .nowhere⟩]

/-- The word that refers to the external name has a patch with the name in the header. -/
theorem external_patch_names_ownNameExternal :
    IsSegment ownNameExternal ∧ IsName "ABCDEF" ∧
      (∃ t, (attempt ownNameExternal).outcome = .ok t ∧ t.origin = 0) ∧
      (attempt ownNameExternal).records.head? = some (.header "ABCDEF" 0 1) ∧
      ¬ ∀ line a w p target,
        ⟨line, .record (.text a w (some p))⟩ ∈ (attempt ownNameExternal).writes →
          line.MeansExternal ownNameExternal target → p.name ≠ "ABCDEF" := by
  refine ⟨.intro _ [_, _] _ rfl (by decide) rfl, by decide, ⟨_, rfl, rfl⟩, by decide, fun h => ?_⟩
  have hmeans : Line.MeansExternal ownNameExternal ⟨"", ".FILL", "ABCDEF", 3, .nowhere⟩
      "ABCDEF" := ⟨.sixteen, "ABCDEF", rfl, rfl, rfl, .declared (by decide)⟩
  exact h _ 0 0 ⟨.sixteen, "ABCDEF"⟩ _ (by decide) hmeans rfl

end PageAsm
