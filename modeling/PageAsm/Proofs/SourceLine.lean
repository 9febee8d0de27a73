import PageAsm.SourceText
import PageAsm.Proofs.Outcome

/-!
# PageAsm.Proofs.SourceLine

Lines and fields as ranges of the source text.  A line is found by counting
newlines, a field by counting bytes in its line:

```
source   front            line             rest
         ... newline      text  returns    newline ...
                          |
         columns          front  lead  field  ...
```

`IsLine` says which characters of a text are its `n`-th line, and the reader's
lines are these (`isLine_of_mem_physicalLines`).  Where there is text in its
columns, a field stands where its span says (`Columns.span_of_raw_ne_nil`), so
the span of every line that is read is in the line (`PhysicalLine.marks_of_read`).
-/

namespace PageAsm

open Outcome

/-! ## boundaries between characters -/

namespace Text

/-- There are `n` bytes up to some character of the text, or up to its end. -/
def IsBoundary (cs : List Char) (n : Nat) : Prop :=
  ∃ front back, cs = front ++ back ∧ byteSize front = n

variable {cs xs ys : List Char} {n : Nat}

theorem isBoundary_zero (cs : List Char) : IsBoundary cs 0 := ⟨[], cs, rfl, rfl⟩

theorem IsBoundary.le (h : IsBoundary cs n) : n ≤ byteSize cs := by
  obtain ⟨front, back, rfl, rfl⟩ := h
  rw [byteSize_append]
  exact Nat.le_add_right _ _

theorem byteSize_eq_zero : byteSize cs = 0 ↔ cs = [] := by
  cases cs with
  | nil => simp
  | cons c cs =>
      have := c.utf8Size_pos
      simp only [byteSize_cons, reduceCtorEq, iff_false]
      omega

/-- Boundaries behind the first part of a text are those of the second part. -/
theorem isBoundary_append_right : IsBoundary (xs ++ ys) (byteSize xs + n) ↔ IsBoundary ys n := by
  constructor
  · intro h
    obtain ⟨front, back, heq, hsize⟩ := h
    obtain ⟨as, rfl, rfl⟩ | ⟨as, rfl, rfl⟩ := List.append_eq_append_iff.mp heq
    · refine ⟨as, back, rfl, ?_⟩
      rw [byteSize_append] at hsize
      omega
    · rw [byteSize_append] at hsize
      have hnil : byteSize as = 0 := by omega
      have hn : n = 0 := by omega
      rw [hn]
      exact isBoundary_zero _
  · intro h
    obtain ⟨front, back, rfl, rfl⟩ := h
    exact ⟨xs ++ front, back, by rw [List.append_assoc], byteSize_append xs front⟩

/-- Boundaries in the first part of a text are those of the text. -/
theorem isBoundary_append_left (h : n ≤ byteSize xs) :
    IsBoundary (xs ++ ys) n ↔ IsBoundary xs n := by
  constructor
  · intro hb
    obtain ⟨front, back, heq, rfl⟩ := hb
    obtain ⟨as, rfl, rfl⟩ | ⟨as, rfl, rfl⟩ := List.append_eq_append_iff.mp heq
    · rw [byteSize_append] at h
      have hnil : as = [] := byteSize_eq_zero.mp (by omega)
      exact ⟨xs, [], by simp, by simp [hnil]⟩
    · exact ⟨front, as, rfl, rfl⟩
  · intro hb
    obtain ⟨front, back, rfl, rfl⟩ := hb
    exact ⟨front, back ++ ys, by rw [List.append_assoc], rfl⟩

/-! ## cutting -/

/-- The text in front of a character that it does not hold. -/
theorem takeWhile_ne {c : Char} (hxs : c ∉ xs) (hys : ys = [] ∨ ys.head? = some c) :
    (xs ++ ys).takeWhile (· != c) = xs := by
  rw [List.takeWhile_append_of_pos (by grind)]
  obtain rfl | hhead := hys
  · simp
  · obtain ⟨tail, rfl⟩ := List.head?_eq_some_iff.mp hhead
    simp

theorem dropWhile_ne {c : Char} (hxs : c ∉ xs) (hys : ys = [] ∨ ys.head? = some c) :
    (xs ++ ys).dropWhile (· != c) = ys := by
  have hsplit := List.takeWhile_append_dropWhile (p := (· != c)) (l := xs ++ ys)
  rw [takeWhile_ne hxs hys] at hsplit
  exact List.append_cancel_left hsplit

/-- A cut that succeeds drops exactly `n` bytes. -/
theorem append_of_dropBytes? (h : dropBytes? cs n = some ys) :
    ∃ xs, cs = xs ++ ys ∧ byteSize xs = n := by
  induction cs generalizing n with
  | nil =>
      cases n with
      | zero =>
          cases h
          exact ⟨[], rfl, rfl⟩
      | succ n => cases h
  | cons c cs ih =>
      cases n with
      | zero =>
          cases h
          exact ⟨[], rfl, rfl⟩
      | succ n =>
          rw [dropBytes?] at h
          split at h
          · next hle =>
            obtain ⟨xs, rfl, hsize⟩ := ih h
            refine ⟨c :: xs, rfl, ?_⟩
            rw [byteSize_cons]
            omega
          · cases h

/-- A column that is not empty starts at its first byte, and goes to its last one or to the end
of the text. -/
theorem append_of_column {start stop : Nat} (h : column cs start stop ≠ []) :
    ∃ front back, cs = front ++ (column cs start stop ++ back) ∧ byteSize front = start ∧
      byteSize (front ++ column cs start stop) = min stop (byteSize cs) := by
  unfold column at h ⊢
  cases hslice : slice? cs (min start (min stop (byteSize cs))) (min stop (byteSize cs)) with
  | none =>
      simp only [hslice, Option.getD_none, ne_eq, not_true] at h
  | some field =>
      simp only [hslice, Option.getD_some] at h ⊢
      obtain ⟨rest, hdrop, htake⟩ := Option.bind_eq_some_iff.mp hslice
      obtain ⟨front, rfl, hfront⟩ := append_of_dropBytes? hdrop
      obtain ⟨⟨back, rfl⟩, hfield⟩ := takeBytes?_eq_some_iff.mp htake
      have hpos : byteSize field ≠ 0 := fun hzero => h (byteSize_eq_zero.mp hzero)
      refine ⟨front, back, rfl, ?_, ?_⟩
      · omega
      · rw [byteSize_append]
        omega

/-- Trimming takes off blanks on both sides. -/
theorem append_of_trim (cs : List Char) :
    ∃ lead trail, cs = lead ++ (trim cs ++ trail) ∧
      byteSize cs - byteSize (trimStart cs) = byteSize lead := by
  obtain ⟨trail, htrail⟩ := dropEndWhile_isPrefix isBlank (trimStart cs)
  have hcs : cs.takeWhile isBlank ++ trimStart cs = cs := List.takeWhile_append_dropWhile
  refine ⟨cs.takeWhile isBlank, trail, ?_, ?_⟩
  · rw [trim, trimEnd, htrail, hcs]
  · have hsize := congrArg byteSize hcs
    rw [byteSize_append] at hsize
    omega

end Text

namespace SourceText

/-! ## fields -/

/-- Code without its comment is an initial part of the line. -/
theorem stripComment_isPrefix (quoted : Bool) (cs : List Char) : stripComment quoted cs <+: cs := by
  induction cs generalizing quoted with
  | nil => exact List.nil_prefix
  | cons c cs ih =>
      rw [stripComment]
      split
      · exact List.cons_prefix_cons.mpr ⟨rfl, ih _⟩
      · split
        · exact List.nil_prefix
        · exact List.cons_prefix_cons.mpr ⟨rfl, ih _⟩

namespace Columns

variable {cols : Columns} {code : List Char}

theorem raw_ne_nil (h : cols.field code ≠ []) : cols.raw code ≠ [] := by
  intro hraw
  rw [field, hraw] at h
  exact h rfl

theorem span_of_raw_eq_nil (h : cols.raw code = []) (start : Nat) :
    cols.span code start = ⟨start + cols.start, 0⟩ := by
  simp only [span, field, h]
  rfl

/-- Where there is text in the columns, the span of the field is where the field stands. -/
theorem span_of_raw_ne_nil (h : cols.raw code ≠ []) (start : Nat) :
    ∃ front lead back, code = front ++ (lead ++ (cols.field code ++ back)) ∧
      Text.byteSize front = cols.start ∧
      cols.span code start =
        ⟨start + Text.byteSize (front ++ lead), Text.byteSize (cols.field code)⟩ := by
  obtain ⟨front, back, hcode, hfront, -⟩ := Text.append_of_column h
  obtain ⟨lead, trail, hraw, hlead⟩ := Text.append_of_trim (cols.raw code)
  refine ⟨front, lead, trail ++ back, ?_, hfront, ?_⟩
  · rw [raw] at hraw
    rw [hraw] at hcode
    simpa only [field, raw, List.append_assoc] using hcode
  · simp only [span, hlead, Text.byteSize_append, hfront, Nat.add_assoc]

end Columns

/-! ## lines -/

/-- The `n`-th line of a text: `front` is what stands in front of it, `text` the line itself
without its terminator. -/
structure IsLine (source : List Char) (n : Nat) (front text : List Char) : Prop where
  starts : front = [] ∨ front.getLast? = some '\n'
  number : front.count '\n' + 1 = n
  ends : ∃ line rest, source = front ++ (line ++ rest) ∧ '\n' ∉ line ∧
    (rest = [] ∨ rest.head? = some '\n') ∧ text = Text.dropEndWhile isTerminator line

variable {source front front' text text' : List Char} {n : Nat}

/-- Of two fronts with as many newlines, none goes on behind the other. -/
theorem eq_of_isPrefix_of_count (hfront : front <+: front')
    (hcount : front.count '\n' = front'.count '\n')
    (hstarts : front' = [] ∨ front'.getLast? = some '\n') : front = front' := by
  obtain ⟨more, rfl⟩ := hfront
  cases more.eq_nil_or_concat with
  | inl hnil => rw [hnil, List.append_nil]
  | inr hmore =>
      -- what goes on ends with a newline, which is one more
      obtain ⟨init, c, rfl⟩ := hmore
      rw [List.concat_eq_append, ← List.append_assoc, List.getLast?_concat] at hstarts
      have hc : c = '\n' := by simpa using hstarts
      simp [hc] at hcount

/-- A text has one `n`-th line. -/
theorem IsLine.unique (h : IsLine source n front text) (h' : IsLine source n front' text') :
    front' = front ∧ text' = text := by
  obtain ⟨line, rest, hsource, hline, hrest, rfl⟩ := h.ends
  obtain ⟨line', rest', hsource', hline', hrest', rfl⟩ := h'.ends
  have hcount : front'.count '\n' = front.count '\n' := by
    have := h.number
    have := h'.number
    omega
  have hfront : front' = front := by
    have hp : front <+: source := ⟨_, hsource.symm⟩
    have hp' : front' <+: source := ⟨_, hsource'.symm⟩
    obtain hle | hle := List.prefix_or_prefix_of_prefix hp' hp
    · exact eq_of_isPrefix_of_count hle hcount h.starts
    · exact (eq_of_isPrefix_of_count hle hcount.symm h'.starts).symm
  subst hfront
  -- both lines go up to the next newline
  have hrests := congrArg (List.takeWhile (· != '\n'))
    (List.append_cancel_left (hsource.symm.trans hsource'))
  rw [Text.takeWhile_ne hline hrest, Text.takeWhile_ne hline' hrest'] at hrests
  exact ⟨rfl, by rw [hrests]⟩

/-- The boundaries in a line are those of the text. -/
theorem IsLine.isBoundary_iff {k : Nat} (h : IsLine source n front text)
    (hle : k ≤ Text.byteSize text) :
    Text.IsBoundary source (Text.byteSize front + k) ↔ Text.IsBoundary text k := by
  obtain ⟨line, rest, rfl, -, -, htext⟩ := h.ends
  obtain ⟨terminator, rfl⟩ : text <+: line := by
    rw [htext]
    exact Text.dropEndWhile_isPrefix isTerminator line
  rw [Text.isBoundary_append_right, List.append_assoc, Text.isBoundary_append_left hle]

/-! ## the lines that are read -/

/-- Pieces of a text that end with a newline each, but for the last one. -/
inductive AreLines : List (List Char) → Prop where
  | nil : AreLines []
  | last {line : List Char} (newline : '\n' ∉ line) : AreLines [line]
  | cons {line : List Char} {pieces : List (List Char)} (newline : '\n' ∉ line)
      (rest : AreLines pieces) : AreLines ((line ++ ['\n']) :: pieces)

theorem areLines_lines (cs : List Char) : AreLines (Text.lines cs) := by
  induction cs with
  | nil => exact .nil
  | cons c cs ih =>
      rw [show Text.lines (c :: cs) =
        if c = '\n' then [c] :: Text.lines cs else Text.consFirst c (Text.lines cs) from rfl]
      split
      · next hc =>
        subst hc
        exact .cons List.not_mem_nil ih
      · next hc =>
        have hnot : ∀ {line : List Char}, '\n' ∉ line → '\n' ∉ c :: line := by
          intro line hline hmem
          cases hmem with
          | head => exact hc rfl
          | tail _ hmem => exact hline hmem
        generalize Text.lines cs = pieces at ih
        cases ih with
        | nil => exact .last (hnot List.not_mem_nil)
        | last newline => exact .last (hnot newline)
        | cons newline rest => exact .cons (hnot newline) rest

/-- Numbered lines are lines of the text, with the numbers and offsets they have there. -/
theorem isLine_of_mem_numberLines (front : List Char) {pieces : List (List Char)}
    {p : PhysicalLine} (h : AreLines pieces) (starts : front = [] ∨ front.getLast? = some '\n')
    (hmem : p ∈ numberLines (front.count '\n' + 1) (Text.byteSize front) pieces) :
    ∃ front', IsLine (front ++ pieces.flatten) p.number front' p.text ∧
      p.start = Text.byteSize front' := by
  induction h generalizing front with
  | nil => cases hmem
  | @last line newline =>
      rw [numberLines, numberLines, List.mem_singleton] at hmem
      subst hmem
      exact ⟨front, ⟨starts, rfl, line, [], by simp, newline, .inl rfl, rfl⟩, rfl⟩
  | @cons line pieces newline rest ih =>
      rw [numberLines] at hmem
      cases hmem with
      | head =>
          refine ⟨front, ⟨starts, rfl, line, '\n' :: pieces.flatten, by simp, newline, .inr rfl,
            ?_⟩, rfl⟩
          exact (Text.dropEndWhile_concat isTerminator line '\n').trans (if_pos rfl)
      | tail _ hmem =>
          -- the lines that follow are those of the text behind this one
          have hcount : (front ++ (line ++ ['\n'])).count '\n' = front.count '\n' + 1 := by
            simp [List.count_eq_zero.mpr newline]
          rw [← hcount, ← Text.byteSize_append] at hmem
          obtain ⟨front', hline, hstart⟩ := ih _ (.inr (by simp)) hmem
          rw [List.append_assoc] at hline
          exact ⟨front', hline, hstart⟩

theorem isLine_of_mem_physicalLines {p : PhysicalLine} (h : p ∈ physicalLines source) :
    ∃ front, IsLine source p.number front p.text ∧ p.start = Text.byteSize front := by
  have hline := isLine_of_mem_numberLines [] (areLines_lines source) (.inl rfl) h
  rw [List.nil_append, Text.flatten_lines] at hline
  exact hline

/-- The span covers whole characters of the line. -/
def PhysicalLine.Marks (p : PhysicalLine) (s : Span) : Prop :=
  ∃ column, s.offset = p.start + column ∧ Text.IsBoundary p.text column ∧
    Text.IsBoundary p.text (column + s.length)

namespace PhysicalLine

variable {p : PhysicalLine}

/-- An empty span is in the line if it is between two characters. -/
theorem marks_empty_iff {n : Nat} : p.Marks ⟨p.start + n, 0⟩ ↔ Text.IsBoundary p.text n := by
  constructor
  · intro h
    obtain ⟨column, hoffset, hboundary, -⟩ := h
    rw [Nat.add_left_cancel hoffset]
    exact hboundary
  · intro h
    exact ⟨n, rfl, h, h⟩

/-- The code of the line, without its comment. -/
def code (p : PhysicalLine) : List Char := stripComment false p.text

theorem read_eq (p : PhysicalLine) : p.read = readFields p.code p.start p.number := rfl

/-- A field of the code is marked where there is text in its columns. -/
theorem marks_of_raw_ne_nil {cols : Columns} (h : cols.raw p.code ≠ []) :
    p.Marks (cols.span p.code p.start) ∧ Text.IsBoundary p.text cols.start := by
  obtain ⟨front, lead, back, hcode, hfront, hspan⟩ := cols.span_of_raw_ne_nil h p.start
  obtain ⟨comment, htext⟩ := stripComment_isPrefix false p.text
  change p.code ++ comment = p.text at htext
  rw [hcode] at htext
  constructor
  · refine ⟨Text.byteSize (front ++ lead), ?_, ?_, ?_⟩
    · rw [hspan]
    · exact ⟨front ++ lead, cols.field p.code ++ back ++ comment, by simp [← htext], rfl⟩
    · rw [hspan]
      exact ⟨front ++ lead ++ cols.field p.code, back ++ comment, by simp [← htext],
        Text.byteSize_append _ _⟩
  · exact ⟨front, lead ++ (cols.field p.code ++ back) ++ comment, by simp [← htext], hfront⟩

theorem marks_of_field_ne_nil {cols : Columns} (h : cols.field p.code ≠ []) :
    p.Marks (cols.span p.code p.start) :=
  (marks_of_raw_ne_nil (Columns.raw_ne_nil h)).1

theorem field_ne_nil_of_parse? {operation : Operation}
    (h : Operation.parse? (String.ofList (Columns.operation.field p.code)) = some operation) :
    Columns.operation.field p.code ≠ [] := by
  intro hnil
  rw [hnil] at h
  cases h

/-- A line that is read has its operation in the right place, and its span is in the
line. -/
theorem marks_of_read {line : Line} (h : p.read = .ok line) :
    line.number = p.number ∧ p.Marks line.span ∧ Text.IsBoundary p.text 9 := by
  rw [read_eq, readFields] at h
  split at h
  · cases h
  · split at h
    · cases h
    · dsimp only at h
      split at h
      · cases h
      · next operation hparse =>
        cases h
        have hraw := Columns.raw_ne_nil (field_ne_nil_of_parse? hparse)
        obtain ⟨hmarks, hboundary⟩ := marks_of_raw_ne_nil hraw
        refine ⟨rfl, ?_, hboundary⟩
        dsimp only
        split
        · exact hmarks
        · next hoperands => exact marks_of_field_ne_nil hoperands

/-- A diagnostic about a line is in the line, unless the line has no operation and is cut
off in front of the column where that has to stand, or in the middle of a character. -/
theorem marks_iff_of_read {d : Diagnostic} (h : p.read = .error d) :
    d.number = some p.number ∧ d.labels ≠ [] ∧
      (p.Marks d.span ↔ ¬ (d.cause = .unknownOperation "" ∧ ¬ Text.IsBoundary p.text 9)) := by
  rw [read_eq, readFields] at h
  split at h
  · next hgap =>
    cases h
    refine ⟨rfl, List.cons_ne_nil _ _, ?_⟩
    exact iff_of_true (marks_of_field_ne_nil hgap) fun hcause => nomatch hcause.1
  · split at h
    · next hgap =>
      cases h
      refine ⟨rfl, List.cons_ne_nil _ _, ?_⟩
      exact iff_of_true (marks_of_field_ne_nil hgap) fun hcause => nomatch hcause.1
    · dsimp only at h
      split at h
      · next hparse =>
        cases h
        refine ⟨rfl, List.cons_ne_nil _ _, ?_⟩
        by_cases hraw : Columns.operation.raw p.code = []
        · have hfield : Columns.operation.field p.code = [] := by
            rw [Columns.field, hraw]
            rfl
          rw [hfield, Columns.span_of_raw_eq_nil hraw]
          simp only [Columns.operation, marks_empty_iff, String.ofList_nil, true_and,
            Classical.not_not]
        · obtain ⟨hmarks, hboundary⟩ := marks_of_raw_ne_nil hraw
          exact iff_of_true hmarks fun hcause => hcause.2 hboundary
      · cases h

end PhysicalLine

/-- Lines that are read come from lines of the text. -/
theorem exists_read_of_mem {ps : List PhysicalLine} {lines : List Line} {line : Line}
    (h : readLines ps = .ok lines) (hmem : line ∈ lines) : ∃ p ∈ ps, p.read = .ok line := by
  induction ps generalizing lines with
  | nil =>
      cases h
      cases hmem
  | cons p ps ih =>
      rw [readLines] at h
      split at h
      · obtain ⟨other, hother, hread⟩ := ih h hmem
        exact ⟨other, List.mem_cons_of_mem _ hother, hread⟩
      · simp only [bind_eq_ok, pure_eq_ok] at h
        obtain ⟨first, hfirst, rest, hrest, rfl⟩ := h
        cases hmem with
        | head => exact ⟨p, List.mem_cons_self, hfirst⟩
        | tail _ hmem =>
            obtain ⟨other, hother, hread⟩ := ih hrest hmem
            exact ⟨other, List.mem_cons_of_mem _ hother, hread⟩

/-- Lines that cannot be read have one that cannot. -/
theorem exists_read_of_error {ps : List PhysicalLine} {d : Diagnostic}
    (h : readLines ps = .error d) : ∃ p ∈ ps, p.read = .error d := by
  induction ps with
  | nil => cases h
  | cons p ps ih =>
      have hlater : readLines ps = .error d → ∃ q ∈ p :: ps, q.read = .error d := by
        intro hrest
        obtain ⟨q, hmem, hq⟩ := ih hrest
        exact ⟨q, List.mem_cons_of_mem _ hmem, hq⟩
      rw [readLines] at h
      split at h
      · exact hlater h
      · cases hp : p.read with
        | error d' =>
            rw [hp] at h
            cases h
            exact ⟨p, List.mem_cons_self, hp⟩
        | ok line =>
            rw [hp] at h
            cases hps : readLines ps with
            | error d' =>
                rw [hps] at h
                cases h
                exact hlater hps
            | ok lines =>
                rw [hps] at h
                cases h

end SourceText

end PageAsm
