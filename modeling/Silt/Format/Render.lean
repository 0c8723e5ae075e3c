import Mathlib.Algebra.Ring.Nat
import Mathlib.Data.List.Perm.Basic
import Silt.Format.Doc
import Silt.Lib.Patchwork

/-!
# What the renderer writes

The output of `render` is put together from patches: every text and comment of the branches that
are taken is one of them, and between them there are only spaces and line breaks.  A text or comment
is whole but for spaces at its start where its line starts and at its end where its line ends.
Texts and inline comments stand in the order of the document, and what runs to the end of its line
is directly followed by a line break.

## Main definitions

* `Leaf`, `taken` : the texts and comments of the branches taken, as the loop meets them.
* `Taken` : the texts and comments of a document, for some choice of the groups that break.
* `Laid` : how the patches stand for the texts and comments.
* `Held` : what the renderer keeps.

## Main results

* `taken_spec` : the loop meets the texts and comments of the document in its order.
* `render_spec` : the output is laid out from what is taken.
-/

namespace Silt.Format

open List

open Lib.Patchwork

/-- A text or a comment of the document. -/
inductive Leaf
  | text (text : List Char)
  | comment (text : List Char)
  | suffix (text : List Char)
  | ownLine (text : List Char)
deriving DecidableEq

namespace Leaf

def chars : Leaf → List Char
  | text t | comment t | suffix t | ownLine t => t

/-- Whether it stands in the line, and does not run to its end. -/
def inline : Leaf → Bool
  | text _ | comment _ => true
  | suffix _ | ownLine _ => false

end Leaf

variable {leaves : List Leaf}

/-- The text or comment a document is. -/
def Doc.leaf : Doc → List Leaf
  | .text t => [.text t]
  | .comment t => [.comment t]
  | .lineSuffix t => [.suffix t]
  | .ownLine t => [.ownLine t]
  | _ => []

/-- The texts and comments the loop meets. -/
def met : Nat → List Cmd → Renderer → List Leaf
  | 0, _, _ => []
  | _ + 1, [], _ => []
  | fuel + 1, cmd :: stack, r =>
    cmd.doc.leaf ++ met fuel ((r.visit cmd stack).2 ++ stack) (r.visit cmd stack).1

/-- The texts and comments of the branches taken. -/
def taken (doc : Doc) (width : Nat) : List Leaf :=
  met doc.size [⟨0, .brk, doc⟩] { width }

/-! ### The branches -/

mutual

/-- The texts and comments of a document in a group of the mode: every group inside breaks or does
not, and one with a forced break does. -/
inductive Taken : Mode → Doc → List Leaf → Prop
  | text {mode : Mode} {t : List Char} : Taken mode (.text t) [.text t]
  | comment {mode : Mode} {t : List Char} : Taken mode (.comment t) [.comment t]
  | lineSuffix {mode : Mode} {t : List Char} : Taken mode (.lineSuffix t) [.suffix t]
  | ownLine {mode : Mode} {t : List Char} : Taken mode (.ownLine t) [.ownLine t]
  | nil {mode : Mode} : Taken mode .nil []
  | line {mode : Mode} : Taken mode .line []
  | softLine {mode : Mode} : Taken mode .softLine []
  | hardLine {mode : Mode} : Taken mode .hardLine []
  | blankLine {mode : Mode} : Taken mode .blankLine []
  | settle {mode : Mode} : Taken mode .settle []
  | group {mode mode' : Mode} {inner : Doc} {forced : Bool} {leaves : List Leaf}
      (hforced : forced → mode' = .brk) (h : Taken mode' inner leaves) :
      Taken mode (.group inner forced) leaves
  | nest {mode : Mode} {inner : Doc} {leaves : List Leaf} (h : Taken mode inner leaves) :
      Taken mode (.nest inner) leaves
  | concat {mode : Mode} {parts : List Doc} {leaves : List Leaf} (h : TakenAll mode parts leaves) :
      Taken mode (.concat parts) leaves
  | broken {broken flat : Doc} {leaves : List Leaf} (h : Taken .brk broken leaves) :
      Taken .brk (.ifBreak broken flat) leaves
  | flat {broken flat : Doc} {leaves : List Leaf} (h : Taken .flat flat leaves) :
      Taken .flat (.ifBreak broken flat) leaves

inductive TakenAll : Mode → List Doc → List Leaf → Prop
  | nil {mode : Mode} : TakenAll mode [] []
  | cons {mode : Mode} {doc : Doc} {docs : List Doc} {leaves leaves' : List Leaf}
      (h : Taken mode doc leaves) (hs : TakenAll mode docs leaves') :
      TakenAll mode (doc :: docs) (leaves ++ leaves')

end

/-- The texts and comments of the documents on the stack, from the top. -/
inductive TakenStack : List Cmd → List Leaf → Prop
  | nil : TakenStack [] []
  | cons {cmd : Cmd} {stack : List Cmd} {leaves leaves' : List Leaf}
      (h : Taken cmd.mode cmd.doc leaves) (hs : TakenStack stack leaves') :
      TakenStack (cmd :: stack) (leaves ++ leaves')

def stackSize (stack : List Cmd) : Nat :=
  (stack.map fun cmd => cmd.doc.size).sum

theorem TakenStack.of_append {pushed stack : List Cmd} (h : TakenStack (pushed ++ stack) leaves) :
    ∃ first rest, leaves = first ++ rest ∧ TakenStack pushed first ∧ TakenStack stack rest := by
  induction pushed generalizing leaves with
  | nil => exact ⟨[], leaves, rfl, .nil, h⟩
  | cons cmd pushed ih =>
    cases h with
    | @cons _ _ leaves leaves' hc hs =>
      obtain ⟨first, rest, rfl, hp, hst⟩ := ih hs
      exact ⟨leaves ++ first, rest, (append_assoc _ _ _).symm, .cons hc hp, hst⟩

theorem takenAll_of_stack {indent : Nat} {mode : Mode} {parts : List Doc}
    (h : TakenStack (parts.map fun part => ⟨indent, mode, part⟩) leaves) :
    TakenAll mode parts leaves := by
  induction parts generalizing leaves with
  | nil =>
    cases h
    exact .nil
  | cons part parts ih =>
    cases h with
    | cons hp hs => exact .cons hp (ih hs)

theorem taken_of_single {cmd : Cmd} (h : TakenStack [cmd] leaves) :
    Taken cmd.mode cmd.doc leaves := by
  cases h with
  | cons hc hs =>
    cases hs
    simpa using hc

/-- What a document puts on the stack holds its texts and comments, if it is not one itself. -/
theorem taken_of_visit (r : Renderer) (cmd : Cmd) (stack : List Cmd)
    (h : TakenStack (r.visit cmd stack).2 leaves) :
    Taken cmd.mode cmd.doc (cmd.doc.leaf ++ leaves) := by
  obtain ⟨indent, mode, doc⟩ := cmd
  have hd : TakenStack [] leaves → leaves = [] := by
    rintro ⟨⟩
    rfl
  cases doc with
  | nil | line | softLine | hardLine | blankLine | settle | text t | comment t | lineSuffix t
  | ownLine t =>
    rw [hd h]
    constructor
  | group inner forced =>
    refine .group ?_ (taken_of_single h)
    intro hf
    simp [hf]
  | nest inner => exact .nest (taken_of_single h)
  | concat parts => exact .concat (takenAll_of_stack h)
  | ifBreak broken flat =>
    have ht := taken_of_single h
    cases mode with
    | brk => exact .broken ht
    | flat => exact .flat ht

theorem sizes_eq (indent : Nat) (mode : Mode) (parts : List Doc) :
    stackSize (parts.map fun part => ⟨indent, mode, part⟩) = Doc.sizes parts := by
  induction parts with
  | nil => rfl
  | cons part parts ih =>
    rw [map_cons, Doc.sizes, ← ih]
    rfl

theorem stackSize_visit_lt (r : Renderer) (cmd : Cmd) (stack : List Cmd) :
    stackSize (r.visit cmd stack).2 < cmd.doc.size := by
  obtain ⟨indent, mode, doc⟩ := cmd
  cases doc with
  | concat parts =>
    change stackSize (parts.map fun part => ⟨indent, mode, part⟩) < Doc.sizes parts + 1
    rw [sizes_eq]
    exact Nat.lt_succ_self _
  | ifBreak broken flat =>
    cases mode with
    | flat => exact Nat.lt_succ_of_le (Nat.le_add_left _ _)
    | brk => exact Nat.lt_succ_of_le (Nat.le_add_right _ _)
  | _ => simp [Renderer.visit, stackSize, Doc.size]

/-- With a step for each node, the loop meets the texts and comments of the whole stack. -/
theorem met_spec (fuel : Nat) {stack : List Cmd} (r : Renderer) (hfl : stackSize stack ≤ fuel) :
    TakenStack stack (met fuel stack r) := by
  induction fuel generalizing stack r with
  | zero =>
    cases stack with
    | nil => exact .nil
    | cons cmd stack =>
      have hp := stackSize_visit_lt r cmd stack
      simp only [stackSize, map_cons, sum_cons] at hfl hp
      omega
  | succ fuel ih =>
    cases stack with
    | nil => exact .nil
    | cons cmd stack =>
      have hl := stackSize_visit_lt r cmd stack
      have hn := @ih ((r.visit cmd stack).2 ++ stack) (r.visit cmd stack).1 (by
        simp only [stackSize, map_append, map_cons, sum_append, sum_cons] at hfl hl ⊢
        omega)
      obtain ⟨first, rest, heq, hf, hr⟩ := hn.of_append
      rw [met, heq, ← append_assoc]
      exact .cons (taken_of_visit r cmd stack hf) hr

/-- The loop meets the texts and comments of the document in its order, in the branches of the
groups that it breaks and of those it does not. -/
theorem taken_spec (doc : Doc) (width : Nat) : Taken .brk doc (taken doc width) := by
  have hm : TakenStack [⟨0, .brk, doc⟩] (taken doc width) :=
    met_spec doc.size { width } (by simp [stackSize])
  exact taken_of_single hm

/-! ### Patches of the output -/

/-- A part of the output. -/
abbrev Piece : Type := Patch Leaf Char

variable {ps : List Piece}

/-- The lines of the output.  What does not stand in the line runs to its end. -/
def outputLines : Lines Leaf Char where
  mark := (· == '\n')
  blank := (· == ' ')
  closing leaf := !leaf.inline
  mark_of_blank b h := by
    obtain rfl : b = ' ' := by simpa using h
    rfl

/-- What a part of the output shows: a gap is spaces and line breaks.  A text or comment may have
lost spaces at its start if only spaces are before it on its line, and spaces at its end if only
spaces are behind it, up to the end of the line or a comment that runs to it. -/
def Shows (starts ends : Bool) (p : Piece) : Prop :=
  match p.source with
  | none => ∀ c ∈ p.shown, c = ' ' ∨ c = '\n'
  | some leaf => ∃ a b, leaf.chars = spaces a ++ p.shown ++ spaces b ∧
      (0 < a → starts = true) ∧ (0 < b → ends = true)

/-- Parts that show what they should, and what runs to the end of its line directly followed by a
line break, given whether the first starts a line, and what comes after. -/
structure Fine (starts : Bool) (after pieces : List Piece) : Prop where
  shows : outputLines.Placed Shows starts (outputLines.endsAll false after) pieces
  followed : outputLines.Followed (text after) pieces

/-- How the output is put together from the texts and comments. -/
structure Laid (leaves : List Leaf) (pieces : List Piece) : Prop where
  /-- with nothing but spaces and line breaks between them -/
  fine : Fine true [] pieces
  /-- each exactly once -/
  once : (sources pieces).Perm leaves
  /-- the texts and inline comments in the order of the document -/
  order : (sources pieces).filter Leaf.inline = leaves.filter Leaf.inline

theorem exists_eq_spaces {text : List Char} (h : ∀ c ∈ text, (c == ' ') = true) :
    ∃ n, text = spaces n :=
  ⟨text.length, eq_replicate_iff.mpr ⟨rfl, fun c hc => by simpa using h c hc⟩⟩

theorem spaces_add (a b : Nat) : spaces (a + b) = spaces a ++ spaces b := replicate_add a b ' '

theorem Shows.mono {starts ends : Bool} {p : Piece} (h : Shows starts ends p) :
    Shows starts true p := by
  unfold Shows at h ⊢
  grind

/-- A part may lose the spaces at its start where its line starts, and those at its end where its
line ends. -/
theorem wears_shows : Wears outputLines Shows where
  mono := Shows.mono
  dropEnd {_ p} h := by
    have hp : p.shown.rdropWhile (· == ' ') ++ p.shown.rtakeWhile (· == ' ') = p.shown :=
      rdropWhile_append_rtakeWhile
    cases hs : p.source with
    | none =>
      simp only [Shows, hs] at h ⊢
      exact fun c hc => h c (hp ▸ mem_append_left _ hc)
    | some leaf =>
      simp only [Shows, hs] at h ⊢
      obtain ⟨a, b, hch, ha, -⟩ := h
      obtain ⟨n, hn⟩ : ∃ n, p.shown.rtakeWhile (· == ' ') = spaces n :=
        exists_eq_spaces fun _ => mem_rtakeWhile_imp (p := (· == ' '))
      refine ⟨a, n + b, ?_, ha, fun _ => trivial⟩
      rw [hch, spaces_add, ← hn]
      conv_lhs => rw [← hp]
      simp only [append_assoc]
      rfl
  dropStart {_ _ p} h := by
    have hp : p.shown.takeWhile (· == ' ') ++ p.shown.dropWhile (· == ' ') = p.shown :=
      takeWhile_append_dropWhile
    cases hs : p.source with
    | none =>
      simp only [Shows, hs] at h ⊢
      exact fun c hc => h c (hp ▸ mem_append_right _ hc)
    | some leaf =>
      simp only [Shows, hs] at h ⊢
      obtain ⟨a, b, hch, -, hb⟩ := h
      obtain ⟨n, hn⟩ : ∃ n, p.shown.takeWhile (· == ' ') = spaces n :=
        exists_eq_spaces fun _ => mem_takeWhile_imp (p := (· == ' '))
      refine ⟨a + n, b, ?_, fun _ => trivial, hb⟩
      rw [hch, spaces_add, ← hn]
      conv_lhs => rw [← hp]
      simp only [append_assoc]
      rfl

/-- A gap of the output. -/
def gap (text : List Char) : Piece := ⟨none, text⟩

/-- A text or comment, whole. -/
def whole (leaf : Leaf) : Piece := ⟨some leaf, leaf.chars⟩

/-- A line break. -/
abbrev lineBreak : Piece := gap ['\n']

section

variable {starts ends : Bool}

theorem shows_whole (leaf : Leaf) : Shows starts ends (whole leaf) :=
  ⟨0, 0, by simp [whole, spaces], by simp, by simp⟩

theorem shows_spaces (n : Nat) : Shows starts ends (gap (spaces n)) := by
  intro c hc
  exact .inl (eq_of_mem_replicate hc)

theorem shows_lineBreak : Shows starts ends lineBreak := by
  intro c hc
  exact .inr (mem_singleton.mp hc)

theorem starts_spaces (n : Nat) : outputLines.starts starts (spaces n) = starts :=
  starts_blanks fun c hc => by simp [outputLines, eq_of_mem_replicate hc]

theorem ends_spaces (n : Nat) : outputLines.ends ends (spaces n) = ends :=
  ends_blanks fun c hc => by simp [outputLines, eq_of_mem_replicate hc]

end

namespace Fine

variable {starts : Bool} {after ps qs : List Piece}

theorem mono (h : Fine starts [] ps) : Fine starts after ps :=
  ⟨wears_shows.placed_mono (by simp [Lines.endsAll]) h.shows, h.followed.congr (by simp)⟩

theorem append_iff :
    Fine starts after (ps ++ qs) ↔
      Fine starts (qs ++ after) ps ∧ Fine (outputLines.starts starts (text ps)) after qs := by
  constructor
  · rintro ⟨hs, hf⟩
    rw [placed_append] at hs
    rw [followed_append] at hf
    refine ⟨⟨?_, ?_⟩, hs.2, hf.2⟩
    · rw [endsAll_append]
      exact hs.1
    · rw [text_append]
      exact hf.1
  · rintro ⟨⟨hs, hf⟩, hqs⟩
    rw [endsAll_append] at hs
    rw [text_append] at hf
    exact ⟨placed_append.mpr ⟨hs, hqs.shows⟩, followed_append.mpr ⟨hf, hqs.followed⟩⟩

theorem append (h : Fine starts (qs ++ after) ps)
    (hqs : Fine (outputLines.starts starts (text ps)) after qs) : Fine starts after (ps ++ qs) :=
  append_iff.mpr ⟨h, hqs⟩

/-- A part that does not run to the end of its line. -/
theorem single {p : Piece} (h : Shows starts (outputLines.endsAll false after) p)
    (hp : ∀ leaf, p.source = some leaf → leaf.inline = true) : Fine starts after [p] := by
  refine ⟨⟨h, trivial⟩, followed_of_not fun leaf hl => ?_⟩
  have hi := hp leaf (by simpa using hl)
  simp [outputLines, hi]

theorem gap_single {l : List Char} (h : ∀ {starts ends}, Shows starts ends (gap l)) :
    Fine starts after [gap l] :=
  single h (by simp [gap])

theorem whole_single (leaf : Leaf) : Fine starts (lineBreak :: after) [whole leaf] :=
  ⟨⟨shows_whole leaf, trivial⟩, fun _ => rfl, trivial⟩

theorem trimEnd (h : Fine starts after ps) (ha : outputLines.endsAll false after = true) :
    Fine starts after (outputLines.dropEnd ps) := by
  refine ⟨?_, followed_dropEnd h.followed⟩
  have hs := h.shows
  rw [ha] at hs ⊢
  exact wears_shows.placed_dropEnd hs

theorem ended (h : Fine starts [lineBreak] ps) :
    Fine starts [] (outputLines.dropEnd ps ++ [lineBreak]) :=
  append (h.trimEnd rfl) (gap_single shows_lineBreak)

/-- The parts of a line none of which runs to its end, without the spaces at the start where the
line starts. -/
theorem trimStart (h : Fine starts [] ps) (hi : ∀ leaf ∈ sources ps, leaf.inline = true) :
    Fine true after (outputLines.dropStart ps) := by
  refine mono ⟨wears_shows.placed_dropStart h.shows, followed_of_not fun leaf hl => ?_⟩
  rw [sources_dropStart] at hl
  simp [outputLines, hi leaf hl]

end Fine

/-! ### What the renderer keeps -/

/-- What waits: nothing, or one comment that was met behind `done`; then the line is not closed, and
what was written since is of one line. -/
def Waits (r : Renderer) (done behind : List Piece) : Prop :=
  (r.suffixes = [] ∧ behind = []) ∨
    ∃ t, r.suffixes = [⟨t, (text done).length⟩] ∧ r.lineIsClosed = false ∧
      '\n' ∉ text behind ∧ ∀ leaf ∈ sources behind, leaf.inline = true

/-- The comments that wait. -/
def Renderer.waiting (r : Renderer) : List Leaf :=
  r.suffixes.map fun s => .suffix s.text

/-- What has to come next: a line break, if the line is closed. -/
def Renderer.due (r : Renderer) : List Piece :=
  if r.lineIsClosed then [lineBreak] else []

/-- At the start of a line, the line is not closed, and only spaces are on it. -/
def Renderer.AtStart (r : Renderer) : Prop :=
  r.atLineStart = true → r.lineIsClosed = false ∧ outputLines.starts true r.out = true

theorem Renderer.atStart_of {r : Renderer} (h : r.atLineStart = false) : r.AtStart := by
  intro hs
  rw [h] at hs
  cases hs

/-- What the renderer keeps, with the parts of the output before and behind the comment that
waits. -/
structure Held (leaves : List Leaf) (r : Renderer) (done behind : List Piece) : Prop where
  out : r.out = text (done ++ behind)
  fine : Fine true r.due (done ++ behind)
  once : (sources (done ++ behind) ++ r.waiting).Perm leaves
  order : (sources (done ++ behind)).filter Leaf.inline = leaves.filter Leaf.inline
  waits : Waits r done behind
  start : r.AtStart

/-- The renderer holds the texts and comments met so far. -/
def Holds (leaves : List Leaf) (r : Renderer) : Prop :=
  ∃ done behind, Held leaves r done behind

variable {r r' : Renderer} {leaves : List Leaf}

theorem holds_of_fine (pieces : List Piece) (hsf : r.suffixes = [])
    (hot : r.out = text pieces) (hf : Fine true r.due pieces) (hon : (sources pieces).Perm leaves)
    (ho : (sources pieces).filter Leaf.inline = leaves.filter Leaf.inline)
    (hst : r.AtStart) : Holds leaves r :=
  ⟨pieces, [], by simpa using hot, by simpa using hf,
    by simpa [Renderer.waiting, hsf] using hon, by simpa using ho,
    .inl ⟨hsf, rfl⟩, hst⟩

namespace Holds

/-- Only the output, what waits and the state of the line count. -/
theorem congr (h : Holds leaves r) (ho : r'.out = r.out) (hsf : r'.suffixes = r.suffixes)
    (hc : r'.lineIsClosed = r.lineIsClosed) (hst : r'.AtStart) : Holds leaves r' := by
  obtain ⟨done, behind, h⟩ := h
  refine ⟨done, behind, ho.trans h.out, ?_, ?_, h.order, ?_, hst⟩
  · unfold Renderer.due
    rw [hc]
    exact h.fine
  · unfold Renderer.waiting
    rw [hsf]
    exact h.once
  · unfold Waits
    rw [hsf, hc]
    exact h.waits

theorem pieces (h : Holds leaves r) (hsf : r.suffixes = []) :
    ∃ ps, r.out = text ps ∧ Fine true r.due ps ∧ (sources ps).Perm leaves ∧
      (sources ps).filter Leaf.inline = leaves.filter Leaf.inline := by
  obtain ⟨done, behind, h⟩ := h
  exact ⟨done ++ behind, h.out, h.fine, by simpa [Renderer.waiting, hsf] using h.once, h.order⟩

theorem extend (h : Holds leaves r) (r' : Renderer) (qs : List Piece) (hsf : r.suffixes = [])
    (hop : r.lineIsClosed = false) (hqs : ∀ starts, Fine starts r'.due qs)
    (hot : r'.out = r.out ++ text qs) (hsf' : r'.suffixes = []) (hst : r'.AtStart) :
    Holds (leaves ++ sources qs) r' := by
  obtain ⟨ps, ht, hf, hon, ho⟩ := h.pieces hsf
  refine holds_of_fine (ps ++ qs) hsf' (by simp [hot, ht]) ?_ ?_ ?_ hst
  · have hn : r.due = [] := by simp [Renderer.due, hop]
    exact Fine.append (hn ▸ hf).mono (hqs _)
  · rw [sources_append]
    exact hon.append_right _
  · rw [sources_append, filter_append, filter_append, ho]

/-- One more part of the line, if the line is not closed or the part is empty. -/
theorem append (h : Holds leaves r) (r' : Renderer) (p : Piece)
    (hp : Shows (outputLines.starts true r.out) (outputLines.endsAll false r.due) p)
    (hi : ∀ leaf, p.source = some leaf → leaf.inline = true)
    (hop : r.lineIsClosed = false ∨ p.shown = []) (hln : r.suffixes = [] ∨ '\n' ∉ p.shown)
    (hot : r'.out = r.out ++ p.shown) (hsf : r'.suffixes = r.suffixes)
    (hc : r'.lineIsClosed = r.lineIsClosed) (hst : r'.AtStart) :
    Holds (leaves ++ p.source.toList) r' := by
  have hd : r'.due = r.due := by simp [Renderer.due, hc]
  obtain ⟨done, behind, h⟩ := h
  have hf : Fine true r'.due (done ++ behind ++ [p]) := by
    rw [hd]
    refine Fine.append ?_ (Fine.single (h.out ▸ hp) hi)
    rcases hop with hop | he
    · have hnl : r.due = [] := by simp [Renderer.due, hop]
      exact (hnl ▸ h.fine).mono
    · refine ⟨wears_shows.placed_mono (fun hs => ?_) h.fine.shows, ?_⟩
      · simp only [singleton_append, Lines.endsAll, foldr_cons, he, Bool.or_eq_true]
        exact .inr hs
      · simpa [he] using h.fine.followed
  have hon : (sources (done ++ behind ++ [p]) ++ r'.waiting).Perm (leaves ++ p.source.toList) := by
    have hw : r'.waiting = r.waiting := by simp [Renderer.waiting, hsf]
    rw [hw, sources_append, sources_cons, sources_nil, append_nil, append_assoc]
    refine ((perm_append_comm).append_left _).trans ?_
    rw [← append_assoc]
    exact h.once.append_right _
  have ho : (sources (done ++ behind ++ [p])).filter Leaf.inline =
      (leaves ++ p.source.toList).filter Leaf.inline := by
    rw [sources_append, filter_append, filter_append, h.order]
    simp
  have ht : r'.out = text (done ++ behind ++ [p]) := by
    rw [hot, h.out]
    simp
  rcases h.waits with ⟨hn, rfl⟩ | ⟨t, hoe, hu, hb, ha⟩
  · rw [append_nil] at hf hon ho ht
    exact ⟨done ++ [p], [], by simpa using ht, by simpa using hf, by simpa using hon,
      by simpa using ho, .inl ⟨hsf.trans hn, rfl⟩, hst⟩
  · rw [append_assoc] at hf hon ho ht
    refine ⟨done, behind ++ [p], ht, hf, hon, ho, .inr ⟨t, hsf.trans hoe, hc.trans hu, ?_, ?_⟩, hst⟩
    · simp_all
    · intro leaf hl
      rw [sources_append, mem_append] at hl
      exact hl.elim (ha leaf) fun hl => hi leaf (by simpa using hl)

end Holds

/-! ### The operations -/

@[simp] theorem newline_suffixes (indent : Nat) : (r.newline indent).suffixes = [] := by
  have hk (ss : List Suffix) (r : Renderer) :
      (ss.foldl Renderer.endWith r).suffixes = r.suffixes := by
    induction ss generalizing r with
    | nil => rfl
    | cons s ss ih =>
      rw [foldl_cons, ih]
      unfold Renderer.endWith
      split_ifs <;> rfl
  exact hk _ _

/-- A comment that waited, at the end of its line, before the line break that ends it. -/
theorem fine_endWith (s : Suffix) (ho : r.out = text ps) (hf : Fine true [] ps) :
    ∃ qs, (r.endWith s).out = text qs ∧ sources qs = sources ps ++ [.suffix s.text] ∧
      Fine true [lineBreak] qs := by
  unfold Renderer.endWith
  split_ifs with hst
  · refine ⟨ps ++ ([gap (spaces r.indent)] ++ [whole (.suffix s.text)]), ?_, ?_, ?_⟩
    · simp [ho, gap, whole, Leaf.chars]
    · simp [gap, whole]
    · exact hf.mono.append ((Fine.gap_single (shows_spaces _)).append (Fine.whole_single _))
  · refine ⟨outputLines.dropEnd ps ++ ([gap (spaces 1)] ++ [whole (.suffix s.text)]), ?_, ?_, ?_⟩
    · simp [ho, text_dropEnd, gap, whole, Leaf.chars, trimEnd, outputLines, spaces]
    · simp [gap, whole]
    · exact (hf.mono.trimEnd rfl).append
        ((Fine.gap_single (shows_spaces 1)).append (Fine.whole_single _))

theorem starts_of_endsWith {l : List Char} (h : endsWith l ['\n'] = true) :
    outputLines.starts true l = true := by
  obtain ⟨m, rfl⟩ : ∃ m, l = m ++ ['\n'] := by
    cases l using reverseRecOn with
    | nil => cases h
    | append_singleton m c =>
      obtain rfl : c = '\n' := by simpa [endsWith] using h
      exact ⟨m, rfl⟩
  rw [starts_append]
  rfl

theorem newline_atStart (indent : Nat) : (r.newline indent).AtStart :=
  fun _ => ⟨rfl, starts_of_endsWith (by simp [Renderer.newline, endsWith])⟩

theorem Holds.newline (h : Holds leaves r) (indent : Nat) : Holds leaves (r.newline indent) := by
  obtain ⟨done, behind, h⟩ := h
  rcases h.waits with ⟨hn, rfl⟩ | ⟨t, hon, ho, -, -⟩
  · have hf : Fine true [lineBreak] (done ++ []) := by
      have hf := h.fine
      unfold Renderer.due at hf
      split_ifs at hf
      · exact hf
      · exact hf.mono
    refine holds_of_fine _ (newline_suffixes indent) ?_ hf.ended ?_ ?_ (newline_atStart indent)
    · simp [Renderer.newline, hn, h.out, text_dropEnd, gap, trimEnd, outputLines]
    · simpa [gap, Renderer.waiting, hn] using h.once
    · simpa [gap] using h.order
  · have hd : r.due = [] := by simp [Renderer.due, ho]
    obtain ⟨qs, hot, hso, hqs⟩ :=
      fine_endWith (r := { r with suffixes := [] }) ⟨t, (text done).length⟩ h.out (hd ▸ h.fine)
    refine holds_of_fine _ (newline_suffixes indent) ?_ hqs.ended ?_ ?_ (newline_atStart indent)
    · simp [Renderer.newline, hon, hot, text_dropEnd, gap, trimEnd, outputLines]
    · simpa [hso, gap, Renderer.waiting, hon] using h.once
    · rw [sources_append, sources_dropEnd, hso, filter_append, filter_append, h.order]
      simp [gap, Leaf.inline]

/-- The last line starts before what is written on it. -/
theorem lineStart_append_le {l m : List Char} (h : '\n' ∉ m) : lineStart (l ++ m) ≤ l.length := by
  have hl : lastLine (l ++ m) = lastLine l ++ m := by
    unfold lastLine List.rtakeWhile
    rw [reverse_append, takeWhile_append_of_pos, reverse_append, reverse_reverse]
    grind
  unfold lineStart
  rw [hl, length_append, length_append]
  omega

/-- A comment that waited, written where it was met. -/
theorem fine_settleOne {done behind : List Piece} (t : List Char) {start : Nat} (lineIndent : Nat)
    (hsa : start ≤ (text done).length) (hf : Fine true [] (done ++ behind))
    (hb : '\n' ∉ text behind) (hi : ∀ leaf ∈ sources behind, leaf.inline = true) :
    ∃ qs,
      Renderer.settleOne start lineIndent (text (done ++ behind)) ⟨t, (text done).length⟩ =
        text qs ∧
      sources qs = sources done ++ .suffix t :: sources behind ∧ Fine true [] qs := by
  obtain ⟨hd, hbf⟩ := Fine.append_iff.mp hf
  let done' := outputLines.dropEnd done
  let behind' := outputLines.dropStart behind
  have htx : text done' = trimEnd ' ' (text done) := text_dropEnd
  have ht : text behind' = trimStart ' ' (text behind) := text_dropStart
  -- the line up to the comment, and its end
  obtain ⟨n, hln⟩ : ∃ n, (if start < (text done').length then [' '] else spaces lineIndent) =
      spaces n := by
    split_ifs
    · exact ⟨1, rfl⟩
    · exact ⟨lineIndent, rfl⟩
  let line : List Piece :=
    done' ++ ([gap (spaces n)] ++ ([whole (.suffix t)] ++ [lineBreak]))
  have hfl (after : List Piece) : Fine true after line := by
    have hx : outputLines.endsAll false
        (([gap (spaces n)] ++ ([whole (.suffix t)] ++ [lineBreak])) ++ after) = true :=
      ends_spaces n
    have hm : Fine true _ done := ⟨wears_shows.placed_mono (fun _ => hx) hd.shows,
      hd.followed.congr fun hh => by
        -- no line break is behind `done`
        rw [append_nil] at hh
        cases htb : text behind with
        | nil => simp [htb] at hh
        | cons c l =>
          obtain rfl : c = '\n' := by simpa [htb, outputLines] using hh
          exact absurd mem_cons_self (htb ▸ hb)⟩
    exact (hm.trimEnd hx).append ((Fine.gap_single (shows_spaces n)).append
      ((Fine.whole_single _).append (Fine.gap_single shows_lineBreak)))
  have hl : text line = text done' ++ spaces n ++ t ++ ['\n'] := by
    simp [line, gap, whole, Leaf.chars]
  have hn : outputLines.starts true (text line) = true :=
    starts_of_endsWith (by simp [hl, endsWith])
  have hst : Renderer.settleOne start lineIndent (text (done ++ behind)) ⟨t, (text done).length⟩ =
        if text behind' = [] then text line
        else text line ++ spaces (lineIndent + INDENT) ++ text behind' := by
    simp only [Renderer.settleOne, Nat.max_eq_left hsa, text_append, drop_left,
      take_left, ← htx, ← ht, hln, hl]
  rw [hst]
  split_ifs with he
  · refine ⟨line ++ behind', by simp [he], ?_, (hfl _).append ?_⟩
    · simp [line, done', behind', gap, whole]
    · rw [hn]
      exact hbf.trimStart hi
  · refine ⟨line ++ ([gap (spaces (lineIndent + INDENT))] ++ behind'), ?_, ?_, ?_⟩
    · simp [gap]
    · simp [line, done', behind', gap, whole]
    · refine (hfl _).append ((Fine.gap_single (shows_spaces _)).append ?_)
      rw [hn, text_cons, text_nil, append_nil]
      exact (starts_spaces (lineIndent + INDENT)) ▸ hbf.trimStart hi

theorem Holds.settleSuffixes (h : Holds leaves r) (hw : r.suffixes ≠ []) :
    Holds leaves r.settleSuffixes := by
  obtain ⟨done, behind, h⟩ := h
  rcases h.waits with ⟨hn, -⟩ | ⟨t, hon, hop, hb, hi⟩
  · exact absurd hn hw
  · have hdu : r.due = [] := by simp [Renderer.due, hop]
    have hst : lineStart r.out ≤ (text done).length := by
      rw [h.out, text_append]
      exact lineStart_append_le hb
    obtain ⟨qs, hot, hsr, hqs⟩ := fine_settleOne t (if r.atLineStart then r.indent
        else ((r.out.drop (lineStart r.out)).takeWhile (· == ' ')).length) hst (hdu ▸ h.fine) hb hi
    have hdu' : r.settleSuffixes.due = [] := hdu
    refine holds_of_fine (r := r.settleSuffixes) qs rfl ?_ (hdu' ▸ hqs) ?_ ?_ ?_
    · rw [← hot, ← h.out]
      simp [Renderer.settleSuffixes, hon]
    · rw [hsr]
      refine perm_middle.trans ?_
      have ho := h.once
      rw [sources_append] at ho
      simp only [Renderer.waiting, hon, map_cons, map_nil] at ho
      exact (perm_append_singleton _ _).symm.trans ho
    · rw [hsr, ← h.order, sources_append]
      simp [filter_append, Leaf.inline]
    · exact fun hs => ⟨hop, starts_of_endsWith hs⟩

theorem Holds.settled (h : Holds leaves r) : Holds leaves r.settled := by
  unfold Renderer.settled
  split_ifs with hn
  · exact h
  · exact h.settleSuffixes (by simpa using hn)

/-- At the start of a line, there is nothing but spaces behind the comment that waits. -/
theorem Holds.settled_atLineStart (h : Holds leaves r) (hs : r.atLineStart = true) :
    r.settled.atLineStart = true := by
  obtain ⟨done, behind, h⟩ := h
  rcases h.waits with ⟨hn, -⟩ | ⟨t, hon, -, hb, -⟩
  · simpa [Renderer.settled, hn] using hs
  · have hbl : trimStart ' ' (text behind) = [] := by
      have hst := (h.start hs).2
      rw [h.out, text_append, starts_append, starts_eq, Bool.and_eq_true, all_eq_true] at hst
      · exact dropWhile_eq_nil_iff.mpr hst.2
      · intro c hc
        have hne : c ≠ '\n' := fun heq => hb (heq ▸ hc)
        simpa [outputLines] using hne
    have hle : lineStart (text done ++ text behind) ≤ (text done).length := lineStart_append_le hb
    have hse : r.settled = r.settleSuffixes := by simp [Renderer.settled, hon]
    rw [hse, Renderer.settleSuffixes]
    simp [hon, h.out, Renderer.settleOne, Nat.max_eq_left hle, hbl, endsWith]

@[simp] theorem settled_suffixes : r.settled.suffixes = [] := by
  unfold Renderer.settled
  split_ifs with hn
  · simpa using hn
  · rfl

@[simp] theorem settled_lineIsClosed : r.settled.lineIsClosed = r.lineIsClosed := by
  unfold Renderer.settled
  split_ifs <;> rfl

theorem Holds.reopen (h : Holds leaves r) (indent : Nat) : Holds leaves (r.reopen indent) := by
  unfold Renderer.reopen
  split_ifs
  · exact h.newline indent
  · exact h

@[simp] theorem reopen_lineIsClosed (indent : Nat) : (r.reopen indent).lineIsClosed = false := by
  unfold Renderer.reopen
  split_ifs with hc
  · rfl
  · simpa using hc

theorem reopen_suffixes (indent : Nat) (h : r.suffixes = []) : (r.reopen indent).suffixes = [] := by
  unfold Renderer.reopen
  split_ifs
  · exact newline_suffixes indent
  · exact h

@[simp] theorem openLine_lineIsClosed (indent : Nat) :
    (r.openLine indent).lineIsClosed = false := by
  unfold Renderer.openLine
  simp only
  split_ifs <;> simp

@[simp] theorem openLine_atLineStart (indent : Nat) : (r.openLine indent).atLineStart = false := by
  unfold Renderer.openLine
  simp only
  split_ifs with hst
  · rfl
  · simpa using hst

theorem openLine_suffixes (indent : Nat) :
    (r.openLine indent).suffixes = (r.reopen indent).suffixes := by
  unfold Renderer.openLine
  simp only
  split_ifs <;> rfl

section

variable (h : Holds leaves r)

include h

theorem Holds.start : r.AtStart := by
  obtain ⟨_, _, h⟩ := h
  exact h.start

theorem Holds.openLine (indent : Nat) : Holds leaves (r.openLine indent) := by
  have hre := h.reopen indent
  unfold Renderer.openLine
  simp only
  split_ifs
  · have ha := hre.append
      { r.reopen indent with
        out := (r.reopen indent).out ++ spaces (r.reopen indent).indent,
        col := (r.reopen indent).indent, atLineStart := false }
      (gap (spaces (r.reopen indent).indent)) (shows_spaces _) (by simp [gap]) (.inl (by simp))
      (.inr fun hm => by simpa using eq_of_mem_replicate hm) rfl rfl rfl
      (Renderer.atStart_of rfl)
    simpa [gap] using ha
  · exact hre

/-- A line that is opened anew has only spaces on it. -/
theorem Holds.starts_openLine (hs : (r.atLineStart || r.lineIsClosed) = true) (indent : Nat) :
    outputLines.starts true (r.openLine indent).out = true := by
  have hst : (r.reopen indent).atLineStart = true := by
    unfold Renderer.reopen
    split_ifs with hc
    · rfl
    · simpa [hc] using hs
  rw [Renderer.openLine, if_pos hst, starts_append, starts_spaces]
  exact ((h.reopen indent).start hst).2

theorem Holds.space (ho : r.lineIsClosed = false) :
    Holds leaves { r with out := r.out ++ [' '] } := by
  have ha := h.append { r with out := r.out ++ [' '] } (gap (spaces 1)) (shows_spaces 1)
    (by simp [gap]) (.inl ho) (.inr (by simp [gap, spaces])) rfl rfl rfl
    fun hs => ⟨ho, by rw [starts_append, (h.start hs).2]; rfl⟩
  simpa [gap] using ha

/-- Text or a space: a part of the line, without the spaces at its start where the line starts. -/
theorem Holds.text {p : Piece} (hp : ∀ starts ends, Shows starts ends p)
    (hi : ∀ leaf, p.source = some leaf → leaf.inline = true) (indent : Nat) :
    Holds (leaves ++ p.source.toList) (r.text p.shown indent) := by
  unfold Renderer.text
  obtain ⟨t, ht⟩ : ∃ t, (if r.atLineStart || r.lineIsClosed then trimStart ' ' p.shown
      else p.shown) = t := ⟨_, rfl⟩
  -- where the line does not start, the text is whole
  have hsh {starts ends : Bool} (hs : (r.atLineStart || r.lineIsClosed) = true → starts = true) :
      Shows starts ends ⟨p.source, t⟩ := by
    subst ht
    split_ifs with hc
    · rw [hs hc]
      exact wears_shows.dropStart (hp true ends)
    · exact hp starts ends
  simp only [ht]
  by_cases he : t = []
  · rw [if_pos he]
    refine h.append r ⟨p.source, t⟩ ?_ hi (.inr he) (.inr (by simp [he])) (by simp [he]) rfl rfl
      h.start
    cases hc : r.lineIsClosed with
    | true =>
      -- a closed line ends here
      have hd : outputLines.endsAll false r.due = true := by
        rw [Renderer.due, hc]
        rfl
      have hn : p.shown.rdropWhile outputLines.blank = t := by
        rw [hc, Bool.or_true, if_pos rfl, he] at ht
        rw [he]
        exact rdropWhile_eq_nil_iff.mpr (dropWhile_eq_nil_iff.mp ht)
      rw [hd, ← hn]
      exact wears_shows.dropEnd (hp _ true)
    | false => exact hsh fun hs => (h.start (by simpa [hc] using hs)).2
  · rw [if_neg he]
    -- the comments that wait are written first, where the text spans lines
    obtain ⟨r₁, hr₁, h₁, hl₁, hs₁⟩ : ∃ r₁, (if '\n' ∈ t then r.settled else r) = r₁ ∧
        Holds leaves r₁ ∧ (r₁.suffixes = [] ∨ '\n' ∉ t) ∧
        ((r.atLineStart || r.lineIsClosed) = true →
          (r₁.atLineStart || r₁.lineIsClosed) = true) := by
      refine ⟨_, rfl, ?_⟩
      split_ifs with hm
      · refine ⟨h.settled, .inl settled_suffixes, fun hs => ?_⟩
        rw [Bool.or_eq_true] at hs ⊢
        exact hs.imp h.settled_atLineStart settled_lineIsClosed.trans
      · exact ⟨h, .inr hm, id⟩
    rw [hr₁]
    have h₂ := h₁.openLine indent
    have hl₂ : (r₁.openLine indent).suffixes = [] ∨ '\n' ∉ t :=
      hl₁.imp_left fun hn => (openLine_suffixes indent).trans (reopen_suffixes indent hn)
    obtain ⟨r₃, hr₃, h₃, ho₃, ha₃, hl₃, hs₃⟩ : ∃ r₃,
        (if (r₁.openLine indent).afterComment && !startsWith t [' ', ')', ']', '}', ','] then
          { r₁.openLine indent with out := (r₁.openLine indent).out ++ [' '] }
        else r₁.openLine indent) = r₃ ∧
        Holds leaves r₃ ∧ r₃.lineIsClosed = false ∧ r₃.atLineStart = false ∧
        (r₃.suffixes = [] ∨ '\n' ∉ t) ∧
        (outputLines.starts true (r₁.openLine indent).out = true →
          outputLines.starts true r₃.out = true) := by
      refine ⟨_, rfl, ?_⟩
      split_ifs
      · exact ⟨h₂.space (by simp), by simp, by simp, hl₂, fun hs => by rw [starts_append, hs]; rfl⟩
      · exact ⟨h₂, by simp, by simp, hl₂, id⟩
    rw [hr₃]
    exact h₃.append _ ⟨p.source, t⟩ (hsh fun hs => hs₃ (h₁.starts_openLine (hs₁ hs) indent)) hi
      (.inl ho₃) hl₃ rfl rfl rfl (Renderer.atStart_of ha₃)

theorem Holds.comment (t : List Char) (indent : Nat) :
    Holds (leaves ++ [.comment t]) (r.comment t indent) := by
  unfold Renderer.comment
  obtain ⟨r₁, hr₁, h₁, hn₁⟩ : ∃ r₁,
      (if r.settled.atLineStart then { r.settled with indent := indent } else r.settled) = r₁ ∧
      Holds leaves r₁ ∧ r₁.suffixes = [] := by
    refine ⟨_, rfl, ?_⟩
    split_ifs
    · exact ⟨h.settled.congr rfl rfl rfl h.settled.start, settled_suffixes⟩
    · exact ⟨h.settled, settled_suffixes⟩
  simp only [hr₁]
  have h₂ := h₁.openLine indent
  have hn₂ : (r₁.openLine indent).suffixes = [] :=
    (openLine_suffixes indent).trans (reopen_suffixes indent hn₁)
  obtain ⟨r₃, hr₃, h₃, ho₃, hn₃, hs₃⟩ : ∃ r₃, (if (!(r₁.atLineStart || r₁.lineIsClosed) &&
          !endsWith (r₁.openLine indent).out [' ', '(', '[', '{']) = true then
        { r₁.openLine indent with out := (r₁.openLine indent).out ++ [' '] }
      else r₁.openLine indent) = r₃ ∧
      Holds leaves r₃ ∧ r₃.lineIsClosed = false ∧ r₃.suffixes = [] ∧ r₃.atLineStart = false := by
    refine ⟨_, rfl, ?_⟩
    split_ifs
    · exact ⟨h₂.space (by simp), by simp, hn₂, by simp⟩
    · exact ⟨h₂, by simp, hn₂, by simp⟩
  rw [hr₃]
  exact h₃.append _ (whole (.comment t)) (shows_whole _) (by simp [whole, Leaf.inline])
    (.inl ho₃) (.inl hn₃) rfl rfl rfl (Renderer.atStart_of hs₃)

theorem Holds.suffix (t : List Char) (indent : Nat) :
    Holds (leaves ++ [.suffix t]) (r.suffix t indent) := by
  have h₁ := (h.reopen indent).settled
  have hop : (r.reopen indent).settled.lineIsClosed = false := by simp
  obtain ⟨ps, hot, hf, hon, ho⟩ := h₁.pieces settled_suffixes
  have hd : (r.suffix t indent).due = (r.reopen indent).settled.due := rfl
  refine ⟨ps, [], by simpa [Renderer.suffix] using hot, by simpa [hd] using hf, ?_, ?_, ?_,
    h₁.start⟩
  · simpa [Renderer.waiting, Renderer.suffix] using hon.append_right [Leaf.suffix t]
  · simpa [filter_append, Leaf.inline] using ho
  · refine .inr ⟨t, ?_, hop, by simp, by simp⟩
    simp [Renderer.suffix, hot]

theorem Holds.freshLine (indent : Nat) : Holds leaves (r.freshLine indent) := by
  unfold Renderer.freshLine
  split_ifs
  · exact h.newline indent
  · exact h

end

/-- At a fresh line nothing waits, and the line is not closed. -/
theorem freshLine_spec (indent : Nat) :
    (r.freshLine indent).suffixes = [] ∧ (r.freshLine indent).lineIsClosed = false := by
  unfold Renderer.freshLine
  split_ifs with hn
  · exact ⟨newline_suffixes indent, rfl⟩
  grind

theorem Holds.blankLine (h : Holds leaves r) (indent : Nat) :
    Holds leaves (r.blankLine indent) := by
  obtain ⟨hn, ho⟩ := @freshLine_spec r indent
  have h₁ : Holds leaves { r.freshLine indent with indent := indent } :=
    (h.freshLine indent).congr rfl rfl rfl (h.freshLine indent).start
  unfold Renderer.blankLine
  simp only
  split_ifs
  · exact h₁
  · have ha := h₁.append
      { r.freshLine indent with indent := indent, out := (r.freshLine indent).out ++ ['\n'] }
      lineBreak shows_lineBreak (by simp [gap]) (.inl ho) (.inl hn) rfl rfl rfl
      fun _ => ⟨ho, starts_of_endsWith (by simp [endsWith])⟩
    simpa [gap] using ha

theorem Holds.ownLine (h : Holds leaves r) (t : List Char) (indent : Nat) :
    Holds (leaves ++ [.ownLine t]) (r.ownLine t indent) := by
  obtain ⟨hn, ho⟩ := @freshLine_spec r indent
  have h₁ : Holds leaves { r.freshLine indent with indent := indent } :=
    (h.freshLine indent).congr rfl rfl rfl (h.freshLine indent).start
  have h₂ := h₁.openLine indent
  have hn₂ : ({ r.freshLine indent with indent := indent }.openLine indent).suffixes = [] :=
    (openLine_suffixes indent).trans (reopen_suffixes indent hn)
  have he := h₂.extend (r.ownLine t indent) [whole (.ownLine t)] hn₂ (by simp)
    (fun _ => Fine.whole_single _) (by simp [Renderer.ownLine, Renderer.push, whole, Leaf.chars])
    hn₂ (Renderer.atStart_of (by simp [Renderer.ownLine, Renderer.push]))
  simpa [whole] using he

/-! ### The loop -/

/-- A step of the loop writes what its document is, and nothing else but spaces and line breaks. -/
theorem Holds.visit (h : Holds leaves r) (cmd : Cmd) (stack : List Cmd) :
    Holds (leaves ++ cmd.doc.leaf) (r.visit cmd stack).1 := by
  obtain ⟨indent, mode, doc⟩ := cmd
  have hn {r' : Renderer} (h' : Holds leaves r') : Holds (leaves ++ []) r' := by
    rwa [append_nil]
  cases doc with
  | text t => exact h.text (fun _ _ => shows_whole (.text t)) (by simp [whole, Leaf.inline]) indent
  | comment t => exact h.comment t indent
  | ownLine t => exact h.ownLine t indent
  | lineSuffix t =>
    have hsf := h.suffix t indent
    simp only [Renderer.visit]
    split_ifs
    · exact hsf.settleSuffixes (by simp [Renderer.suffix])
    · exact hsf
  | line =>
    simp only [Renderer.visit, Doc.leaf, append_nil]
    split_ifs
    · exact h.newline indent
    · simpa [gap, spaces] using h.text (fun _ _ => shows_spaces 1) (by simp [gap]) indent
  | softLine =>
    simp only [Renderer.visit, Doc.leaf, append_nil]
    split_ifs
    · exact h.newline indent
    · exact h
  | hardLine => exact hn (h.newline indent)
  | blankLine => exact hn (h.blankLine indent)
  | settle => exact hn h.settled
  | nil | group _ _ | nest _ | concat _ | ifBreak _ _ => exact hn h

theorem Holds.renderAll (fuel : Nat) {stack : List Cmd} (h : Holds leaves r) :
    Holds (leaves ++ met fuel stack r) (renderAll fuel stack r) := by
  induction fuel generalizing stack r leaves with
  | zero => simpa [Format.renderAll, met] using h
  | succ fuel ih =>
    cases stack with
    | nil => simpa [Format.renderAll, met] using h
    | cons cmd stack =>
      have hn := @ih _ _ ((r.visit cmd stack).2 ++ stack) (h.visit cmd stack)
      rw [met, ← append_assoc]
      exact hn

theorem Holds.init (width : Nat) : Holds [] { width } :=
  holds_of_fine [] rfl rfl ⟨trivial, trivial⟩ (by simp) rfl fun _ => ⟨rfl, rfl⟩

/-- What is finished is laid out from the texts and comments, with the line breaks at its end made
one. -/
theorem Holds.finish (h : Holds leaves r) :
    ∃ pieces, Laid leaves pieces ∧ r.finish = Renderer.closeEnd (Lib.Patchwork.text pieces) := by
  obtain ⟨r', hr', h', hn, hop⟩ : ∃ r',
      (if !r.atLineStart || !r.suffixes.isEmpty then r.newline 0 else r) = r' ∧
      Holds leaves r' ∧ r'.suffixes = [] ∧ r'.lineIsClosed = false := by
    refine ⟨_, rfl, ?_⟩
    split_ifs with hnw
    · exact ⟨h.newline 0, newline_suffixes 0, rfl⟩
    · simp only [Bool.or_eq_true, Bool.not_eq_true', not_or, Bool.not_eq_false,
        List.isEmpty_iff] at hnw
      exact ⟨h, hnw.2, (h.start hnw.1).1⟩
  have hd : r'.due = [] := by simp [Renderer.due, hop]
  obtain ⟨ps, hot, hf, hon, ho⟩ := h'.pieces hn
  refine ⟨ps, ⟨hd ▸ hf, hon, ho⟩, ?_⟩
  unfold Renderer.finish
  simp only [hr', hot]

/-- The output is put together from the texts and comments of the branches taken, each exactly once
and in one piece.  A piece is whole, but for spaces at its start if nothing else is before it on its
line, and spaces at its end if nothing else is behind it on its line or only a comment that runs to
the end of the line.  Between the pieces there are only spaces and line breaks; the texts and inline
comments stand in the order of the document; what runs to the end of its line is directly followed
by a line break; and the line breaks at the end are made one. -/
theorem render_spec (doc : Doc) (width : Nat) :
    Taken .brk doc (taken doc width) ∧
      ∃ pieces, Laid (taken doc width) pieces ∧
        render doc width = Renderer.closeEnd (text pieces) := by
  refine ⟨taken_spec doc width, ?_⟩
  have ha : Holds (taken doc width) (renderAll doc.size [⟨0, .brk, doc⟩] { width }) :=
    (Holds.init width).renderAll doc.size
  exact ha.finish

/-- A text that starts with a space loses it where its line starts. -/
theorem render_leading_space :
    taken (.text [' ', 'a']) 80 = [.text [' ', 'a']] ∧
      render (.text [' ', 'a']) 80 = ['a', '\n'] ∧
      ¬ [' ', 'a'] <:+: render (.text [' ', 'a']) 80 := by
  decide

end Silt.Format
