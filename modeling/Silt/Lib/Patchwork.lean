import Mathlib.Data.List.DropRight

/-!
# Text put together from patches

A text is a list of patches, each with the source it shows, or none where it only fills a gap.  A
mark ends a line, and there are blanks.  What a patch may show can depend on its place: whether only
blanks are before it on its line, and whether only blanks are behind it.  The blanks at the end or
the start of the text can be dropped patch by patch, and every patch keeps its place.  Some sources
have to be followed by the mark.

## Main definitions

* `Patch`, `text`, `sources` : the patches, and what they make.
* `Placed` : every patch shows what it may where it stands.
* `Followed` : every patch whose source asks for it is directly followed by the mark.
* `dropEnd`, `dropStart` : the blanks at either end of the text dropped patch by patch.

## Main results

* `Wears.placed_dropEnd`, `Wears.placed_dropStart` : where a line ends behind the text, its patches
  may lose the blanks at its end, and where one starts, those at its start.
-/

namespace Lib.Patchwork

open List

variable {ι β : Type}

/-- A part of a text, with the source it shows, if any. -/
structure Patch (ι β : Type) where
  source : Option ι
  shown : List β

variable {ps qs : List (Patch ι β)} {p : Patch ι β}

def text (ps : List (Patch ι β)) : List β :=
  ps.flatMap Patch.shown

def sources (ps : List (Patch ι β)) : List ι :=
  ps.filterMap Patch.source

@[simp] theorem text_nil : text ([] : List (Patch ι β)) = [] := rfl

@[simp] theorem text_cons (p : Patch ι β) (ps : List (Patch ι β)) :
    text (p :: ps) = p.shown ++ text ps := flatMap_cons

@[simp] theorem text_append (ps qs : List (Patch ι β)) : text (ps ++ qs) = text ps ++ text qs :=
  flatMap_append

@[simp] theorem sources_nil : sources ([] : List (Patch ι β)) = [] := rfl

@[simp] theorem sources_cons (p : Patch ι β) (ps : List (Patch ι β)) :
    sources (p :: ps) = p.source.toList ++ sources ps := by
  cases h : p.source with
  | none | some i => simp [sources, h]

@[simp] theorem sources_append (ps qs : List (Patch ι β)) :
    sources (ps ++ qs) = sources ps ++ sources qs :=
  filterMap_append

/-- What ends a line, what is a blank, and which sources run to the end of their line. -/
structure Lines (ι β : Type) where
  mark : β → Bool
  blank : β → Bool
  closing : ι → Bool
  mark_of_blank : ∀ b, blank b = true → mark b = false

variable {lines : Lines ι β}

/-! ### Places -/

namespace Lines

variable (lines)

/-- Whether only blanks stand on the line that the text leads up to, given whether that is so in
front of the text. -/
def starts (start : Bool) (l : List β) : Bool :=
  l.foldl (fun start b => lines.mark b || (start && lines.blank b)) start

/-- Whether only blanks come before the line ends, given whether that is so behind the text. -/
def ends (stop : Bool) (l : List β) : Bool :=
  l.foldr (fun b stop => lines.mark b || (stop && lines.blank b)) stop

/-- Whether only blanks come before the line ends, or before a patch that runs to its end. -/
def endsAll (stop : Bool) (ps : List (Patch ι β)) : Bool :=
  ps.foldr (fun p stop => p.source.any lines.closing || lines.ends stop p.shown) stop

/-- Every patch shows what it may, given whether only blanks are before it on its line and whether
only blanks are behind it. -/
def Placed (ok : Bool → Bool → Patch ι β → Prop) (start stop : Bool) : List (Patch ι β) → Prop
  | [] => True
  | p :: ps =>
    ok start (lines.endsAll stop ps) p ∧ Placed ok (lines.starts start p.shown) stop ps

/-- Every patch whose source runs to the end of its line is directly followed by the mark, in the
text of the list and what comes after. -/
def Followed (after : List β) : List (Patch ι β) → Prop
  | [] => True
  | p :: ps =>
    (p.source.any lines.closing = true → (text ps ++ after).head?.any lines.mark = true) ∧
      Followed after ps

/-- The blanks at the end of the text, dropped patch by patch. -/
def dropEnd : List (Patch ι β) → List (Patch ι β)
  | [] => []
  | p :: ps =>
    (if (text ps).all lines.blank then ⟨p.source, p.shown.rdropWhile lines.blank⟩ else p) ::
      dropEnd ps

/-- The blanks at the start of the text, dropped patch by patch. -/
def dropStart : List (Patch ι β) → List (Patch ι β)
  | [] => []
  | p :: ps =>
    ⟨p.source, p.shown.dropWhile lines.blank⟩ ::
      if p.shown.all lines.blank then dropStart ps else ps

end Lines

open Lines

section

variable {l m : List β} {start stop stop' : Bool}

theorem starts_append : lines.starts start (l ++ m) = lines.starts (lines.starts start l) m :=
  foldl_append

theorem ends_append : lines.ends stop (l ++ m) = lines.ends (lines.ends stop m) l :=
  foldr_append

theorem endsAll_append :
    lines.endsAll stop (ps ++ qs) = lines.endsAll (lines.endsAll stop qs) ps :=
  foldr_append

theorem starts_eq (h : ∀ b ∈ l, lines.mark b = false) :
    lines.starts start l = (start && l.all lines.blank) := by
  induction l generalizing start with
  | nil => exact (Bool.and_true start).symm
  | cons b l ih =>
    obtain ⟨hb, hl⟩ := forall_mem_cons.mp h
    rw [starts, foldl_cons, hb, Bool.false_or, all_cons, ← Bool.and_assoc]
    exact ih hl

theorem starts_blanks (h : ∀ b ∈ l, lines.blank b = true) : lines.starts start l = start := by
  rw [starts_eq fun b hb => lines.mark_of_blank b (h b hb), all_eq_true.mpr h, Bool.and_true]

theorem ends_blanks (h : ∀ b ∈ l, lines.blank b = true) : lines.ends stop l = stop := by
  induction l with
  | nil => rfl
  | cons b l ih =>
    obtain ⟨hb, hl⟩ := forall_mem_cons.mp h
    have hs := ih hl
    simp only [ends, foldr_cons, lines.mark_of_blank b hb, hb] at hs ⊢
    simpa using hs

@[simp] theorem starts_rdropWhile :
    lines.starts start (l.rdropWhile lines.blank) = lines.starts start l := by
  have hl : l.rdropWhile lines.blank ++ l.rtakeWhile lines.blank = l := rdropWhile_append_rtakeWhile
  rw [← hl, starts_append, starts_blanks fun b hb => mem_rtakeWhile_imp hb, hl]

@[simp] theorem ends_rdropWhile :
    lines.ends stop (l.rdropWhile lines.blank) = lines.ends stop l := by
  have hl : l.rdropWhile lines.blank ++ l.rtakeWhile lines.blank = l := rdropWhile_append_rtakeWhile
  rw [← hl, ends_append, ends_blanks fun b hb => mem_rtakeWhile_imp hb, hl]

@[simp] theorem ends_dropWhile :
    lines.ends stop (l.dropWhile lines.blank) = lines.ends stop l := by
  conv_rhs => rw [← takeWhile_append_dropWhile (p := lines.blank) (l := l), ends_append]
  rw [ends_blanks fun b hb => mem_takeWhile_imp hb]

/-- Behind something that is no blank, it does not matter where its line started. -/
theorem starts_dropWhile (h : ¬ l.all lines.blank = true) (start start' : Bool) :
    lines.starts start' (l.dropWhile lines.blank) = lines.starts start l := by
  induction l with
  | nil => exact absurd rfl h
  | cons b l ih =>
    cases hb : lines.blank b with
    | true =>
      rw [dropWhile_cons_of_pos hb, ih (by simpa [hb] using h)]
      simp [starts, lines.mark_of_blank b hb, hb]
    | false =>
      rw [dropWhile_cons_of_neg (by simp [hb])]
      simp [starts, hb]

theorem ends_mono (h : stop = true → stop' = true) (hl : lines.ends stop l = true) :
    lines.ends stop' l = true := by
  induction l with
  | nil => exact h hl
  | cons b l ih =>
    simp only [ends, foldr_cons, Bool.or_eq_true, Bool.and_eq_true] at hl ih ⊢
    exact hl.imp_right fun hr => ⟨ih hr.1, hr.2⟩

theorem endsAll_mono (h : stop = true → stop' = true) (hps : lines.endsAll stop ps = true) :
    lines.endsAll stop' ps = true := by
  induction ps with
  | nil => exact h hps
  | cons p ps ih =>
    simp only [endsAll, foldr_cons, Bool.or_eq_true] at hps ⊢
    exact hps.imp_right (ends_mono ih)

theorem endsAll_blanks (h : (text ps).all lines.blank = true) :
    lines.endsAll true ps = true := by
  induction ps with
  | nil => rfl
  | cons p ps ih =>
    rw [text_cons, all_append, Bool.and_eq_true] at h
    simp only [endsAll, foldr_cons, Bool.or_eq_true]
    exact .inr ((ends_blanks (all_eq_true.mp h.1)).trans (ih h.2))

end

/-! ### Blanks dropped -/

theorem rdropWhile_append (blank : β → Bool) (l m : List β) :
    (l ++ m).rdropWhile blank =
      if m.all blank then l.rdropWhile blank else l ++ m.rdropWhile blank := by
  have hm : m.reverse.dropWhile blank = [] ↔ m.all blank = true := by
    simp [dropWhile_eq_nil_iff]
  unfold List.rdropWhile
  rw [List.reverse_append, List.dropWhile_append]
  grind

@[simp] theorem sources_dropEnd : sources (lines.dropEnd ps) = sources ps := by
  induction ps with
  | nil => rfl
  | cons p ps ih =>
    rw [dropEnd, sources_cons, sources_cons, ih]
    split_ifs <;> rfl

@[simp] theorem sources_dropStart : sources (lines.dropStart ps) = sources ps := by
  induction ps with
  | nil => rfl
  | cons p ps ih =>
    rw [dropStart, sources_cons, sources_cons]
    split_ifs
    · rw [ih]
    · rfl

theorem text_dropEnd : text (lines.dropEnd ps) = (text ps).rdropWhile lines.blank := by
  induction ps with
  | nil => rfl
  | cons p ps ih =>
    rw [dropEnd, text_cons, ih, text_cons, rdropWhile_append]
    split_ifs with h
    · rw [rdropWhile_eq_nil_iff.mpr (all_eq_true.mp h), append_nil]
    · rfl

theorem text_dropStart : text (lines.dropStart ps) = (text ps).dropWhile lines.blank := by
  induction ps with
  | nil => rfl
  | cons p ps ih =>
    rw [dropStart, text_cons, text_cons, List.dropWhile_append]
    have hp : (p.shown.dropWhile lines.blank).isEmpty = p.shown.all lines.blank := by
      rw [Bool.eq_iff_iff, List.isEmpty_iff, dropWhile_eq_nil_iff, all_eq_true]
    grind

@[simp] theorem endsAll_dropEnd {stop : Bool} :
    lines.endsAll stop (lines.dropEnd ps) = lines.endsAll stop ps := by
  induction ps with
  | nil => rfl
  | cons p ps ih =>
    simp only [endsAll, dropEnd, foldr_cons] at ih ⊢
    rw [ih]
    split_ifs
    · rw [ends_rdropWhile]
    · rfl

@[simp] theorem endsAll_dropStart {stop : Bool} :
    lines.endsAll stop (lines.dropStart ps) = lines.endsAll stop ps := by
  induction ps with
  | nil => rfl
  | cons p ps ih =>
    simp only [endsAll, dropStart, foldr_cons, ends_dropWhile] at ih ⊢
    split_ifs
    · rw [ih]
    · rfl

/-! ### Patches at their places -/

/-- What a patch may show: more where its line ends behind it, and fewer blanks at an end of it
where its line ends or starts there. -/
structure Wears (lines : Lines ι β) (ok : Bool → Bool → Patch ι β → Prop) : Prop where
  mono {start stop : Bool} {p : Patch ι β} (h : ok start stop p) : ok start true p
  dropEnd {start : Bool} {p : Patch ι β} (h : ok start true p) :
    ok start true ⟨p.source, p.shown.rdropWhile lines.blank⟩
  dropStart {start stop : Bool} {p : Patch ι β} (h : ok start stop p) :
    ok true stop ⟨p.source, p.shown.dropWhile lines.blank⟩

variable {ok : Bool → Bool → Patch ι β → Prop} {start stop stop' : Bool}

theorem placed_append :
    lines.Placed ok start stop (ps ++ qs) ↔
      lines.Placed ok start (lines.endsAll stop qs) ps ∧
        lines.Placed ok (lines.starts start (text ps)) stop qs := by
  induction ps generalizing start with
  | nil => exact (and_iff_right trivial).symm
  | cons p ps ih =>
    rw [cons_append, Placed, Placed, ih, endsAll_append, text_cons, starts_append, and_assoc]

namespace Wears

variable (hok : Wears lines ok)

include hok

theorem placed_mono (hs : stop = true → stop' = true) (h : lines.Placed ok start stop ps) :
    lines.Placed ok start stop' ps := by
  induction ps generalizing start with
  | nil => trivial
  | cons p ps ih =>
    refine ⟨?_, ih h.2⟩
    cases hb : lines.endsAll stop' ps with
    | true => exact hok.mono h.1
    | false =>
      have hn : lines.endsAll stop ps = false := by
        rw [← Bool.not_eq_true] at hb ⊢
        exact fun ht => hb (endsAll_mono hs ht)
      exact hn ▸ h.1

/-- Where the line ends behind the text, its patches may lose the blanks at its end. -/
theorem placed_dropEnd (h : lines.Placed ok start true ps) :
    lines.Placed ok start true (lines.dropEnd ps) := by
  induction ps generalizing start with
  | nil => trivial
  | cons p ps ih =>
    rw [Lines.dropEnd, Placed, endsAll_dropEnd]
    split_ifs with hb
    · -- all that comes behind the patch is blank
      have hp := h.1
      rw [endsAll_blanks hb] at hp ⊢
      exact ⟨hok.dropEnd hp, by simpa using ih h.2⟩
    · exact ⟨h.1, ih h.2⟩

/-- Where a line starts in front of the text, its patches may lose the blanks at its start. -/
theorem placed_dropStart (h : lines.Placed ok start stop ps) :
    lines.Placed ok true stop (lines.dropStart ps) := by
  induction ps generalizing start with
  | nil => trivial
  | cons p ps ih =>
    obtain ⟨hp, hps⟩ := h
    rw [Lines.dropStart, Placed]
    split_ifs with hb
    · have hn : p.shown.dropWhile lines.blank = [] :=
        dropWhile_eq_nil_iff.mpr (all_eq_true.mp hb)
      rw [endsAll_dropStart]
      refine ⟨hok.dropStart hp, ?_⟩
      simpa [hn, starts] using ih hps
    · refine ⟨hok.dropStart hp, ?_⟩
      rw [starts_dropWhile hb]
      exact hps

end Wears

/-! ### What has to be followed by the mark -/

variable {after after' : List β}

theorem followed_append :
    lines.Followed after (ps ++ qs) ↔
      lines.Followed (text qs ++ after) ps ∧ lines.Followed after qs := by
  induction ps with
  | nil => simp [Followed]
  | cons p ps ih =>
    rw [cons_append, Followed, Followed, ih, text_append, append_assoc, and_assoc]

theorem followed_of_not (h : ∀ i ∈ sources ps, lines.closing i = false) :
    lines.Followed after ps := by
  induction ps with
  | nil => trivial
  | cons p ps ih =>
    rw [sources_cons] at h
    refine ⟨fun hc => ?_, ih fun i hi => h i (mem_append_right _ hi)⟩
    cases hs : p.source with
    | none => simp [hs] at hc
    | some i => grind

/-- What is followed stays so if something else comes after, or a mark comes after as before. -/
theorem Lines.Followed.congr (h : lines.Followed after ps)
    (ha : after.head?.any lines.mark = true → after'.head?.any lines.mark = true) :
    lines.Followed after' ps := by
  induction ps with
  | nil => trivial
  | cons p ps ih =>
    refine ⟨fun hc => ?_, ih h.2⟩
    have hh := h.1 hc
    cases hps : text ps with
    | nil => simpa [hps] using ha (by simpa [hps] using hh)
    | cons b l => simpa [hps] using hh

/-- The mark stays when the blanks before what comes after are dropped. -/
theorem followed_dropEnd (h : lines.Followed after ps) :
    lines.Followed after (lines.dropEnd ps) := by
  induction ps with
  | nil => trivial
  | cons p ps ih =>
    refine ⟨fun hc => ?_, ih h.2⟩
    have hh : (text ps ++ after).head?.any lines.mark = true := by
      refine h.1 ?_
      split_ifs at hc <;> exact hc
    rw [text_dropEnd]
    cases hps : text ps with
    | nil => simpa [hps] using hh
    | cons b l =>
      have hb : lines.mark b = true := by simpa [hps] using hh
      have hn : [b].rdropWhile lines.blank = [b] := by
        cases hbl : lines.blank b with
        | true => rw [lines.mark_of_blank b hbl] at hb; cases hb
        | false => simp [rdropWhile_singleton, hbl]
      have hk : (b :: l).rdropWhile lines.blank = b :: l.rdropWhile lines.blank := by
        rw [← singleton_append, rdropWhile_append, hn]
        simp_all
      simpa [hk] using hb

end Lib.Patchwork
