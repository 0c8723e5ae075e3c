import Mathlib.Tactic.Common

/-!
# Reading from a stream that comes in pieces

A source is what has been read and not yet used, and the pieces that are still to come, none of
them empty.  A read of it gives a value and the source after it, or ends with an error.  The loops
of a reader look at what is there, give a value, or ask for another piece (`readOn`).

Two reads are alike if they give one value and leave sources of the same items, or end with errors
of one kind; a read respects the items if it is alike on any two sources of the same items
(`Respects`).  Both are closed under `>>=`, and a loop respects the items if its looks are stable
(`Stable`): a value that was found stays when more comes.

## Main definitions

* `Source`, `Reads` : a source, and a read of it.
* `readOn` : the loop that asks for more.
* `Respects` : a read that does not depend on how the items are cut.
* `Foresees` : a read of what is there, which gives what a read of all would give.
* `Tame` : both, and that items are used up.
-/

namespace Silt.Pieces

variable {β ε κ α γ S : Type}

/-- A piece that is read at a time. -/
abbrev Piece (β : Type) : Type := { piece : List β // piece ≠ [] }

/-- What has been read and not yet used, and the pieces to come. -/
structure Source (β : Type) where
  buf : List β
  pieces : List (Piece β)

/-- All that the source holds. -/
def Source.items (s : Source β) : List β := s.buf ++ (s.pieces.map (·.1)).flatten

/-- A read of a source. -/
abbrev Reads (ε β α : Type) : Type := StateT (Source β) (Except ε) α

/-- What a look at the buffer comes to: an end, or a state and a buffer to go on with. -/
abbrev Look (ε β S α : Type) : Type := S → List β → Except ε (α × List β) ⊕ S × List β

/-- Look at the buffer, and ask for another piece until the look comes to an end; `atEnd` where
there is none. -/
def readOn (atEnd : ε) (look : Look ε β S α) :
    List (Piece β) → S → List β → Except ε (α × Source β)
  | pieces, s, buf =>
    match look s buf with
    | .inl (.ok (a, rest)) => .ok (a, ⟨rest, pieces⟩)
    | .inl (.error e) => .error e
    | .inr (s, buf) =>
      match pieces with
      | [] => .error atEnd
      | piece :: pieces => readOn atEnd look pieces s (buf ++ piece.1)

/-! ### Reads that are alike -/

section Alike

variable (kind : ε → κ)

/-- One value and the same items left, or errors of one kind. -/
def Alike : Except ε (α × Source β) → Except ε (α × Source β) → Prop
  | .ok (a, s), .ok (a', s') => a = a' ∧ s.items = s'.items
  | .error e, .error e' => kind e = kind e'
  | _, _ => False

variable {kind}

theorem Alike.symm {x y : Except ε (α × Source β)} (h : Alike kind x y) : Alike kind y x := by
  cases x <;> cases y
  case ok.ok => exact ⟨h.1.symm, h.2.symm⟩
  case error.error => exact Eq.symm h
  all_goals exact h.elim

theorem Alike.trans {x y z : Except ε (α × Source β)} (hxy : Alike kind x y)
    (hyz : Alike kind y z) : Alike kind x z := by
  cases x <;> cases y <;> cases z
  case ok.ok.ok => exact ⟨hxy.1.trans hyz.1, hxy.2.trans hyz.2⟩
  case error.error.error => exact Eq.trans hxy hyz
  all_goals first | exact hxy.elim | exact hyz.elim

variable (kind) in
/-- The read does not depend on how the items of the source are cut. -/
def Respects (read : Reads ε β α) : Prop :=
  ∀ s s' : Source β, s.items = s'.items → Alike kind (read s) (read s')

theorem Respects.bind {read : Reads ε β α} {f : α → Reads ε β γ} (h : Respects kind read)
    (hf : ∀ a, Respects kind (f a)) : Respects kind (read >>= f) := by
  intro s s' hs
  have hr := h s s' hs
  change Alike kind ((read s).bind fun p => f p.1 p.2) ((read s').bind fun p => f p.1 p.2)
  cases hx : read s with
  | error e =>
    cases hy : read s' with
    | error e' => rwa [hx, hy] at hr
    | ok p => rw [hx, hy] at hr; exact hr.elim
  | ok p =>
    cases hy : read s' with
    | error e' => rw [hx, hy] at hr; exact hr.elim
    | ok q =>
      rw [hx, hy] at hr
      obtain ⟨hv, hi⟩ := hr
      have hn := hf p.1 p.2 q.2 hi
      rwa [show f p.1 q.2 = f q.1 q.2 by rw [hv]] at hn

end Alike

/-! ### Loops that respect the items -/

section Loops

variable (kind : ε → κ) (atEnd : ε) (look : Look ε β S α)

/-- The loop with all there is in the buffer. -/
def whole (s : S) (items : List β) : Except ε (α × Source β) := readOn atEnd look [] s items

/-- What is found stays when more comes.  `Inv` holds of the states and buffers of the loop. -/
structure Stable (Inv : S → List β → Prop) : Prop where
  more {s : S} {buf : List β} (piece : List β) : Inv s buf → Inv s (buf ++ piece)
  next {s s' : S} {buf buf' : List β} : Inv s buf → look s buf = .inr (s', buf') → Inv s' buf'
  found {s : S} {buf rest : List β} {a : α} (later : List β) : Inv s buf →
    look s buf = .inl (.ok (a, rest)) → look s (buf ++ later) = .inl (.ok (a, rest ++ later))
  failed {s : S} {buf : List β} {e : ε} (later : List β) : Inv s buf →
    look s buf = .inl (.error e) → Alike kind (whole atEnd look s (buf ++ later)) (.error e)
  goes {s s' : S} {buf buf' : List β} (later : List β) : Inv s buf →
    look s buf = .inr (s', buf') →
    Alike kind (whole atEnd look s' (buf' ++ later)) (whole atEnd look s (buf ++ later))

variable {kind atEnd look}

theorem Alike.refl (x : Except ε (α × Source β)) : Alike kind x x := by
  cases x with
  | error e => rfl
  | ok p => exact ⟨rfl, rfl⟩

/-- A loop comes to what it comes to with all there is in the buffer. -/
theorem Stable.alike_whole {Inv : S → List β → Prop} (h : Stable kind atEnd look Inv)
    (pieces : List (Piece β)) {s : S} {buf : List β} (hi : Inv s buf) :
    Alike kind (readOn atEnd look pieces s buf)
      (whole atEnd look s (buf ++ (pieces.map (·.1)).flatten)) := by
  induction pieces generalizing s buf with
  | nil =>
    rw [List.map_nil, List.flatten_nil, List.append_nil]
    exact .refl _
  | cons piece pieces ih =>
    set later := ((piece :: pieces).map (·.1)).flatten with hl
    cases hlk : look s buf with
    | inl result =>
      cases result with
      | error e =>
        rw [readOn, hlk]
        exact (h.failed later hi hlk).symm
      | ok p =>
        rw [readOn, hlk, whole, readOn, h.found later hi hlk]
        exact ⟨rfl, by simp [Source.items, hl]⟩
    | inr p =>
      rw [readOn, hlk]
      refine (ih (h.more piece.1 (h.next hi hlk))).trans ?_
      have hg := h.goes later hi hlk
      grind

theorem Stable.respects {Inv : S → List β → Prop} (h : Stable kind atEnd look Inv) {s : S}
    (hin : ∀ buf, Inv s buf) :
    Respects kind (fun source => readOn atEnd look source.pieces s source.buf : Reads ε β α) := by
  intro x y hi
  have hx := h.alike_whole x.pieces (hin x.buf)
  have hy := h.alike_whole y.pieces (hin y.buf)
  rw [← Source.items, hi] at hx
  exact hx.trans hy.symm

theorem stable_of_unit {look : Look ε β Unit α}
    (hn : ∀ {buf s buf'}, look () buf = .inr (s, buf') → buf' = buf)
    (hf : ∀ {buf rest a} later, look () buf = .inl (.ok (a, rest)) →
      look () (buf ++ later) = .inl (.ok (a, rest ++ later)))
    (hfl : ∀ {buf e} later, look () buf = .inl (.error e) →
      ∃ e', look () (buf ++ later) = .inl (.error e') ∧ kind e' = kind e) :
    Stable kind atEnd look fun _ _ => True where
  more _ _ := trivial
  next _ _ := trivial
  found later _ := hf later
  failed later _ hl := by
    obtain ⟨e', hl', hk⟩ := hfl later hl
    rw [whole, readOn, hl']
    exact hk
  goes later _ hl := by
    rw [hn hl]
    exact .refl _

end Loops

/-! ### Reading ahead -/

section Ahead

variable (final : ε → Prop)

/-- What the first read finds in the buffer alone the second finds too, whatever comes after it:
its value, or an error that is final. -/
def Foresees (ahead read : Reads ε β α) : Prop :=
  ∀ buf pieces,
    (∀ a s, ahead ⟨buf, []⟩ = .ok (a, s) →
      s.pieces = [] ∧ read ⟨buf, pieces⟩ = .ok (a, ⟨s.buf, pieces⟩)) ∧
    ∀ e, ahead ⟨buf, []⟩ = .error e → final e → read ⟨buf, pieces⟩ = .error e

variable {final}

theorem Foresees.bind {ahead read : Reads ε β α} {f g : α → Reads ε β γ}
    (h : Foresees final ahead read) (hf : ∀ a, Foresees final (f a) (g a)) :
    Foresees final (ahead >>= f) (read >>= g) := by
  intro buf pieces
  obtain ⟨hok, he⟩ := h buf pieces
  change (∀ a s, ((ahead ⟨buf, []⟩).bind fun p => f p.1 p.2) = .ok (a, s) → s.pieces = [] ∧
      ((read ⟨buf, pieces⟩).bind fun p => g p.1 p.2) = .ok (a, ⟨s.buf, pieces⟩)) ∧
    ∀ e, ((ahead ⟨buf, []⟩).bind fun p => f p.1 p.2) = .error e → final e →
      ((read ⟨buf, pieces⟩).bind fun p => g p.1 p.2) = .error e
  cases ha : ahead ⟨buf, []⟩ with
  | error e =>
    refine ⟨nofun, fun e' he' hfn => ?_⟩
    cases he'
    rw [he e ha hfn]
    rfl
  | ok p =>
    obtain ⟨a, ⟨rest, left⟩⟩ := p
    obtain ⟨hl, hr⟩ := hok a ⟨rest, left⟩ ha
    obtain rfl : left = [] := hl
    rw [hr]
    exact hf a rest pieces

/-- A loop finds what is in the buffer whatever comes after it. -/
theorem foresees_readOn (atEnd : ε) (look : Look ε β S α) (s : S) (he : ¬ final atEnd) :
    Foresees final (fun source => readOn atEnd look source.pieces s source.buf : Reads ε β α)
      (fun source => readOn atEnd look source.pieces s source.buf) := by
  intro buf pieces
  dsimp only
  rw [readOn, readOn]
  match look s buf with
  | .inl (.ok (a, rest)) => grind
  | .inl (.error e) => exact ⟨nofun, fun e' h _ => h⟩
  | .inr (s', buf') => grind

end Ahead

/-! ### Reads that use up items -/

section Consumes

variable {n : Nat}

/-- The read uses up `n` items at least. -/
def Consumes (n : Nat) (read : Reads ε β α) : Prop :=
  ∀ s a s', read s = .ok (a, s') → s'.items.length + n ≤ s.items.length

theorem Consumes.bind {m : Nat} {read : Reads ε β α} {f : α → Reads ε β γ} (h : Consumes n read)
    (hf : ∀ a, Consumes m (f a)) : Consumes (n + m) (read >>= f) := by
  intro s c s' hs
  change ((read s).bind fun p => f p.1 p.2) = .ok (c, s') at hs
  cases hr : read s with
  | error e => rw [hr] at hs; cases hs
  | ok p =>
    rw [hr] at hs
    have hfr := h s p.1 p.2 hr
    have hsc := hf p.1 p.2 c s' hs
    omega

theorem consumes_readOn {atEnd : ε} {look : Look ε β S α}
    (hf : ∀ {s buf a rest}, look s buf = .inl (.ok (a, rest)) → rest.length + n ≤ buf.length)
    (hg : ∀ {s buf s' buf'}, look s buf = .inr (s', buf') → buf'.length ≤ buf.length) (s : S) :
    Consumes n (fun source => readOn atEnd look source.pieces s source.buf : Reads ε β α) := by
  rintro ⟨buf, pieces⟩ a s' h
  simp only [Source.items, List.length_append] at h ⊢
  induction pieces generalizing s buf with
  | nil =>
    rw [readOn] at h
    grind
  | cons piece pieces ih =>
    rw [readOn] at h
    grind

end Consumes

/-! ### Tame reads -/

section Tame

variable {kind : ε → κ} {final : ε → Prop} {n m : Nat} {ahead read : Reads ε β α}

variable (kind final n) in
/-- The second read does not depend on how the items are cut and uses up `n` of them at least; the
first foresees it. -/
structure Tame (ahead read : Reads ε β α) : Prop where
  respects : Respects kind read
  foresees : Foresees final ahead read
  consumes : Consumes n read

theorem tame_pure (a : α) : Tame (β := β) kind final 0 (pure a : Reads ε β α) (pure a) where
  respects _ _ h := ⟨rfl, h⟩
  foresees _ _ := by
    refine ⟨fun a' s h => ?_, nofun⟩
    cases h
    exact ⟨rfl, rfl⟩
  consumes s a' s' h := by
    cases h
    exact Nat.le_refl _

theorem tame_throw (e : ε) : Tame (β := β) kind final n (throw e : Reads ε β α) (throw e) where
  respects _ _ _ := rfl
  foresees _ _ := ⟨nofun, fun _ h _ => h⟩
  consumes := nofun

theorem Tame.bind {f g : α → Reads ε β γ} (h : Tame kind final n ahead read)
    (hf : ∀ a, Tame kind final m (f a) (g a)) :
    Tame kind final (n + m) (ahead >>= f) (read >>= g) :=
  ⟨h.respects.bind fun a => (hf a).respects, h.foresees.bind fun a => (hf a).foresees,
    h.consumes.bind fun a => (hf a).consumes⟩

theorem Tame.ite {c : Prop} [Decidable c] {ahead' read' : Reads ε β α}
    (h : Tame kind final n ahead read) (h' : Tame kind final n ahead' read') :
    Tame kind final n (if c then ahead else ahead') (if c then read else read') := by
  split_ifs
  · exact h
  · exact h'

theorem Tame.zero (h : Tame kind final n ahead read) : Tame kind final 0 ahead read :=
  { h with consumes := fun s a s' hr =>
      Nat.le_trans (Nat.le_add_right _ n) (h.consumes s a s' hr) }

theorem Stable.tame {atEnd : ε} {look : Look ε β S α} {Inv : S → List β → Prop}
    (h : Stable kind atEnd look Inv) {s : S} (hi : ∀ buf, Inv s buf) (he : ¬ final atEnd)
    (hf : ∀ {s buf a rest}, look s buf = .inl (.ok (a, rest)) → rest.length + n ≤ buf.length)
    (hg : ∀ {s buf s' buf'}, look s buf = .inr (s', buf') → buf'.length ≤ buf.length) :
    Tame kind final n (fun source => readOn atEnd look source.pieces s source.buf : Reads ε β α)
      (fun source => readOn atEnd look source.pieces s source.buf) :=
  ⟨h.respects hi, foresees_readOn _ _ _ he, consumes_readOn hf hg s⟩

end Tame

end Silt.Pieces
