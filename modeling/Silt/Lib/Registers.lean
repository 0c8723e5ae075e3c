import Mathlib.Data.Sum.Basic

/-!
# Registers of values and their abstract counterparts

Calls that read values out of registers and put what they make into one, at two levels: the values
as they are stored, and what they stand for.  Between two calls the stored values may change in a
way that cannot be seen (a cache that is filled).  If each call alone gives what the abstract call
gives, or refuses for the reason it should, every sequence of calls does (`Calls.follows`).
-/

namespace Silt

/-- The calls on values of `C`, which stand for values of `A`: the stored level may stop (`none`) or
refuse for a reason `E`, a call makes a value or says something. -/
structure Calls (Op C A O P E : Type) where
  conc : (Nat → C) → Op → Option (Except E (C ⊕ O))
  abst : (Nat → A) → Op → A ⊕ P
  /-- Why a call is refused. -/
  refusal : (Nat → C) → Op → Option E
  /-- The stored value stands for the abstract one. -/
  Stands : C → A → Prop
  /-- The two levels say the same. -/
  Agrees : O → P → Prop
  /-- The first stored value may become the second one at any time. -/
  Unseen : C → C → Prop

namespace Calls

variable {Op C A O P E : Type} (calls : Calls Op C A O P E)

/-- The registers after a call: the value it made is in its register. -/
def kept {L M : Type} (s : Nat → L) (dst : Nat) : L ⊕ M → Nat → L
  | .inl made => Function.update s dst made
  | .inr _ => s

/-- The calls of the list, each with the register of what it makes, give at the stored level what
they give at the abstract one, whatever happens unseen between two of them: none stops, and one is
refused exactly for its reason and changes nothing. -/
def Follows : (Nat → C) → (Nat → A) → List (Op × Nat) → Prop
  | _, _, [] => True
  | s, t, (op, dst) :: rest =>
    match calls.conc s op with
    | none => False
    | some (.error e) =>
      calls.refusal s op = some e ∧
        ∀ s', (∀ i, calls.Unseen (s i) (s' i)) → Follows s' t rest
    | some (.ok answer) =>
      calls.refusal s op = none ∧ Sum.LiftRel calls.Stands calls.Agrees answer (calls.abst t op) ∧
        ∀ s', (∀ i, calls.Unseen (kept s dst answer i) (s' i)) →
          Follows s' (kept t dst (calls.abst t op)) rest

/-- A call gives what the abstract call gives, or is refused for its reason. -/
def Answered (refusal : Option E) (got : Option (Except E (C ⊕ O))) (want : A ⊕ P) : Prop :=
  match refusal with
  | some e => got = some (.error e)
  | none => ∃ answer, got = some (.ok answer) ∧
      Sum.LiftRel calls.Stands calls.Agrees answer want

/-- One call from registers that stand for others gives what the abstract call gives. -/
def Sound : Prop :=
  ∀ s t op, (∀ i, calls.Stands (s i) (t i)) →
    calls.Answered (calls.refusal s op) (calls.conc s op) (calls.abst t op)

variable {calls}

theorem stands_kept {s : Nat → C} {t : Nat → A} (h : ∀ i, calls.Stands (s i) (t i)) (dst : Nat)
    {answer : C ⊕ O} {answer' : A ⊕ P} (ha : Sum.LiftRel calls.Stands calls.Agrees answer answer')
    (i : Nat) : calls.Stands (kept s dst answer i) (kept t dst answer' i) := by
  cases ha with
  | inl hm =>
    by_cases hi : i = dst
    · subst hi
      simpa only [kept, Function.update_self] using hm
    · simpa only [kept, Function.update_of_ne hi] using h i
  | inr _ => exact h i

/-- Sequences of calls give what the abstract ones give, if each call alone does. -/
theorem follows (hs : calls.Sound)
    (hu : ∀ {c c' a}, calls.Unseen c c' → calls.Stands c a → calls.Stands c' a)
    (ops : List (Op × Nat)) {s : Nat → C} {t : Nat → A} (h : ∀ i, calls.Stands (s i) (t i)) :
    calls.Follows s t ops := by
  induction ops generalizing s t with
  | nil => trivial
  | cons call rest ih =>
    obtain ⟨op, dst⟩ := call
    have ho := hs s t op h
    rw [Follows]
    cases hr : calls.refusal s op with
    | some e =>
      rw [hr] at ho
      rw [ho]
      exact ⟨rfl, fun s' hs' => ih fun i => hu (hs' i) (h i)⟩
    | none =>
      rw [hr] at ho
      obtain ⟨answer, hc, hl⟩ := ho
      rw [hc]
      exact ⟨rfl, hl, fun s' hs' => ih fun i => hu (hs' i) (stands_kept h dst hl i)⟩

end Calls

end Silt
