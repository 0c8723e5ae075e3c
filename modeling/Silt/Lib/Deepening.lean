import Mathlib.Data.List.Forall2

/-!
# Runs with a bound on their depth

A recursion that need not come to an end is a function with a bound on its depth, `none` past it.
Such a function is built from others, and where each of them keeps its result as the bound grows
(`Below`), so does the whole.

## Main results

* `Below.bind`, `Below.mapM`, `Below.foldlM` : what is put together from such runs is one.
* `below_of_le` : a result at one bound is the result at every greater one.
* `exists_mapM` : runs that each come to an end come to an end together.
-/

namespace Silt

variable {α β γ : Type}

/-- The second is what the first is, if the first is anything. -/
def Below (x y : Option α) : Prop := ∀ a, x = some a → y = some a

namespace Below

theorem refl (x : Option α) : Below x x := fun _ h => h

theorem none (x : Option α) : Below .none x := nofun

theorem trans {x y z : Option α} (h : Below x y) (h' : Below y z) : Below x z :=
  fun a ha => h' a (h a ha)

theorem bind {x y : Option α} {f g : α → Option β} (h : Below x y)
    (hfg : ∀ a, Below (f a) (g a)) : Below (x >>= f) (y >>= g) := by
  intro b hb
  cases x with
  | none => cases hb
  | some a =>
    rw [h a rfl]
    exact hfg a b hb

theorem mapM {f g : α → Option β} (h : ∀ a, Below (f a) (g a)) (xs : List α) :
    Below (xs.mapM f) (xs.mapM g) := by
  induction xs with
  | nil => exact refl _
  | cons x xs ih =>
    rw [List.mapM_cons, List.mapM_cons]
    exact (h x).bind fun _ => ih.bind fun _ => refl _

theorem foldlM {f g : β → α → Option β} (h : ∀ b a, Below (f b a) (g b a)) (xs : List α) (b : β) :
    Below (xs.foldlM f b) (xs.foldlM g b) := by
  induction xs generalizing b with
  | nil => exact refl _
  | cons x xs ih =>
    exact (h b x).bind ih

end Below

theorem below_of_le {f : Nat → α → Option β} (h : ∀ n a, Below (f n a) (f (n + 1) a)) {n m : Nat}
    (hle : n ≤ m) (a : α) : Below (f n a) (f m a) := by
  induction hle with
  | refl => exact Below.refl _
  | step _ ih => exact ih.trans (h _ a)

/-- Runs that each come to an end at some bound come to an end together at one. -/
theorem exists_mapM {f : Nat → α → Option β} (h : ∀ n a, Below (f n a) (f (n + 1) a))
    {xs : List α} {ys : List β} (hxs : List.Forall₂ (fun x y => ∃ n, f n x = some y) xs ys) :
    ∃ n, xs.mapM (f n) = some ys := by
  induction hxs with
  | nil => exact ⟨0, rfl⟩
  | cons hx _ ih =>
    obtain ⟨n, hn⟩ := hx
    obtain ⟨m, hm⟩ := ih
    refine ⟨max n m, ?_⟩
    rw [List.mapM_cons, below_of_le h (Nat.le_max_left n m) _ _ hn,
      Below.mapM (fun a => below_of_le h (Nat.le_max_right n m) a) _ _ hm]
    rfl

end Silt
