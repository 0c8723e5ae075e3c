import Mathlib.Logic.Function.Basic

/-!
# Facts at the nodes of a graph

The result of a dataflow analysis, read as what it says about runs.  A table has a fact at each
node that has been reached, and a fact `d` holds of a state `c` (`holds d c`).  A visit of a node
with its fact says what follows at other nodes, or refuses the node.  A node is *settled* when its
visit has gone through and everything the visit says is in the table; an analysis that works off
a list of changed nodes ends with every node settled, because a table that only grows keeps a node
settled whose own fact has not changed (`Settled.of_grows`).

## Main definitions

* `Knows`, `Told`, `Grows` : what a table says at a node, and when one table says more.
* `Settled` : a node whose consequences are in the table.

## Main results

* `Settled.of_grows` : growth elsewhere keeps a node settled.
-/

namespace Silt.Lib.Dataflow

variable {ι D C : Type} {holds : D → C → Prop} {table table' : ι → Option D} {i j : ι}

/-- The fact at the node holds of the state. -/
def Knows (holds : D → C → Prop) (table : ι → Option D) (i : ι) (c : C) : Prop :=
  ∃ d, table i = some d ∧ holds d c

/-- The node knows every state that the fact holds of. -/
def Told (holds : D → C → Prop) (table : ι → Option D) (i : ι) (d : D) : Prop :=
  ∀ c, holds d c → Knows holds table i c

/-- The second table knows whatever the first one knows. -/
def Grows (holds : D → C → Prop) (table table' : ι → Option D) : Prop :=
  ∀ i c, Knows holds table i c → Knows holds table' i c

theorem Grows.refl (holds : D → C → Prop) (table : ι → Option D) : Grows holds table table :=
  fun _ _ h => h

theorem Grows.trans {table'' : ι → Option D} (h : Grows holds table table')
    (h' : Grows holds table' table'') : Grows holds table table'' :=
  fun i c hc => h' i c (h i c hc)

theorem Told.of_grows {d : D} (h : Told holds table i d) (hg : Grows holds table table') :
    Told holds table' i d :=
  fun c hc => hg i c (h c hc)

theorem grows_of_weaker (d' : D) (hj : table' j = some d') (ho : ∀ i, i ≠ j → table' i = table i)
    (hw : ∀ d c, table j = some d → holds d c → holds d' c) : Grows holds table table' := by
  rintro i c ⟨d, hd, hc⟩
  by_cases hij : i = j
  · subst hij
    exact ⟨d', hj, hw d c hd hc⟩
  · exact ⟨d, by rw [ho i hij, hd], hc⟩

/-- The visit of the node with its fact goes through, and the table has what it says. -/
def Settled (holds : D → C → Prop) (visit : ι → D → Option (List (ι × D)))
    (table : ι → Option D) (i : ι) : Prop :=
  ∀ d, table i = some d → ∃ out, visit i d = some out ∧ ∀ p ∈ out, Told holds table p.1 p.2

variable {visit : ι → D → Option (List (ι × D))}

/-- A node whose fact stays as it was is settled in a table that has grown. -/
theorem Settled.of_grows (h : Settled holds visit table i) (hg : Grows holds table table')
    (hi : table' i = table i) : Settled holds visit table' i := by
  intro d hd
  obtain ⟨out, ho, ht⟩ := h d (hi ▸ hd)
  exact ⟨out, ho, fun p hp => (ht p hp).of_grows hg⟩

end Silt.Lib.Dataflow
