import Mathlib.Order.WellFoundedSet
import Silt.Types.Reduces

/-!
# What the search for cycles leaves out

A projection leads by the head of what it is of to the key of a binding.  The search that a binding
is registered by follows the keys from its type, and refuses it where they lead back to it.  A key
whose head becomes an alias later leads elsewhere then; so the keys are those of the heads that are
no aliases in the end, and of them none leads back to itself, whatever was registered in between.

## Main definitions

* `Resolver.Leads` : a projection that the one key is bound to leads to the other.
* `Resolver.Reached` : the resolvers that registrations lead to.

## Main results

* `Resolver.findAssocCycle_spec` : what a search that finds nothing has met.
* `Resolver.Reached.not_leads` : no key leads back to itself.
-/

namespace Silt.Types

open List Option Relation

open Ty

namespace Ty

variable {t : Ty} {p q : Shape → List Ty → Prop}

/-- It holds at some node of the type. -/
def Somewhere (p : Shape → List Ty → Prop) (t : Ty) : Prop :=
  ¬ t.Everywhere fun shape parts => ¬ p shape parts

theorem Everywhere.exists_of_somewhere (h : t.Everywhere p) (hq : t.Somewhere q) :
    ∃ shape parts, p shape parts ∧ q shape parts := by
  by_contra hn
  push Not at hn
  exact hq (h.imp fun shape parts hp => hn shape parts hp)

theorem everywhere_somewhere (t : Ty) :
    t.Everywhere fun shape parts => ∀ q : Shape → List Ty → Prop,
      q shape parts → t.Somewhere q := by
  induction t using ind with
  | var v => trivial
  | node shape parts ih =>
    refine everywhere_node.mpr ⟨fun q hq hn => (everywhere_node.mp hn).1 hq, fun part hp => ?_⟩
    exact (ih part hp).imp fun _ _ hs q hq hn => hs q hq ((everywhere_node.mp hn).2 part hp)

theorem Everywhere.and (h : t.Everywhere p) (hq : t.Everywhere q) :
    t.Everywhere fun shape parts => p shape parts ∧ q shape parts := by
  induction t using ind with
  | var v => trivial
  | node shape parts ih =>
    rw [everywhere_node] at h hq ⊢
    grind

end Ty

namespace Resolver

variable {r r' : Resolver} {fine : TypeRef → Prop} {t : Ty} {fuel : Nat}
  {visited visited' : List AssocKey} {key key' : AssocKey}

/-- At the node is a projection that leads to the key, by a head of those that are `fine`. -/
def ProjectsTo (fine : TypeRef → Prop) (key : AssocKey) (shape : Shape) (parts : List Ty) : Prop :=
  ∃ traitName assocName receiver head, shape = .assocProj traitName assocName ∧
    parts = [receiver] ∧ headOfCanon receiver = some head ∧ fine head ∧
    key = (traitName, dispatch head, assocName)

/-- A projection in what the key is bound to leads to the other, which is bound too. -/
def Leads (r : Resolver) (fine : TypeRef → Prop) (key key' : AssocKey) : Prop :=
  (r.assocBindings.lookup key').isSome ∧
    ∃ binding, r.assocBindings.lookup key = some binding ∧
      binding.ty.Somewhere (ProjectsTo fine key')

/-! ### The search -/

/-- The search comes to the key for the first time, and has visited it then, if it is bound. -/
def Met (r : Resolver) (visited visited' : List AssocKey) (key : AssocKey) : Prop :=
  key ∉ visited ∧ ((r.assocBindings.lookup key).isSome → key ∈ visited')

/-- The keys that the projections of the type lead to are met. -/
def AllMet (r : Resolver) (fine : TypeRef → Prop) (visited visited' : List AssocKey) : Ty → Prop :=
  Everywhere fun shape parts => ∀ key, ProjectsTo fine key shape parts → r.Met visited visited' key

/-- What the keys visited meanwhile are bound to has been searched too. -/
structure Traced (r : Resolver) (fine : TypeRef → Prop) (visited visited' : List AssocKey) :
    Prop where
  subset : visited ⊆ visited'
  closed : ∀ key ∈ visited', key ∉ visited → ∀ binding,
    r.assocBindings.lookup key = some binding → r.AllMet fine visited visited' binding.ty

theorem AllMet.mono {later earlier : List AssocKey} (h : r.AllMet fine visited visited' t)
    (he : earlier ⊆ visited) (hl : visited' ⊆ later) : r.AllMet fine earlier later t :=
  h.imp fun _ _ hm key hp => ⟨fun hk => (hm key hp).1 (he hk), fun hb => hl ((hm key hp).2 hb)⟩

theorem Traced.refl (visited : List AssocKey) : r.Traced fine visited visited :=
  ⟨Subset.refl _, fun _ hk hn => absurd hk hn⟩

theorem Traced.trans {later : List AssocKey} (h : r.Traced fine visited visited')
    (h' : r.Traced fine visited' later) : r.Traced fine visited later := by
  refine ⟨Subset.trans h.subset h'.subset, fun key hk hn binding hb => ?_⟩
  by_cases hm : key ∈ visited'
  · exact (h.closed key hm hn binding hb).mono (Subset.refl _) h'.subset
  · exact (h'.closed key hk hm binding hb).mono h.subset (Subset.refl _)

/-- The search goes on behind a key once what that is bound to has been searched. -/
theorem Traced.of_cons {binding : AssocBinding} (h : r.Traced fine (key :: visited) visited')
    (hb : r.assocBindings.lookup key = some binding)
    (hm : r.AllMet fine (key :: visited) visited' binding.ty) : r.Traced fine visited visited' := by
  refine ⟨Subset.trans (subset_cons_self key visited) h.subset, fun other ho hn binding' hb' => ?_⟩
  by_cases heq : other = key
  · obtain rfl : binding = binding' := Option.some.inj (hb.symm.trans (heq ▸ hb'))
    exact hm.mono (subset_cons_self _ _) (Subset.refl _)
  · exact (h.closed other ho (by simp [heq, hn]) binding' hb').mono (subset_cons_self _ _)
      (Subset.refl _)

/-- A projection has met what it leads to itself, only where its receiver has a head, and what is in
the receiver. -/
theorem AllMet.proj {tr : TraitKey} {nm : Symbol} {receiver : Ty}
    (hm : r.AllMet fine visited visited' receiver)
    (hk : ∀ head, headOfCanon receiver = some head → fine head →
      r.Met visited visited' (tr, dispatch head, nm)) :
    r.AllMet fine visited visited' (.node (.assocProj tr nm) [receiver]) := by
  refine everywhere_node.mpr ⟨?_, forall_mem_singleton.mpr hm⟩
  rintro key ⟨_, _, _, head, ⟨⟩, ⟨⟩, hh, hfine, rfl⟩
  exact hk head hh hfine

theorem findAssocCycle_proj (hf : ∀ head, fine head → r.lookupAlias head = none)
    (ih : ∀ t visited visited', r.findAssocCycle fuel t visited = some (none, visited') →
      r.Traced fine visited visited' ∧ r.AllMet fine visited visited' t)
    {tr : TraitKey} {nm : Symbol} {receiver : Ty}
    (h : r.findAssocCycle (fuel + 1) (.node (.assocProj tr nm) [receiver]) visited =
      some (none, visited')) :
    r.Traced fine visited visited' ∧
      r.AllMet fine visited visited' (.node (.assocProj tr nm) [receiver]) := by
  rw [findAssocCycle] at h
  cases hh : headOfCanon receiver with
  | none =>
    rw [hh] at h
    obtain ⟨htr, hm⟩ := ih _ _ _ h
    exact ⟨htr, hm.proj (by simp [hh])⟩
  | some head =>
    rw [hh] at h
    obtain ⟨canon, hc, h⟩ := bind_eq_some_iff.mp h
    have hd (h' : fine head) : canon = dispatch head := by
      cases fuel with
      | zero => cases hc
      | succ fuel => exact Option.some.inj (hc.symm.trans (canonicalHead_eq (hf head h') fuel))
    dsimp only at h
    by_cases hk : (tr, canon, nm) ∈ visited
    · rw [if_pos hk] at h
      cases h
    rw [if_neg hk] at h
    cases hb : r.assocBindings.lookup (tr, canon, nm) with
    | none =>
      rw [hb] at h
      obtain ⟨htr, hm⟩ := ih _ _ _ h
      refine ⟨htr, hm.proj fun head' hh' hfine => ?_⟩
      obtain rfl : head = head' := Option.some.inj (hh.symm.trans hh')
      exact ⟨hd hfine ▸ hk, by simp [← hd hfine, hb]⟩
    | some binding =>
      rw [hb] at h
      obtain ⟨⟨found, middle⟩, ht, h⟩ := bind_eq_some_iff.mp h
      cases found with
      | some key => cases h
      | none =>
        obtain ⟨htb, hmb⟩ := ih _ _ _ ht
        obtain ⟨htr, hm⟩ := ih _ _ _ h
        have htv := htb.of_cons hb hmb
        refine ⟨htv.trans htr, (hm.mono htv.subset (Subset.refl _)).proj fun head' hh' hfine => ?_⟩
        obtain rfl : head = head' := Option.some.inj (hh.symm.trans hh')
        exact ⟨hd hfine ▸ hk, fun _ => hd hfine ▸ htr.subset (htb.subset mem_cons_self)⟩

/-- A search that finds nothing has met every key that the projections lead to, and those that
what these are bound to leads to. -/
theorem findAssocCycle_spec (hf : ∀ head, fine head → r.lookupAlias head = none) (fuel : Nat) :
    (∀ t visited visited', r.findAssocCycle fuel t visited = some (none, visited') →
      r.Traced fine visited visited' ∧ r.AllMet fine visited visited' t) ∧
    ∀ ts visited visited', r.findCycleInParts fuel ts visited = some (none, visited') →
      r.Traced fine visited visited' ∧ ∀ t ∈ ts, r.AllMet fine visited visited' t := by
  induction fuel with
  | zero => exact ⟨nofun, nofun⟩
  | succ fuel ih =>
    refine ⟨fun t visited visited' h => ?_, fun ts visited visited' h => ?_⟩
    · cases t with
      | var v =>
        cases h
        exact ⟨.refl _, trivial⟩
      | node shape parts =>
        by_cases hp : ∃ tr nm receiver, shape = .assocProj tr nm ∧ parts = [receiver]
        · obtain ⟨tr, nm, receiver, rfl, rfl⟩ := hp
          exact findAssocCycle_proj hf ih.1 h
        · push Not at hp
          rw [findAssocCycle.eq_4 _ _ _ _ _ hp] at h
          obtain ⟨htr, hm⟩ := ih.2 _ _ _ h
          refine ⟨htr, everywhere_node.mpr ⟨?_, hm⟩⟩
          rintro key ⟨tr, nm, receiver, head, hs, hr, -⟩
          exact absurd hr (hp tr nm receiver hs)
    · cases ts with
      | nil =>
        cases h
        exact ⟨.refl _, by simp⟩
      | cons t ts =>
        obtain ⟨⟨found, middle⟩, ht, h⟩ := bind_eq_some_iff.mp h
        cases found with
        | some key => cases h
        | none =>
          obtain ⟨htr, hm⟩ := ih.1 t visited middle ht
          obtain ⟨htr', hm'⟩ := ih.2 ts middle visited' h
          refine ⟨htr.trans htr', forall_mem_cons.mpr ⟨hm.mono (Subset.refl _) htr'.subset, ?_⟩⟩
          exact fun t ht => (hm' t ht).mono htr.subset (Subset.refl _)

/-! ### Paths -/

/-- Of finitely many, where none leads back to itself, there is no way without an end. -/
theorem wellFounded_of_list {α : Type} {rel : α → α → Prop} (xs : List α)
    (hx : ∀ a b, rel a b → a ∈ xs ∧ b ∈ xs) (h : ∀ a, ¬ TransGen rel a a) :
    WellFounded fun b a => rel a b := by
  have hsw {a b : α} (h : TransGen (fun b a => rel a b) b a) : TransGen rel a b := by
    rw [← transGen_swap] at h
    exact h
  have hs : IsStrictOrder α (TransGen fun b a => rel a b) :=
    { irrefl := fun a ha => h a (hsw ha)
      trans := fun _ _ _ => TransGen.trans }
  have hon := (finite_toSet xs).wellFoundedOn (r := TransGen fun b a => rel a b)
  refine Subrelation.wf (fun {b a} hab => ?_) (Set.wellFoundedOn_iff.mp hon)
  exact ⟨.single hab, (hx a b hab).2, (hx a b hab).1⟩


/-- Where only what goes out of `x` or comes to it is new, a path is an old one or goes through
`x`. -/
theorem transGen_or_through {α : Type} {old now : α → α → Prop} {x a b : α}
    (hn : ∀ a b, now a b → a ≠ x → b ≠ x → old a b) (h : TransGen now a b) :
    TransGen old a b ∨ ReflTransGen now a x ∧ ReflTransGen now x b := by
  induction h with
  | @single b hab => grind
  | @tail b c hab hbc ih =>
    by_cases hc : c = x
    · exact .inr ⟨hc ▸ hab.to_reflTransGen.tail hbc, hc ▸ .refl⟩
    grind

/-! ### Registration -/

theorem lookup_put {α β : Type} [BEq α] [LawfulBEq α] [DecidableEq α] (xs : List (α × β)) (k a : α)
    (b : β) :
    List.lookup a ((k, b) :: xs.filter fun entry => entry.1 ≠ k) =
      if a = k then some b else xs.lookup a := by
  rw [lookup_cons]
  split_ifs with hak
  · rw [beq_iff_eq.mpr hak]
  · rw [beq_false_of_ne hak]
    dsimp only
    induction xs with
    | nil => rfl
    | cons x xs ih => grind

/-- A binding that is accepted stands in place of what was there, in canonical form, and a search
from it found nothing. -/
theorem registerAssocBinding_ok {tr : TraitKey} {targetHead : TypeRef} {nm : Symbol} {ty of : Ty}
    (h : r.registerAssocBinding fuel tr targetHead nm ty of = some (.ok r')) :
    ∃ key u o visited, r.findAssocCycle fuel u [key] = some (none, visited) ∧ r' = { r with
      assocBindings := (key, ⟨u, o⟩) :: r.assocBindings.filter fun entry => entry.1 ≠ key } := by
  obtain ⟨head, -, h⟩ := bind_eq_some_iff.mp h
  obtain ⟨u, -, h⟩ := bind_eq_some_iff.mp h
  obtain ⟨⟨found, visited⟩, hs, h⟩ := bind_eq_some_iff.mp h
  cases found with
  | some via => simp at h
  | none =>
    obtain ⟨o, -, h⟩ := bind_eq_some_iff.mp h
    grind

/-- A registration: of an alias, or of a binding that is accepted. -/
inductive Registers : Resolver → Resolver → Prop
  | named (r : Resolver) (id : Nat) (info : AliasInfo) : Registers r (r.registerAlias id info)
  | binding (r r' : Resolver) (fuel : Nat) (traitName : TraitKey) (targetHead : TypeRef)
      (assocName : Symbol) (ty of : Ty)
      (hok : r.registerAssocBinding fuel traitName targetHead assocName ty of = some (.ok r')) :
      Registers r r'

/-- The resolvers reached from the empty one. -/
def Reached (r : Resolver) : Prop := ReflTransGen Registers new r

theorem Registers.lookupAlias (h : Registers r r') {head : TypeRef}
    (hn : r'.lookupAlias head = none) : r.lookupAlias head = none := by
  cases h with
  | named id info =>
    cases head with
    | builtin _ => rfl
    | user other =>
      have hl := (lookup_put r.aliases id other info).symm.trans hn
      split_ifs at hl
      exact hl
  | binding _ _ _ _ _ _ _ hok =>
    obtain ⟨_, _, _, _, -, rfl⟩ := registerAssocBinding_ok hok
    exact hn

/-- The step: a binding that is accepted leads back to no key. -/
theorem Registers.not_leads (h : Registers r r')
    (hf : ∀ head, fine head → r.lookupAlias head = none)
    (hn : ∀ key, ¬ TransGen (r.Leads fine) key key) (key : AssocKey) :
    ¬ TransGen (r'.Leads fine) key key := by
  cases h with
  | named id info => exact hn key
  | binding _ fuel tr targetHead nm ty of hok =>
    obtain ⟨put, u, o, visited, hs, hr⟩ := registerAssocBinding_ok hok
    obtain ⟨htr, hm⟩ := (findAssocCycle_spec hf fuel).1 u [put] visited hs
    have hl (a : AssocKey) : r'.assocBindings.lookup a =
        if a = put then some ⟨u, o⟩ else r.assocBindings.lookup a := by
      rw [hr]
      exact lookup_put r.assocBindings put a ⟨u, o⟩
    -- what is met is another key, which the search has visited if it is bound
    have hmt {t : Ty} {k : AssocKey} (ht : r.AllMet fine [put] visited t)
        (hs : t.Somewhere (ProjectsTo fine k)) (hb : (r'.assocBindings.lookup k).isSome) :
        k ≠ put ∧ k ∈ visited := by
      obtain ⟨shape, parts, ha, hp⟩ := ht.exists_of_somewhere hs
      obtain ⟨hk, hv⟩ := ha k hp
      grind
    have hfrom (k : AssocKey) (h : TransGen (r'.Leads fine) put k) : k ≠ put ∧ k ∈ visited := by
      induction h with
      | single h =>
        obtain ⟨hb, binding, hlk, hs⟩ := h
        grind
      | tail _ h ih =>
        obtain ⟨hb, binding, hlk, hs⟩ := h
        rw [hl, if_neg ih.1] at hlk
        exact hmt (htr.closed _ ih.2 (by simpa using ih.1) binding hlk) hs hb
    have hold (a b : AssocKey) (hab : r'.Leads fine a b) (ha : a ≠ put) (hb : b ≠ put) :
        r.Leads fine a b := by
      obtain ⟨hbn, binding, hlk, hs⟩ := hab
      rw [hl, if_neg hb] at hbn
      rw [hl, if_neg ha] at hlk
      exact ⟨hbn, binding, hlk, hs⟩
    intro hc
    rcases transGen_or_through hold hc with ho | ⟨hto, hfr⟩
    · exact hn key ho
    · exact (hfrom put ((TransGen.trans_right hfr hc).trans_left hto)).1 rfl

/-- The run: in every resolver reached no key leads back to itself. -/
theorem Reached.not_leads (h : Reached r) (hf : ∀ head, fine head → r.lookupAlias head = none)
    (key : AssocKey) : ¬ TransGen (r.Leads fine) key key := by
  induction h generalizing key with
  | refl =>
    intro hc
    obtain ⟨_, ⟨hb, -⟩, -⟩ := TransGen.head'_iff.mp hc
    cases hb
  | tail _ hs ih =>
    exact hs.not_leads (fun head h => hs.lookupAlias (hf head h))
      (ih fun head h => hs.lookupAlias (hf head h)) key

end Resolver

end Silt.Types
