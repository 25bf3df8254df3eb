import Mathlib

/-! Pools of cells that are handed out in regions and given back whole. -/
namespace RegionPool
variable {ι α : Type*}

/-- The cells in use, and the regions currently handed out under their keys. -/
structure Pool (ι α : Type*) where
  occupied : Set α
  live : List (ι × Set α)

inductive Step : Pool ι α → Pool ι α → Prop
  | acquire (p : Pool ι α) (key : ι) (r : Set α) (free : Disjoint p.occupied r) :
      Step p ⟨p.occupied ∪ r, (key, r) :: p.live⟩
  | release (p : Pool ι α) (key : ι) (r : Set α) (rest : List (ι × Set α))
      (held : p.live.Perm ((key, r) :: rest)) : Step p ⟨p.occupied \ r, rest⟩

/-- Whole histories of a pool. -/
inductive Steps (start : Pool ι α) : Pool ι α → Prop
  | refl : Steps start start
  | tail {p q : Pool ι α} : Steps start p → Step p q → Steps start q

/-- The regions handed out are disjoint from each other and from the cells `base` that were in
use from the start, and nothing else is in use. -/
structure Pool.Inv (base : Set α) (p : Pool ι α) : Prop where
  disjoint : p.live.Pairwise fun a b => Disjoint a.2 b.2
  apart : ∀ a ∈ p.live, Disjoint base a.2
  occupied_iff : ∀ x, x ∈ p.occupied ↔ x ∈ base ∨ ∃ a ∈ p.live, x ∈ a.2

theorem inv_start (base : Set α) : (⟨base, []⟩ : Pool ι α).Inv base :=
  ⟨List.Pairwise.nil, by simp, by simp⟩

theorem Pool.Inv.acquire {base : Set α} {p : Pool ι α} (h : p.Inv base) (key : ι) {r : Set α}
    (free : Disjoint p.occupied r) : Pool.Inv base ⟨p.occupied ∪ r, (key, r) :: p.live⟩ := by
  have hsub : ∀ a ∈ p.live, a.2 ⊆ p.occupied := fun a ha x hx =>
    (h.occupied_iff x).mpr (Or.inr ⟨a, ha, hx⟩)
  have hbase : base ⊆ p.occupied := fun x hx => (h.occupied_iff x).mpr (Or.inl hx)
  constructor
  · rw [List.pairwise_cons]
    exact ⟨fun a ha => (free.mono_left (hsub a ha)).symm, h.disjoint⟩
  · intro a ha
    rcases List.mem_cons.mp ha with rfl | ha
    · exact free.mono_left hbase
    · exact h.apart a ha
  · intro x
    simp only [Set.mem_union, h.occupied_iff, List.mem_cons, exists_eq_or_imp]
    rw [or_right_comm, or_assoc]

theorem Pool.Inv.release {base : Set α} {p : Pool ι α} (h : p.Inv base) {key : ι} {r : Set α}
    {rest : List (ι × Set α)} (held : p.live.Perm ((key, r) :: rest)) :
    Pool.Inv base ⟨p.occupied \ r, rest⟩ := by
  have hpair := (held.pairwise_iff (fun hab => Disjoint.symm hab)).mp h.disjoint
  rw [List.pairwise_cons] at hpair
  have hr := h.apart (key, r) (held.mem_iff.mpr List.mem_cons_self)
  constructor
  · exact hpair.2
  · exact fun a ha => h.apart a (held.mem_iff.mpr (List.mem_cons_of_mem _ ha))
  · intro x
    have hmem : (∃ a ∈ p.live, x ∈ a.2) ↔ x ∈ r ∨ ∃ a ∈ rest, x ∈ a.2 := by
      simp only [held.mem_iff, List.mem_cons, exists_eq_or_imp]
    simp only [Set.mem_sdiff, h.occupied_iff, hmem]
    constructor
    · rintro ⟨hb | hb | hb, hx⟩
      · exact Or.inl hb
      · exact absurd hb hx
      · exact Or.inr hb
    · rintro (hb | ⟨a, ha, hx⟩)
      · exact ⟨Or.inl hb, Set.disjoint_left.mp hr hb⟩
      · exact ⟨Or.inr (Or.inr ⟨a, ha, hx⟩), fun hxr => Set.disjoint_left.mp (hpair.1 a ha) hxr hx⟩

theorem Pool.Inv.step {base : Set α} {p q : Pool ι α} (h : p.Inv base) (hs : Step p q) :
    q.Inv base := by
  cases hs with
  | acquire key r free => exact h.acquire key free
  | release key r rest held => exact h.release held

/-- No history hands out a cell twice, or one that was in use from the start. -/
theorem Steps.inv {base : Set α} {p : Pool ι α} (h : Steps ⟨base, []⟩ p) : p.Inv base := by
  induction h with
  | refl => exact inv_start base
  | tail _ hs ih => exact ih.step hs

end RegionPool
