import LucidiOS.Control.Loop

/-! Search in a sequence of records of varying size. -/

/-- Records in front of `limit`. The record at `o` takes `size o` bytes. -/
structure RecordStream where
  start : ℕ
  limit : ℕ
  size : ℕ → ℕ
  hit : ℕ → Bool

namespace RecordStream
variable (S : RecordStream)

/-- Where records begin. -/
inductive Boundary : ℕ → Prop
  | first : Boundary S.start
  | next {o : ℕ} : Boundary o → o < S.limit → Boundary (o + S.size o)

/-- Where records begin that have no hit in front of them. -/
inductive Reached : ℕ → Prop
  | first : Reached S.start
  | next {o : ℕ} : Reached o → o < S.limit → S.hit o = false → Reached (o + S.size o)

/-- One step of the search for the first hit. -/
def searchStep (o : ℕ) : ℕ ⊕ Option ℕ :=
  if o < S.limit then
    if S.hit o then .inr (some o) else .inl (o + S.size o)
  else .inr none

/-- Records at the given offsets, without a gap, from `o` to the limit. -/
def Tiles : ℕ → List ℕ → Prop
  | o, [] => o = S.limit
  | o, p :: ps => p = o ∧ Tiles (o + S.size o) ps

instance decideTiles : (o : ℕ) → (ps : List ℕ) → Decidable (S.Tiles o ps)
  | o, [] => inferInstanceAs (Decidable (o = S.limit))
  | o, p :: ps =>
    have := decideTiles (o + S.size o) ps
    inferInstanceAs (Decidable (p = o ∧ _))

variable {S} {o : ℕ}

theorem searchStep_eq_inl {p : ℕ} :
    S.searchStep o = .inl p ↔ o < S.limit ∧ S.hit o = false ∧ o + S.size o = p := by
  unfold searchStep
  by_cases hlt : o < S.limit <;> cases hhit : S.hit o <;> simp [hlt]

theorem searchStep_eq_some {p : ℕ} :
    S.searchStep o = .inr (some p) ↔ o < S.limit ∧ S.hit o = true ∧ o = p := by
  unfold searchStep
  by_cases hlt : o < S.limit <;> cases hhit : S.hit o <;> simp [hlt]

theorem searchStep_eq_none : S.searchStep o = .inr none ↔ S.limit ≤ o := by
  unfold searchStep
  split_ifs with hlt hhit <;> simp <;> omega

theorem Reached.boundary (h : S.Reached o) : S.Boundary o := by
  induction h with
  | first => exact .first
  | next _ hlt _ ih => exact ih.next hlt

theorem visits_iff : Loop.Visits S.searchStep S.start o ↔ S.Reached o := by
  constructor
  · intro h
    induction h with
    | refl => exact .first
    | tail _ hstep ih =>
      obtain ⟨hlt, hhit, rfl⟩ := searchStep_eq_inl.mp hstep
      exact ih.next hlt hhit
  · intro h
    induction h with
    | first => exact .start
    | next _ hlt hhit ih => exact ih.next (searchStep_eq_inl.mpr ⟨hlt, hhit, rfl⟩)

theorem visits_le {p : ℕ} (h : Loop.Visits S.searchStep o p) : o ≤ p := by
  refine h.inv (P := fun q => o ≤ q) (Nat.le_refl o) fun u v hu hstep => ?_
  obtain ⟨-, -, rfl⟩ := searchStep_eq_inl.mp hstep
  omega

/-- Nothing behind the first hit is reached. -/
theorem Reached.le_hit {p : ℕ} (hp : S.Reached p) (ho : S.Reached o)
    (hhit : S.hit o = true) : p ≤ o := by
  rcases (visits_iff.mpr ho).total (visits_iff.mpr hp) with h | h
  · rcases h.cases_head with rfl | ⟨q, hq, -⟩
    · exact Nat.le_refl o
    · obtain ⟨-, hmiss, -⟩ := searchStep_eq_inl.mp hq
      rw [hhit] at hmiss
      exact absurd hmiss Bool.noConfusion
  · exact visits_le h

/-- A record of size 0 is the only thing that can hold up a search. -/
theorem search_terminates_iff : Loop.Terminates S.searchStep S.start ↔
    ∀ o, S.Reached o → o < S.limit → S.hit o = false → 0 < S.size o := by
  constructor
  · intro h o ho hlt hhit
    by_contra hzero
    have hstay : S.searchStep o = .inl o := searchStep_eq_inl.mpr ⟨hlt, hhit, by omega⟩
    exact Loop.not_terminates_of_fixed (visits_iff.mpr ho) hstay h
  · intro h
    refine Loop.terminates_of_rank (fun o => S.limit - o) fun o ho p hp => ?_
    obtain ⟨hlt, hhit, rfl⟩ := searchStep_eq_inl.mp hp
    have := h o (visits_iff.mp ho) hlt hhit
    omega

theorem search_eq_some_iff : (∃ n, Loop.run S.searchStep n S.start = some (some o)) ↔
    S.Reached o ∧ o < S.limit ∧ S.hit o = true := by
  rw [Loop.exists_run_iff]
  constructor
  · rintro ⟨p, hp, hstep⟩
    obtain ⟨hlt, hhit, rfl⟩ := searchStep_eq_some.mp hstep
    exact ⟨visits_iff.mp hp, hlt, hhit⟩
  · rintro ⟨ho, hlt, hhit⟩
    exact ⟨o, visits_iff.mpr ho, searchStep_eq_some.mpr ⟨hlt, hhit, rfl⟩⟩

theorem search_eq_none_iff : (∃ n, Loop.run S.searchStep n S.start = some none) ↔
    ∃ o, S.Reached o ∧ S.limit ≤ o := by
  rw [Loop.exists_run_iff]
  simp only [visits_iff, searchStep_eq_none]

/-- A record that the search does not reach has a hit in front of it. -/
theorem Boundary.reached_or (h : S.Boundary o) :
    S.Reached o ∨ ∃ p, S.Reached p ∧ p < S.limit ∧ S.hit p = true ∧ p ≤ o := by
  induction h with
  | first => exact .inl .first
  | @next o _ hlt ih =>
    rcases ih with ho | ⟨p, hp, hplt, hhit, hle⟩
    · cases hhit : S.hit o with
      | false => exact .inl (ho.next hlt hhit)
      | true => exact .inr ⟨o, ho, hlt, hhit, by omega⟩
    · exact .inr ⟨p, hp, hplt, hhit, by omega⟩

/-- If any record is a hit then a search that ends finds the first one. -/
theorem Boundary.exists_first (h : S.Boundary o) (hlt : o < S.limit) (hhit : S.hit o = true) :
    ∃ p, S.Reached p ∧ p < S.limit ∧ S.hit p = true ∧ p ≤ o := by
  rcases h.reached_or with ho | hfirst
  · exact ⟨o, ho, hlt, hhit, Nat.le_refl o⟩
  · exact hfirst

section Tilings
variable {ps : List ℕ}

theorem Tiles.le_limit (h : S.Tiles o ps) : o ≤ S.limit := by
  induction ps generalizing o with
  | nil => exact Nat.le_of_eq h
  | cons p ps ih =>
    have := ih h.2
    omega

theorem Tiles.head_lt {q : ℕ} (h : S.Tiles q (q :: ps)) (hpos : 0 < S.size q) : q < S.limit := by
  have := h.2.le_limit
  omega

/-- On a tiling the search finds the first hit of the list. -/
theorem Tiles.find_eq_some {p : ℕ} (h : S.Tiles o ps) (hpos : ∀ q ∈ ps, 0 < S.size q)
    (ho : S.Reached o) (hfind : ps.find? S.hit = some p) :
    S.Reached p ∧ p < S.limit ∧ S.hit p = true := by
  induction ps generalizing o with
  | nil => contradiction
  | cons q ps ih =>
    obtain rfl := h.1
    have hlt := h.head_lt (hpos q List.mem_cons_self)
    cases hhit : S.hit q with
    | true =>
      rw [List.find?_cons_of_pos hhit, Option.some.injEq] at hfind
      exact hfind ▸ ⟨ho, hlt, hhit⟩
    | false =>
      rw [List.find?_cons_of_neg (by simp [hhit])] at hfind
      exact ih h.2 (fun r hr => hpos r (List.mem_cons_of_mem _ hr)) (ho.next hlt hhit) hfind

/-- Without a hit the search comes to the end of the tiling. -/
theorem Tiles.find_eq_none (h : S.Tiles o ps) (hpos : ∀ q ∈ ps, 0 < S.size q)
    (ho : S.Reached o) (hfind : ps.find? S.hit = none) : S.Reached S.limit := by
  induction ps generalizing o with
  | nil => exact h ▸ ho
  | cons q ps ih =>
    obtain rfl := h.1
    have hlt := h.head_lt (hpos q List.mem_cons_self)
    have hhit : S.hit q = false := by simpa using List.find?_eq_none.mp hfind q List.mem_cons_self
    rw [List.find?_cons_of_neg (by simp [hhit])] at hfind
    exact ih h.2 (fun r hr => hpos r (List.mem_cons_of_mem _ hr)) (ho.next hlt hhit) hfind

end Tilings
end RecordStream
