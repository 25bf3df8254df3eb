import Mathlib

/-! Loops whose body yields the next state or leaves with a result. -/
namespace Loop
variable {σ ρ : Type*} (body : σ → σ ⊕ ρ)

/-- The result of a loop that leaves within `n` iterations. -/
def run : ℕ → σ → Option ρ
  | 0, _ => none
  | n + 1, s =>
      match body s with
      | .inl t => run n t
      | .inr r => some r

/-- The states in which a loop that starts in `s` executes its body. -/
def Visits (s t : σ) : Prop := Relation.ReflTransGen (fun u v => body u = .inl v) s t

def Terminates (s : σ) : Prop := ∃ n r, run body n s = some r

variable {body} {s t : σ} {r : ρ}

theorem run_succ_inl {n : ℕ} (h : body s = .inl t) : run body (n + 1) s = run body n t := by
  simp only [run, h]

theorem run_succ_inr {n : ℕ} (h : body s = .inr r) : run body (n + 1) s = some r := by
  simp only [run, h]

theorem Visits.start : Visits body s s := Relation.ReflTransGen.refl

theorem Visits.next {u : σ} (h : Visits body s t) (ht : body t = .inl u) : Visits body s u :=
  Relation.ReflTransGen.tail h ht

/-- What every iteration preserves holds in all states that a loop visits. -/
theorem Visits.inv {P : σ → Prop} (h : Visits body s t) (hs : P s)
    (hstep : ∀ u v, P u → body u = .inl v → P v) : P t := by
  induction h with
  | refl => exact hs
  | tail _ hu ih => exact hstep _ _ ih hu

/-- A loop leaves with the result of some iteration. -/
theorem exists_run_iff : (∃ n, run body n s = some r) ↔ ∃ t, Visits body s t ∧ body t = .inr r := by
  constructor
  · rintro ⟨n, h⟩
    induction n generalizing s with
    | zero => simp [run] at h
    | succ n ih =>
      cases hb : body s with
      | inl t =>
        rw [run_succ_inl hb] at h
        obtain ⟨u, hu, hr⟩ := ih h
        exact ⟨u, Relation.ReflTransGen.head hb hu, hr⟩
      | inr r' =>
        rw [run_succ_inr hb, Option.some.injEq] at h
        exact ⟨s, .start, h ▸ hb⟩
  · rintro ⟨t, hv, ht⟩
    induction hv using Relation.ReflTransGen.head_induction_on with
    | refl => exact ⟨1, run_succ_inr ht⟩
    | head hstep _ ih =>
      obtain ⟨n, hn⟩ := ih
      exact ⟨n + 1, by rw [run_succ_inl hstep, hn]⟩

theorem terminates_iff : Terminates body s ↔ ∃ t r, Visits body s t ∧ body t = .inr r := by
  constructor
  · rintro ⟨n, r, h⟩
    obtain ⟨t, hv, ht⟩ := exists_run_iff.mp ⟨n, h⟩
    exact ⟨t, r, hv, ht⟩
  · rintro ⟨t, r, hv, ht⟩
    obtain ⟨n, hn⟩ := exists_run_iff.mpr ⟨t, hv, ht⟩
    exact ⟨n, r, hn⟩

theorem run_unique {n m : ℕ} {r' : ρ} (h : run body n s = some r) (h' : run body m s = some r') :
    r = r' := by
  induction n generalizing s m with
  | zero => simp [run] at h
  | succ n ih =>
    cases m with
    | zero => simp [run] at h'
    | succ m =>
      cases hb : body s with
      | inl t =>
        rw [run_succ_inl hb] at h h'
        exact ih h h'
      | inr r₀ =>
        rw [run_succ_inr hb, Option.some.injEq] at h h'
        exact h.symm.trans h'

theorem Terminates.exists_isSome (h : Terminates body s) : ∃ n, (run body n s).isSome := by
  obtain ⟨n, r, hr⟩ := h
  exact ⟨n, by rw [hr, Option.isSome_some]⟩

/-- What a loop that terminates leaves with. -/
def result (h : Terminates body s) : ρ :=
  (run body (Nat.find h.exists_isSome) s).get (Nat.find_spec h.exists_isSome)

theorem result_exit (h : Terminates body s) : ∃ t, Visits body s t ∧ body t = .inr (result h) :=
  exists_run_iff.mp ⟨_, (Option.some_get _).symm⟩

/-- The rule for a loop that terminates: its invariant holds when it leaves. -/
theorem result_inv (h : Terminates body s) {P : σ → Prop} {Q : ρ → Prop} (hs : P s)
    (hstep : ∀ u v, P u → body u = .inl v → P v) (hexit : ∀ u r, P u → body u = .inr r → Q r) :
    Q (result h) := by
  obtain ⟨t, ht, hr⟩ := result_exit h
  exact hexit t _ (ht.inv hs hstep) hr

/-- A loop ends if a rank decreases with every iteration. -/
theorem terminates_of_rank (f : σ → ℕ)
    (h : ∀ t, Visits body s t → ∀ u, body t = .inl u → f u < f t) : Terminates body s := by
  induction hn : f s using Nat.strong_induction_on generalizing s with
  | _ n ih =>
    cases hb : body s with
    | inr r => exact ⟨1, r, run_succ_inr hb⟩
    | inl t =>
      have hlt : f t < n := hn ▸ h s .start t hb
      have htail (u : σ) (hu : Visits body t u) : Visits body s u := Relation.ReflTransGen.head hb hu
      obtain ⟨k, r, hk⟩ := ih (f t) hlt (fun u hu => h u (htail u hu)) rfl
      exact ⟨k + 1, r, by rw [run_succ_inl hb, hk]⟩

/-- The iterations of a loop form one sequence. -/
theorem Visits.total (ht : Visits body s t) {u : σ} (hu : Visits body s u) :
    Visits body t u ∨ Visits body u t :=
  Relation.ReflTransGen.total_of_right_unique
    (fun _ _ _ h h' => Sum.inl_injective (h.symm.trans h')) ht hu

/-- An iteration that repeats its state is the last one to be left. -/
theorem Visits.eq_of_fixed (ht : body t = .inl t) {u : σ} (h : Visits body t u) : u = t := by
  refine h.inv (P := fun u => u = t) rfl fun u v hu hstep => ?_
  rw [hu, ht, Sum.inl.injEq] at hstep
  exact hstep.symm

/-- A loop that reaches a state which its body leaves unchanged never ends. -/
theorem not_terminates_of_fixed (hv : Visits body s t) (ht : body t = .inl t) :
    ¬Terminates body s := by
  rw [terminates_iff]
  rintro ⟨u, r, hu, hr⟩
  rcases hv.total hu with h | h
  · rw [Visits.eq_of_fixed ht h, ht] at hr
    exact absurd hr (by simp)
  · rcases h.cases_head with rfl | ⟨v, hv', -⟩
    · rw [ht] at hr
      exact absurd hr (by simp)
    · rw [hr] at hv'
      exact absurd hv' (by simp)

section Simulation
variable {σ' ρ' : Type*} {body' : σ' → σ' ⊕ ρ'} {R : σ → σ' → Prop} {Q : ρ → ρ' → Prop}
  {s' : σ'}

/-- Related states take related steps. -/
def Simulates (body : σ → σ ⊕ ρ) (body' : σ' → σ' ⊕ ρ') (R : σ → σ' → Prop) (Q : ρ → ρ' → Prop) :
    Prop :=
  ∀ s s', R s s' → Sum.LiftRel R Q (body s) (body' s')

theorem Simulates.symm (h : Simulates body body' R Q) :
    Simulates body' body (fun s' s => R s s') (fun r' r => Q r r') := by
  intro s' s hs
  have hlift := h s s' hs
  cases hb : body s <;> cases hb' : body' s' <;> rw [hb, hb'] at hlift
  · exact .inl (Sum.liftRel_inl_inl.mp hlift)
  · exact absurd hlift Sum.not_liftRel_inl_inr
  · exact absurd hlift Sum.not_liftRel_inr_inl
  · exact .inr (Sum.liftRel_inr_inr.mp hlift)

theorem Simulates.visits (h : Simulates body body' R Q) (hs : R s s') (ht : Visits body s t) :
    ∃ t', Visits body' s' t' ∧ R t t' := by
  induction ht with
  | refl => exact ⟨s', .start, hs⟩
  | @tail u v _ hstep ih =>
    obtain ⟨u', hu', hr⟩ := ih
    have hlift := h u u' hr
    rw [hstep] at hlift
    cases hb : body' u' with
    | inl v' =>
      rw [hb, Sum.liftRel_inl_inl] at hlift
      exact ⟨v', hu'.next hb, hlift⟩
    | inr _ =>
      rw [hb] at hlift
      exact absurd hlift Sum.not_liftRel_inl_inr

theorem Simulates.run (h : Simulates body body' R Q) (hs : R s s') (n : ℕ) :
    Option.Rel Q (Loop.run body n s) (Loop.run body' n s') := by
  induction n generalizing s s' with
  | zero => exact .none
  | succ n ih =>
    have hlift := h s s' hs
    cases hb : body s with
    | inl t =>
      cases hb' : body' s' with
      | inl t' =>
        rw [hb, hb', Sum.liftRel_inl_inl] at hlift
        rw [run_succ_inl hb, run_succ_inl hb']
        exact ih hlift
      | inr _ =>
        rw [hb, hb'] at hlift
        exact absurd hlift Sum.not_liftRel_inl_inr
    | inr r =>
      cases hb' : body' s' with
      | inl _ =>
        rw [hb, hb'] at hlift
        exact absurd hlift Sum.not_liftRel_inr_inl
      | inr r' =>
        rw [hb, hb', Sum.liftRel_inr_inr] at hlift
        rw [run_succ_inr hb, run_succ_inr hb']
        exact .some hlift

theorem Simulates.run_eq_map {g : ρ' → ρ} (h : Simulates body body' R fun r r' => r = g r')
    (hs : R s s') (n : ℕ) : Loop.run body n s = (Loop.run body' n s').map g := by
  have hrel := h.run hs n
  generalize Loop.run body n s = x at hrel ⊢
  generalize Loop.run body' n s' = y at hrel ⊢
  cases hrel with
  | none => rfl
  | some hr => rw [hr, Option.map_some]

theorem Simulates.terminates_iff {g : ρ' → ρ} (h : Simulates body body' R fun r r' => r = g r')
    (hs : R s s') : Terminates body s ↔ Terminates body' s' := by
  simp only [Terminates, h.run_eq_map hs, Option.map_eq_some_iff]
  exact exists_congr fun n => ⟨fun ⟨_, r, hr, _⟩ => ⟨r, hr⟩, fun ⟨r, hr⟩ => ⟨_, r, hr, rfl⟩⟩

end Simulation
end Loop
