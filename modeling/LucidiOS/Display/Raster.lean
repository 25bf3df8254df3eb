import Mathlib

/-! Writes to a raster that is stored row by row, and its tiles. -/
namespace Raster
variable {κ α : Type*} [DecidableEq κ]

/-- Writes done one after another. -/
def perform (writes : List (κ × α)) (m : κ → α) : κ → α :=
  writes.foldl (fun m w => Function.update m w.1 w.2) m

@[simp] theorem perform_nil (m : κ → α) : perform [] m = m := rfl

@[simp] theorem perform_cons (w : κ × α) (writes : List (κ × α)) (m : κ → α) :
    perform (w :: writes) m = perform writes (Function.update m w.1 w.2) := rfl

theorem perform_append (writes writes' : List (κ × α)) (m : κ → α) :
    perform (writes ++ writes') m = perform writes' (perform writes m) := List.foldl_append

theorem perform_of_ne {writes : List (κ × α)} {k : κ} (h : ∀ w ∈ writes, w.1 ≠ k) (m : κ → α) :
    perform writes m k = m k := by
  induction writes generalizing m with
  | nil => rfl
  | cons w writes ih =>
    rw [perform_cons, ih fun w' hw' => h w' (List.mem_cons_of_mem _ hw')]
    exact Function.update_of_ne (h w List.mem_cons_self).symm _ _

/-- Writes that all put `v` at `k`, in whatever order. -/
theorem perform_of_agree {writes : List (κ × α)} {k : κ} {v : α}
    (h : ∀ w ∈ writes, w.1 = k → w.2 = v) (hex : ∃ w ∈ writes, w.1 = k) (m : κ → α) :
    perform writes m k = v := by
  induction writes generalizing m with
  | nil =>
    obtain ⟨w, hw, -⟩ := hex
    contradiction
  | cons w writes ih =>
    rw [perform_cons]
    by_cases hlater : ∃ w' ∈ writes, w'.1 = k
    · exact ih (fun w' hw' => h w' (List.mem_cons_of_mem _ hw')) hlater _
    · push Not at hlater
      obtain ⟨w', hw', hk⟩ := hex
      rcases List.mem_cons.mp hw' with rfl | hw'
      · rw [perform_of_ne hlater, ← hk, Function.update_self]
        exact h w' List.mem_cons_self hk
      · exact absurd hk (hlater w' hw')

/-- Where pixel `x` of row `y` is stored. -/
def index (stride x y : ℕ) : ℕ := y * stride + x

section Index
variable {stride x y x' y' n : ℕ}

theorem index_lt (hx : x < stride) (hy : y < n) : index stride x y < n * stride := by
  have := Nat.mul_le_mul_right stride (Nat.succ_le_of_lt hy)
  rw [Nat.succ_mul] at this
  unfold index
  omega

theorem index_inj (hx : x < stride) (hx' : x' < stride) :
    index stride x y = index stride x' y' ↔ x = x' ∧ y = y' := by
  refine ⟨fun h => ?_, fun h => by rw [h.1, h.2]⟩
  have hpos : 0 < stride := by omega
  have hrow := congrArg (· / stride) h
  simp only [index, Nat.mul_comm _ stride, Nat.mul_add_div hpos, Nat.div_eq_of_lt hx,
    Nat.div_eq_of_lt hx', Nat.add_zero] at hrow
  subst hrow
  exact ⟨Nat.add_left_cancel h, rfl⟩

theorem exists_index_iff {k : ℕ} (hpos : 0 < stride) :
    (∃ y < n, ∃ x < stride, k = index stride x y) ↔ k < n * stride := by
  constructor
  · rintro ⟨y, hy, x, hx, rfl⟩
    exact index_lt hx hy
  · intro hk
    refine ⟨k / stride, (Nat.div_lt_iff_lt_mul hpos).mpr hk, k % stride, Nat.mod_lt _ hpos, ?_⟩
    rw [index, Nat.mul_comm]
    exact (Nat.div_add_mod k stride).symm

/-- Rows further down and pixels further right are stored later. -/
theorem index_mono (hx : x ≤ x') (hy : y ≤ y') : index stride x y ≤ index stride x' y' :=
  Nat.add_le_add (Nat.mul_le_mul_right _ hy) hx

end Index

end Raster
