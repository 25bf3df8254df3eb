import Mathlib

/-! A counter that counts down from `N` to 1 and then starts anew. -/
namespace DownCounter
variable {N t u : ℕ}

/-- The count after `t` ticks. -/
def count (N t : ℕ) : ℕ := N - t % N

/-- The ticks at which the counter is read, each less than a period after the one before. -/
structure Schedule (N : ℕ) where
  tick : ℕ → ℕ
  start : tick 0 < N
  later : ∀ i, tick i < tick (i + 1)
  gap : ∀ i, tick (i + 1) < tick i + N

/-- A reading every `d` ticks. -/
def Schedule.every {d : ℕ} (hpos : 0 < d) (hlt : d < N) : Schedule N where
  tick i := d * (i + 1)
  start := by omega
  later i := Nat.mul_lt_mul_of_pos_left (Nat.lt_succ_self _) hpos
  gap i := by
    rw [Nat.mul_succ d (i + 1)]
    omega

theorem count_le (N t : ℕ) : count N t ≤ N := Nat.sub_le _ _

/-- Within a period the count is larger than before exactly when the counter has started anew. -/
theorem count_lt_iff (htu : t < u) (hgap : u < t + N) : count N t < count N u ↔ t / N < u / N := by
  have hpos : 0 < N := by omega
  have ht := Nat.div_add_mod t N
  have hu := Nat.div_add_mod u N
  have htlt := Nat.mod_lt t hpos
  have hult := Nat.mod_lt u hpos
  unfold count
  constructor
  · intro hlt
    by_contra hle
    have hdiv : u / N = t / N := le_antisymm (by omega) (Nat.div_le_div_right htu.le)
    rw [hdiv] at hu
    omega
  · intro hlt
    have hnext : N * (t / N) + N ≤ N * (u / N) := by
      rw [← Nat.mul_succ]
      exact Nat.mul_le_mul_left N hlt
    omega

section Schedule
variable (S : Schedule N)

theorem Schedule.le_tick (i : ℕ) : i ≤ S.tick i := by
  induction i with
  | zero => exact Nat.zero_le _
  | succ i ih =>
    have := S.later i
    omega

/-- Some reading is the first one after the first period, and none falls a whole period late. -/
theorem Schedule.exists_first : ∃ i, (∀ j ≤ i, S.tick j < N) ∧ N ≤ S.tick (i + 1) ∧
    S.tick (i + 1) < 2 * N := by
  have hex : ∃ k, N ≤ S.tick k := ⟨N, S.le_tick N⟩
  have hfirst := Nat.find_spec hex
  have hbefore (j : ℕ) (hj : j < Nat.find hex) : S.tick j < N := by
    have := Nat.find_min hex hj
    omega
  cases hk : Nat.find hex with
  | zero =>
    have := S.start
    rw [hk] at hfirst
    omega
  | succ i =>
    rw [hk] at hfirst
    have hgap := S.gap i
    have hi := hbefore i (by omega)
    exact ⟨i, fun j hj => hbefore j (by omega), hfirst, by omega⟩

end Schedule
end DownCounter
