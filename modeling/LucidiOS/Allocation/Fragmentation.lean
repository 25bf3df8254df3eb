import LucidiOS.Allocation.FirstFit

/-! How many cells can be free when no free run is long enough. -/
namespace FirstFit

/-- The first cell of the free run that ends with cell `q`. -/
def runStart (free : ℕ → Bool) : ℕ → ℕ
  | 0 => 0
  | q + 1 => if free q then runStart free q else q + 1

section Runs
variable {free : ℕ → Bool} {b n q k : ℕ}

theorem runStart_le (free : ℕ → Bool) (q : ℕ) : runStart free q ≤ q := by
  induction q with
  | zero => exact Nat.le_refl 0
  | succ q ih =>
    rw [runStart]
    split_ifs <;> omega

theorem runStart_free (h1 : runStart free q ≤ k) (h2 : k < q) : free k = true := by
  induction q with
  | zero => omega
  | succ q ih =>
    rw [runStart] at h1
    split_ifs at h1 with hq
    · by_cases hk : k = q
      · exact hk ▸ hq
      · exact ih h1 (by omega)
    · omega

/-- Before a free run there is a used cell or nothing. -/
theorem runStart_before (free : ℕ → Bool) (q : ℕ) :
    runStart free q = 0 ∨ free (runStart free q - 1) = false := by
  induction q with
  | zero => exact Or.inl rfl
  | succ q ih =>
    rw [runStart]
    split_ifs with hq
    · exact ih
    · exact Or.inr (by simpa using hq)

/-- Where `b` cells in a row cannot be found, each free run has fewer cells, and it starts at 0 or
at one of the cells that follow a used one. -/
theorem card_free_le (hb : 0 < b) (hnone : firstFit free b n = none) (ends : Finset ℕ)
    (hends : ∀ g < n, 0 < g → free g = true → free (g - 1) = false → g ∈ ends) :
    ((Finset.range n).filter fun q => free q = true).card ≤ (ends.card + 1) * (b - 1) := by
  have hcard : (insert 0 ends ×ˢ Finset.range (b - 1)).card ≤ (ends.card + 1) * (b - 1) := by
    rw [Finset.card_product, Finset.card_range]
    exact Nat.mul_le_mul_right _ (Finset.card_insert_le 0 ends)
  refine le_trans (Finset.card_le_card_of_injOn (fun q => (runStart free q, q - runStart free q))
    ?_ ?_) hcard
  · intro q hq
    simp only [Finset.coe_filter, Finset.mem_range, Set.mem_ofPred_eq] at hq
    obtain ⟨hqn, hqfree⟩ := hq
    have hle := runStart_le free q
    have hfree (k : ℕ) (h1 : runStart free q ≤ k) (h2 : k ≤ q) : free k = true := by
      by_cases hk : k = q
      · exact hk ▸ hqfree
      · exact runStart_free h1 (by omega)
    have hshort : q - runStart free q < b - 1 := by
      by_contra hc
      have hrun := firstFit_eq_none.mp hnone (runStart free q) (by omega)
      rw [freeRun_eq_true.mpr fun k hk => hfree _ (by omega) (by omega)] at hrun
      contradiction
    rw [Finset.mem_coe, Finset.mem_product, Finset.mem_range, Finset.mem_insert]
    refine ⟨?_, hshort⟩
    change runStart free q = 0 ∨ runStart free q ∈ ends
    rcases runStart_before free q with h0 | h0
    · exact Or.inl h0
    · by_cases hz : runStart free q = 0
      · exact Or.inl hz
      · exact Or.inr (hends _ (by omega) (by omega) (hfree _ (Nat.le_refl _) hle) h0)
  · intro p _ q _ heq
    simp only [Prod.mk.injEq] at heq
    have := runStart_le free p
    have := runStart_le free q
    omega

end Runs
end FirstFit
