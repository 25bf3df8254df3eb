import LucidiOS.Apic.Controllers
import LucidiOS.Device.DownCounter

/-! How long `init_APIC_timer` waits for the PIT. -/
namespace LucidiOS.Apic
open DownCounter

/-- The reload value: the bytes written to channel 0, the low one first. -/
def pitReload : ℕ := (0x2E#8 ++ 0x9B#8).toNat

/-- `(hi << 8) | lo`. -/
def countOf (lo hi : BitVec 8) : BitVec 16 := ((hi.setWidth 32 <<< 8) ||| lo.setWidth 32).setWidth 16

/-- The counts that the loop reads: each time the counter is latched and given out in two bytes. -/
def latchedCount (S : Schedule pitReload) (i : ℕ) : BitVec 16 :=
  let latched := BitVec.ofNat 16 (count pitReload (S.tick i))
  countOf (latched.extractLsb' 0 8) (latched.extractLsb' 8 8)

/-- The loop is left at sample `k`. -/
def ExitsAt (pit : ℕ → BitVec 16) (k : ℕ) : Prop :=
  ∃ last, Loop.Visits (pitLoop pit) (0, 0xFFFF) (k, last) ∧ pitLoop pit (k, last) = .inr ()

section Exit
variable {pit : ℕ → BitVec 16} {k : ℕ}

/-- The two bytes give the count back. -/
theorem countOf_bytes (w : BitVec 16) : countOf (w.extractLsb' 0 8) (w.extractLsb' 8 8) = w := by
  apply BitVec.eq_of_getLsbD_eq
  intro i hi
  simp only [countOf, BitVec.getLsbD_setWidth, BitVec.getLsbD_or, BitVec.getLsbD_shiftLeft,
    BitVec.getLsbD_extractLsb']
  by_cases hlow : i < 8
  · simp [hlow, hi, show i < 32 by omega]
  · have hin : 8 + (i - 8) = i := by omega
    simp [hlow, hi, hin, show i - 8 < 8 by omega, show i - 8 < 32 by omega, show i < 32 by omega]

theorem exitsAt_iff : ExitsAt pit k ↔
    ∃ i, k = i + 1 ∧ pit i < pit (i + 1) ∧ ∀ j < i, ¬pit j < pit (j + 1) := by
  constructor
  · rintro ⟨last, hv, hexit⟩
    rcases pitLoop_visited hv with heq | ⟨i, heq, hbefore⟩
    · rw [heq, pitLoop_first] at hexit
      contradiction
    · rw [heq, pitLoop] at hexit
      split_ifs at hexit with hlt
      exact ⟨i, congrArg Prod.fst heq, hlt, hbefore⟩
  · rintro ⟨i, rfl, hlt, hbefore⟩
    exact ⟨pit i, pitLoop_visits hbefore, if_pos hlt⟩

end Exit

section Counts
variable (S : Schedule pitReload)

theorem latchedCount_toNat (i : ℕ) : (latchedCount S i).toNat = count pitReload (S.tick i) := by
  have hle : count pitReload (S.tick i) ≤ 0x2E9B := count_le pitReload _
  rw [latchedCount, countOf_bytes, BitVec.toNat_ofNat]
  omega

theorem latchedCount_lt_iff (i : ℕ) : latchedCount S i < latchedCount S (i + 1) ↔
    S.tick i / pitReload < S.tick (i + 1) / pitReload := by
  rw [BitVec.lt_def, latchedCount_toNat, latchedCount_toNat]
  exact count_lt_iff (S.later i) (S.gap i)

/-- The count that is read first after the counter has started anew is larger than the one before. -/
theorem latchedCount_rises {i : ℕ} (hbefore : ∀ j ≤ i, S.tick j < pitReload)
    (hafter : pitReload ≤ S.tick (i + 1)) : latchedCount S i < latchedCount S (i + 1) := by
  rw [latchedCount_lt_iff, Nat.div_eq_of_lt (hbefore i (Nat.le_refl i))]
  exact Nat.div_pos hafter (by decide)

/-- The loop is left at the first sample after the counter has started anew, and at no other. -/
theorem exitsAt_latchedCount_iff {i : ℕ} (hbefore : ∀ j ≤ i, S.tick j < pitReload)
    (hafter : pitReload ≤ S.tick (i + 1)) (k : ℕ) : ExitsAt (latchedCount S) k ↔ k = i + 1 := by
  have hzero (j : ℕ) (hj : j ≤ i) : S.tick j / pitReload = 0 := Nat.div_eq_of_lt (hbefore j hj)
  have hrise := latchedCount_rises S hbefore hafter
  have hfall (j : ℕ) (hj : j < i) : ¬latchedCount S j < latchedCount S (j + 1) := by
    rw [latchedCount_lt_iff, hzero j (by omega), hzero (j + 1) (by omega)]
    exact Nat.lt_irrefl 0
  rw [exitsAt_iff]
  constructor
  · rintro ⟨j, rfl, hlt, hno⟩
    obtain hji | rfl | hij := Nat.lt_trichotomy j i
    · exact absurd hlt (hfall j hji)
    · rfl
    · exact absurd hrise (hno i hij)
  · rintro rfl
    exact ⟨i, rfl, hrise, hfall⟩

end Counts

/-- The loop waits for one period: it is left at the first sample at or after the reload, less than
two periods after the start. -/
theorem pitLoop_waits_one_period (S : Schedule pitReload) :
    ∃ k, (∀ j, ExitsAt (latchedCount S) j ↔ j = k) ∧ (∀ j < k, S.tick j < pitReload) ∧
      pitReload ≤ S.tick k ∧ S.tick k < 2 * pitReload := by
  obtain ⟨i, hbefore, hafter, hlate⟩ := S.exists_first
  exact ⟨i + 1, exitsAt_latchedCount_iff S hbefore hafter, fun j hj => hbefore j (by omega), hafter,
    hlate⟩

/-- Read every 4096 ticks, the third time is the first after the reload. -/
example : let S : Schedule pitReload := .every (show 0 < 4096 by decide) (by decide)
    (Loop.run (pitLoop (latchedCount S)) 2 (0, 0xFFFF)).isSome = false ∧
      (Loop.run (pitLoop (latchedCount S)) 3 (0, 0xFFFF)).isSome = true := by decide

/-- `init_APIC_timer` returns. -/
theorem initAPICTimer_returns {δ : Type*} (D : Registers δ) (hhdm : Word) (S : Schedule pitReload)
    (d : δ) : ∃ n d', initAPICTimer D hhdm (latchedCount S) n d = some d' := by
  obtain ⟨i, hbefore, hafter, -⟩ := S.exists_first
  obtain ⟨n, r, hn⟩ := (pitLoop_terminates_iff (latchedCount S)).mpr
    ⟨i, latchedCount_rises S hbefore hafter⟩
  refine ⟨n, ?_⟩
  rw [← Option.isSome_iff_exists, initAPICTimer, hn]
  rfl

end LucidiOS.Apic
