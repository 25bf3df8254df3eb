import Mathlib

/-! Byte-addressed memory with little-endian 64-bit accesses. -/
namespace ByteMemory

abbrev Memory := ℕ → BitVec 8

def load64 (m : Memory) (a : ℕ) : BitVec 64 :=
  m (a + 7) ++ m (a + 6) ++ m (a + 5) ++ m (a + 4) ++ m (a + 3) ++ m (a + 2) ++ m (a + 1) ++ m a

def store64 (m : Memory) (a : ℕ) (w : BitVec 64) : Memory :=
  fun x => if a ≤ x ∧ x < a + 8 then w.extractLsb' (8 * (x - a)) 8 else m x

/-- One byte value in each of the `n` bytes from `a` on. -/
def fill (m : Memory) (a n : ℕ) (c : BitVec 8) : Memory :=
  fun x => if a ≤ x ∧ x < a + n then c else m x

/-- The memory whose `k`th aligned 64-bit word is `f k`. -/
def ofWords (f : ℕ → BitVec 64) : Memory := fun x => (f (x / 8)).extractLsb' (8 * (x % 8)) 8

theorem load64_getLsbD (m : Memory) (a k : ℕ) (h : k < 64) :
    (load64 m a).getLsbD k = (m (a + k / 8)).getLsbD (k % 8) := by
  have hk : k / 8 = 0 ∨ k / 8 = 1 ∨ k / 8 = 2 ∨ k / 8 = 3 ∨ k / 8 = 4 ∨ k / 8 = 5 ∨
      k / 8 = 6 ∨ k / 8 = 7 := by omega
  simp only [load64, BitVec.getLsbD_append]
  rcases hk with h0 | h0 | h0 | h0 | h0 | h0 | h0 | h0 <;> rw [h0] <;> split_ifs <;>
    first | omega | (congr 1; omega)

theorem load64_moved {m m' : Memory} {a b : ℕ} (h : ∀ i < 8, m (a + i) = m' (b + i)) :
    load64 m a = load64 m' b := by
  apply BitVec.eq_of_getLsbD_eq
  intro k hk
  rw [load64_getLsbD _ _ _ hk, load64_getLsbD _ _ _ hk, h (k / 8) (by omega)]

theorem load64_congr {m m' : Memory} {a : ℕ} (h : ∀ i < 8, m (a + i) = m' (a + i)) :
    load64 m a = load64 m' a := load64_moved h

/-- Unequal words differ in one of their eight bytes. -/
theorem exists_byte_ne {m m' : Memory} {a : ℕ} (h : load64 m a ≠ load64 m' a) :
    ∃ i < 8, m (a + i) ≠ m' (a + i) := by
  by_contra hc
  push Not at hc
  exact h (load64_congr hc)

@[simp] theorem load64_store64_same (m : Memory) (a : ℕ) (w : BitVec 64) :
    load64 (store64 m a w) a = w := by
  apply BitVec.eq_of_getLsbD_eq
  intro k hk
  have hin : a ≤ a + k / 8 ∧ a + k / 8 < a + 8 := by omega
  have hk' : 8 * (a + k / 8 - a) + k % 8 = k := by omega
  rw [load64_getLsbD _ _ _ hk]
  simp only [store64, if_pos hin, BitVec.getLsbD_extractLsb', hk']
  simp [Nat.mod_lt]

theorem store64_outside (m : Memory) {a x : ℕ} (w : BitVec 64) (h : x < a ∨ a + 8 ≤ x) :
    store64 m a w x = m x := if_neg (by omega)

theorem load64_store64_apart (m : Memory) {a b : ℕ} (w : BitVec 64)
    (h : a + 8 ≤ b ∨ b + 8 ≤ a) : load64 (store64 m a w) b = load64 m b :=
  load64_congr fun i _ => store64_outside m w (by omega)

/-- Storing what is there already changes nothing. -/
theorem store64_load64 (m : Memory) (a : ℕ) : store64 m a (load64 m a) = m := by
  funext x
  unfold store64
  split_ifs with h
  · apply BitVec.eq_of_getLsbD_eq
    intro k hk
    have hq : a + (8 * (x - a) + k) / 8 = x := by omega
    have hr : (8 * (x - a) + k) % 8 = k := by omega
    rw [BitVec.getLsbD_extractLsb', load64_getLsbD _ _ _ (by omega), hq, hr, decide_eq_true hk,
      Bool.true_and]
  · rfl

theorem fill_outside (m : Memory) {a n x : ℕ} (c : BitVec 8) (h : x < a ∨ a + n ≤ x) :
    fill m a n c x = m x := if_neg (by omega)

theorem load64_fill_zero (m : Memory) {a n b : ℕ} (h : a ≤ b ∧ b + 8 ≤ a + n) :
    load64 (fill m a n 0) b = 0 := by
  apply BitVec.eq_of_getLsbD_eq
  intro k hk
  have hin : a ≤ b + k / 8 ∧ b + k / 8 < a + n := by omega
  rw [load64_getLsbD _ _ _ hk]
  simp [fill, if_pos hin]

theorem load64_ofWords (f : ℕ → BitVec 64) (k : ℕ) : load64 (ofWords f) (8 * k) = f k := by
  apply BitVec.eq_of_getLsbD_eq
  intro j hj
  have hq : (8 * k + j / 8) / 8 = k := by omega
  have hr : 8 * ((8 * k + j / 8) % 8) + j % 8 = j := by omega
  rw [load64_getLsbD _ _ _ hj]
  simp only [ofWords, hq, BitVec.getLsbD_extractLsb', hr]
  simp [Nat.mod_lt]

end ByteMemory
