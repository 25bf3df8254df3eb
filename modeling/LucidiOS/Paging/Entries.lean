import LucidiOS.Paging.Hierarchy

/-! Single entries of paging tables: their fields, and what stores and clears do to them. -/
namespace Paging
open ByteMemory

section Stores
variable {m m' : Memory} {t T : ℕ} {i j : Fin 512}

/-- A table whose frame is unchanged keeps its entries. -/
theorem entry_congr (h : ∀ x, x / 4096 = t → m' x = m x) : entry m' t i = entry m t i :=
  load64_congr fun k hk => h _ (by omega)

@[simp] theorem entry_store (m : Memory) (T : ℕ) (i : Fin 512) (w : BitVec 64) :
    entry (store64 m (4096 * T + 8 * i) w) T i = w := load64_store64_same m _ w

theorem entry_store_apart (m : Memory) (w : BitVec 64) (h : t ≠ T ∨ j ≠ i) :
    entry (store64 m (4096 * T + 8 * i) w) t j = entry m t j := by
  apply load64_store64_apart m w
  rcases h with h | h
  · omega
  · rw [Ne, Fin.ext_iff] at h
    omega

theorem store_outside_frame (m : Memory) (i : Fin 512) (w : BitVec 64) {x : ℕ}
    (h : x / 4096 ≠ T) : store64 m (4096 * T + 8 * i) w x = m x :=
  store64_outside m w (by omega)

theorem fill_outside_frame (m : Memory) (c : BitVec 8) {x : ℕ} (h : x / 4096 ≠ T) :
    fill m (4096 * T) 4096 c x = m x := fill_outside m c (by omega)

@[simp] theorem entry_fill_zero (m : Memory) (N : ℕ) (i : Fin 512) :
    entry (fill m (4096 * N) 4096 0) N i = 0 := load64_fill_zero m (by omega)

theorem entry_fill_apart (m : Memory) (c : BitVec 8) (h : t ≠ T) :
    entry (fill m (4096 * T) 4096 c) t i = entry m t i :=
  entry_congr fun _ hx => fill_outside_frame m c (hx ▸ h)

end Stores

theorem entry_ofWords (f : ℕ → BitVec 64) (t : ℕ) (i : Fin 512) :
    entry (ofWords f) t i = f (512 * t + i) := by
  rw [entry, show 4096 * t + 8 * (i : ℕ) = 8 * (512 * t + i) by omega, load64_ofWords]

/-- A hierarchy whose top-level table is empty has no other table. -/
theorem tableAt_of_empty {m : Memory} {root t : ℕ} {p : List (Fin 512)}
    (hempty : ∀ i, present (entry m root i) = false) (h : tableAt m root p = some t) :
    p = [] ∧ t = root := by
  cases p with
  | nil => exact ⟨rfl, (Option.some.inj h).symm⟩
  | cons i p =>
    rw [tableAt_cons, child_eq_none_of_absent (hempty i)] at h
    contradiction

theorem frame_lt (e : BitVec 64) : frame e < 2 ^ 40 := Nat.mod_lt _ (by decide)

@[simp] theorem present_zero : present 0 = false := rfl

/-- Masking an entry with bits 51..12 leaves the address of its frame. -/
theorem mask_toNat (e : BitVec 64) : (e &&& 0x000FFFFFFFFFF000).toNat = 4096 * frame e := by
  have hmask : (0x000FFFFFFFFFF000 : BitVec 64).toNat = 2 ^ 12 * (2 ^ 40 - 1) := rfl
  rw [BitVec.toNat_and, hmask, frame]
  apply Nat.eq_of_testBit_eq
  intro i
  rw [Nat.testBit_and, Nat.testBit_two_pow_mul, Nat.testBit_two_pow_sub_one,
    show 4096 = 2 ^ 12 from rfl, Nat.testBit_two_pow_mul, Nat.testBit_mod_two_pow,
    Nat.testBit_div_two_pow]
  by_cases h : 12 ≤ i
  · rw [Nat.sub_add_cancel h, Bool.and_comm, Bool.and_assoc]
  · simp [h]

theorem present_iff (e : BitVec 64) : present e = true ↔ ¬e &&& 1 = 0 := by
  have h := BitVec.and_twoPow e 0
  rw [present]
  change _ ↔ ¬(e &&& BitVec.twoPow 64 0) = 0
  rw [h]
  cases e.getLsbD 0 with
  | false => simp
  | true => exact iff_of_true rfl (by decide)

section Fields
variable {e f : BitVec 64}

/-- An entry made of a frame address and flags below bit 12. -/
theorem frame_or (he : e.toNat % 4096 = 0) (hlt : e.toNat < 2 ^ 52) (hf : f.toNat < 4096) :
    frame (e ||| f) = e.toNat / 4096 := by
  have hsum : (e ||| f).toNat = 2 ^ 12 * (e.toNat / 4096) + f.toNat := by
    rw [BitVec.toNat_or, Nat.two_pow_add_eq_or_of_lt (by omega : f.toNat < 2 ^ 12)]
    congr 1
    omega
  rw [frame, hsum]
  omega

theorem getLsbD_or_low (he : e.toNat % 4096 = 0) {k : ℕ} (hk : k < 12) :
    (e ||| f).getLsbD k = f.getLsbD k := by
  have hzero : e.getLsbD k = false := by
    rw [BitVec.getLsbD, Nat.testBit, Nat.shiftRight_eq_div_pow, Nat.and_comm,
      Nat.and_one_is_mod]
    have hdvd : 2 ^ (k + 1) ∣ e.toNat :=
      (Nat.pow_dvd_pow 2 (by omega : k + 1 ≤ 12)).trans (Nat.dvd_of_mod_eq_zero he)
    obtain ⟨c, hc⟩ := hdvd
    rw [hc, Nat.pow_succ, Nat.mul_assoc, Nat.mul_div_cancel_left _ (Nat.two_pow_pos k)]
    simp
  rw [BitVec.getLsbD_or, hzero, Bool.false_or]

end Fields

/-- The index of a level, computed as the processor's field of the address. -/
theorem index_toNat (v : BitVec 64) (level : ℕ) :
    ((v >>> (12 + 9 * level)) &&& 0x1FF).toNat = index v level := by
  have hmask : (0x1FF : BitVec 64).toNat = 2 ^ 9 - 1 := rfl
  rw [BitVec.toNat_and, hmask, Nat.and_two_pow_sub_one_eq_mod, BitVec.toNat_ushiftRight,
    Nat.shiftRight_eq_div_pow]
  rfl

end Paging
