import LucidiOS.Memory.WordArray

/-! The page bitmap: `pmm_free_page`, `pmm_lock_page` and `pmm_alloc2`. -/
namespace LucidiOS

abbrev Word := BitVec 64

namespace Pmm
variable {σ : Type*}

def pmmFreePage (bitmapArg : WordArray σ) (pageIdx : Word) (s : σ) : σ :=
  let arrayIndex := (pageIdx / 64).toNat
  let bitIndex := pageIdx % 64
  bitmapArg.set s arrayIndex (bitmapArg.get s arrayIndex &&& ~~~(1#64 <<< bitIndex))

def pmmLockPage (bitmapArg : WordArray σ) (pageIdx : Word) (s : σ) : σ :=
  let arrayIndex := (pageIdx / 64).toNat
  let bitIndex := pageIdx % 64
  bitmapArg.set s arrayIndex (bitmapArg.get s arrayIndex ||| (1#64 <<< bitIndex))

/-- The row and column at which the nested loops of `pmm_alloc2` stop. -/
def pmmScan (bitmap : WordArray σ) (bitmapLength : Word) (s : σ) : Option (ℕ × ℕ) :=
  (List.range (bitmapLength / 64).toNat).findSome? fun i =>
    if bitmap.get s i = ~~~0 then none
    else ((List.range 64).find? fun j => bitmap.get s i &&& (1#64 <<< j) = 0).map fun j => (i, j)

/-- The address returned and the state afterwards; 0 when the scan finds nothing. -/
def pmmAlloc2 (bitmap : WordArray σ) (bitmapLength : Word) (s : σ) : Word × σ :=
  match pmmScan bitmap bitmapLength s with
  | some (i, j) =>
      (BitVec.ofNat 64 (i * 64 + j) * 4096, pmmLockPage bitmap (BitVec.ofNat 64 (i * 64 + j)) s)
  | none => (0, s)

theorem pmmFreePage_eq (A : WordArray σ) (p : Word) (s : σ) :
    pmmFreePage A p s = A.clearBit p.toNat s := by
  simp [pmmFreePage, WordArray.clearBit, BitVec.twoPow]

theorem pmmLockPage_eq (A : WordArray σ) (p : Word) (s : σ) :
    pmmLockPage A p s = A.setBit p.toNat s := by
  simp [pmmLockPage, WordArray.setBit, BitVec.twoPow]

/-- Pages that the scan can reach. -/
def scanned (bitmapLength : Word) : ℕ := 64 * (bitmapLength.toNat / 64)

theorem scanned_le (L : Word) : scanned L ≤ L.toNat := Nat.mul_div_le _ _

private theorem findSome?_range {β : Type*} {f : ℕ → Option β} {n a : ℕ} {b : β} (ha : a < n)
    (hbefore : ∀ i < a, f i = none) (hat : f a = some b) :
    (List.range n).findSome? f = some b := by
  induction n with
  | zero => omega
  | succ n ih =>
    rw [List.range_succ, List.findSome?_append]
    by_cases han : a < n
    · rw [ih han, Option.some_or]
    · obtain rfl : a = n := by omega
      have hnone : (List.range a).findSome? f = none := by
        simpa [List.findSome?_eq_none_iff] using hbefore
      simp [hnone, hat]

theorem and_shift_eq_zero (w : Word) {j : ℕ} (hj : j < 64) :
    w &&& (1#64 <<< j) = 0 ↔ w.getLsbD j = false := by
  change w &&& BitVec.twoPow 64 j = 0 ↔ _
  rw [BitVec.and_twoPow]
  cases hw : w.getLsbD j with
  | false => simp
  | true =>
    simp only [↓reduceIte, Bool.true_eq_false, iff_false]
    intro h
    have := congrArg (fun x => x.getLsbD j) h
    simp [hj] at this

/-- The nested scan finds the first clear bit of the full rows. -/
theorem pmmScan_eq (A : WordArray σ) (L : Word) (s : σ) :
    pmmScan A L s = (A.firstClear s (scanned L)).map fun p => (p / 64, p % 64) := by
  have hlen : (L / 64).toNat = L.toNat / 64 := by simp
  cases hf : A.firstClear s (scanned L) with
  | none =>
    rw [WordArray.firstClear_eq_none] at hf
    simp only [pmmScan, Option.map_none, List.findSome?_eq_none_iff, List.mem_range]
    intro i hi
    have hfull : A.get s i = ~~~0 := by
      apply WordArray.get_eq_allOnes.mpr
      exact fun j hj => hf _ (by unfold scanned; omega)
    rw [if_pos hfull]
  | some p =>
    obtain ⟨hp, hclear, hset⟩ := WordArray.firstClear_eq_some.mp hf
    have hrow : p / 64 < L.toNat / 64 := by unfold scanned at hp; omega
    have hidx : 64 * (p / 64) + p % 64 = p := Nat.div_add_mod p 64
    have hbit : ∀ j < 64, (A.get s (p / 64)).getLsbD j = A.bit s (64 * (p / 64) + j) := by
      intro j hj
      rw [WordArray.bit, show (64 * (p / 64) + j) / 64 = p / 64 by omega,
        show (64 * (p / 64) + j) % 64 = j by omega]
    rw [pmmScan, hlen, Option.map_some]
    apply findSome?_range hrow
    · intro i hi
      have hfull : A.get s i = ~~~0 :=
        WordArray.get_eq_allOnes.mpr fun j hj => hset _ (by omega)
      rw [if_pos hfull]
    · have hopen : A.get s (p / 64) ≠ ~~~0 := by
        intro h
        have := WordArray.get_eq_allOnes.mp h (p % 64) (by omega)
        rw [hidx, hclear] at this
        contradiction
      have hfind : ((List.range 64).find? fun j => A.get s (p / 64) &&& (1#64 <<< j) = 0) =
          some (p % 64) := by
        rw [List.find?_range_eq_some]
        refine ⟨?_, by simp [Nat.mod_lt], ?_⟩
        · rw [decide_eq_true_eq, and_shift_eq_zero _ (by omega), hbit _ (by omega), hidx, hclear]
        · intro j hj
          rw [Bool.not_eq_true', decide_eq_false_iff_not, and_shift_eq_zero _ (by omega),
            hbit _ (by omega), hset _ (by omega)]
          simp
      rw [if_neg hopen, hfind, Option.map_some]

/-- `pmm_alloc2` takes the first clear bit of the full rows. -/
theorem pmmAlloc2_eq (A : WordArray σ) (L : Word) (s : σ) :
    pmmAlloc2 A L s = match A.firstClear s (scanned L) with
      | some p => (BitVec.ofNat 64 p * 4096, A.setBit p s)
      | none => (0, s) := by
  rw [pmmAlloc2, pmmScan_eq]
  cases hf : A.firstClear s (scanned L) with
  | none => rfl
  | some p =>
    have hp := (WordArray.firstClear_eq_some.mp hf).1
    have hpL := scanned_le L
    have hidx : p / 64 * 64 + p % 64 = p := Nat.div_add_mod' p 64
    have hnat : (BitVec.ofNat 64 p).toNat = p := Nat.mod_eq_of_lt (by omega)
    simp only [Option.map_some, hidx, pmmLockPage_eq, hnat]

theorem pmmAlloc2_ne_zero {A : WordArray σ} {L : Word} {s : σ} (h : (pmmAlloc2 A L s).1 ≠ 0) :
    ∃ p < scanned L, A.bit s p = false ∧ (∀ q < p, A.bit s q = true) ∧
      pmmAlloc2 A L s = (BitVec.ofNat 64 p * 4096, A.setBit p s) := by
  rw [pmmAlloc2_eq] at h ⊢
  cases hf : A.firstClear s (scanned L) with
  | none => simp [hf] at h
  | some p =>
    obtain ⟨hp, hclear, hset⟩ := WordArray.firstClear_eq_some.mp hf
    exact ⟨p, hp, hclear, hset, rfl⟩

theorem pmmAlloc2_of_first {A : WordArray σ} {L : Word} {s : σ} {p : ℕ} (hp : p < scanned L)
    (hclear : A.bit s p = false) (hset : ∀ q < p, A.bit s q = true) :
    pmmAlloc2 A L s = (BitVec.ofNat 64 p * 4096, A.setBit p s) := by
  rw [pmmAlloc2_eq, WordArray.firstClear_eq_some.mpr ⟨hp, hclear, hset⟩]

/-- A page number below 2^52 survives the multiplication by the page size. -/
theorem page_address_toNat {p : ℕ} (h : p < 2 ^ 52) :
    (BitVec.ofNat 64 p * 4096 : Word).toNat = 4096 * p := by
  have h4096 : (4096 : Word).toNat = 4096 := rfl
  rw [BitVec.toNat_mul, BitVec.toNat_ofNat, h4096]
  omega

/-- A free page among the scanned rows is necessary and sufficient for success. -/
theorem pmmAlloc2_ne_zero_iff {A : WordArray σ} {L : Word} {s : σ} (h0 : A.bit s 0 = true)
    (hL : L.toNat ≤ 2 ^ 46) :
    (pmmAlloc2 A L s).1 ≠ 0 ↔ ∃ p < scanned L, A.bit s p = false := by
  constructor
  · intro hr
    obtain ⟨p, hp, hclear, -⟩ := pmmAlloc2_ne_zero hr
    exact ⟨p, hp, hclear⟩
  · rintro ⟨q, hq, hqclear⟩ hr
    rw [pmmAlloc2_eq] at hr
    cases hf : A.firstClear s (scanned L) with
    | none =>
      rw [WordArray.firstClear_eq_none.mp hf q hq] at hqclear
      contradiction
    | some p =>
      obtain ⟨hp, hclear, -⟩ := WordArray.firstClear_eq_some.mp hf
      have hsc := scanned_le L
      have hp0 : p ≠ 0 := by
        rintro rfl
        rw [h0] at hclear
        contradiction
      have haddr := page_address_toNat (show p < 2 ^ 52 by omega)
      simp only [hf] at hr
      rw [hr] at haddr
      change 0 = 4096 * p at haddr
      omega

end Pmm
end LucidiOS
