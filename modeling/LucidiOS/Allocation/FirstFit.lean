import Mathlib

/-! First fit over a row of cells: the specification, and a single pass that counts the free cells
it has just seen. -/
namespace FirstFit
variable (free : ℕ → Bool)

/-- The `b` cells from `s` on are free. -/
def freeRun (s b : ℕ) : Bool := (List.range b).all fun k => free (s + k)

/-- The least start of `b` free cells among the first `n`. -/
def firstFit (b n : ℕ) : Option ℕ := (List.range (n + 1 - b)).find? fun s => freeRun free s b

/-- One pass over `n` cells from cell `i` on. `found` cells before `i` are free, and `start` is
the first of them. -/
def scan (b : ℕ) : ℕ → ℕ → ℕ → ℕ → Option ℕ
  | 0, _, _, _ => none
  | n + 1, i, found, start =>
      if free i then
        let start := if found = 0 then i else start
        if found + 1 = b then some start else scan b n (i + 1) (found + 1) start
      else scan b n (i + 1) 0 start

variable {free} {b n s : ℕ}

theorem freeRun_eq_true : freeRun free s b = true ↔ ∀ k < b, free (s + k) = true := by
  simp [freeRun]

theorem firstFit_eq_some : firstFit free b n = some s ↔
    s + b ≤ n ∧ freeRun free s b = true ∧ ∀ t < s, freeRun free t b = false := by
  simp only [firstFit, List.find?_range_eq_some, List.mem_range, Bool.not_eq_true']
  constructor
  · rintro ⟨hfree, hlt, hleast⟩
    exact ⟨by omega, hfree, hleast⟩
  · rintro ⟨hlt, hfree, hleast⟩
    exact ⟨hfree, by omega, hleast⟩

theorem firstFit_eq_none :
    firstFit free b n = none ↔ ∀ s, s + b ≤ n → freeRun free s b = false := by
  simp only [firstFit, List.find?_eq_none, List.mem_range, Bool.not_eq_true]
  exact ⟨fun h s hs => h s (by omega), fun h s hs => h s (by omega)⟩

/-- Where the pass is before cell `i`: the `found` cells before `i` are the free ones since the
last used cell, and no fitting run ends before `i`. -/
structure ScanState (free : ℕ → Bool) (b i found start : ℕ) : Prop where
  found_le : found ≤ i
  found_lt : found < b
  start_eq : found ≠ 0 → start + found = i
  counted : ∀ k < found, free (i - found + k) = true
  broken : found < i → free (i - found - 1) = false
  none_before : ∀ s, s + b ≤ i → freeRun free s b = false

/-- A run that ends at `i` starts after the last used cell. -/
theorem ScanState.run_found {i found start : ℕ} (h : ScanState free b i found start)
    (hs : s + b = i + 1) (hrun : freeRun free s b = true) : i - found ≤ s := by
  by_contra hc
  have hfree := freeRun_eq_true.mp hrun (i - found - 1 - s) (by omega)
  rw [show s + (i - found - 1 - s) = i - found - 1 by omega, h.broken (by omega)] at hfree
  exact Bool.false_ne_true hfree

theorem ScanState.used {i found start : ℕ} (h : ScanState free b i found start)
    (hused : free i = false) : ScanState free b (i + 1) 0 start where
  found_le := Nat.zero_le _
  found_lt := by have := h.found_lt; omega
  start_eq hc := absurd rfl hc
  counted k hk := absurd hk (Nat.not_lt_zero k)
  broken _ := hused
  none_before s hs := by
    by_cases hle : s + b ≤ i
    · exact h.none_before s hle
    · have := h.found_lt
      by_contra hc
      have hfree := freeRun_eq_true.mp (by simpa using hc) (b - 1) (by omega)
      rw [show s + (b - 1) = i by omega, hused] at hfree
      exact Bool.false_ne_true hfree

theorem ScanState.extend {i found start : ℕ} (h : ScanState free b i found start)
    (hfree : free i = true) (hshort : found + 1 ≠ b) :
    ScanState free b (i + 1) (found + 1) (if found = 0 then i else start) where
  found_le := by have := h.found_le; omega
  found_lt := by have := h.found_lt; omega
  start_eq _ := by
    have := h.start_eq
    split_ifs <;> omega
  counted k hk := by
    have := h.found_le
    by_cases hlast : k = found
    · rw [hlast, show i + 1 - (found + 1) + found = i by omega, hfree]
    · rw [show i + 1 - (found + 1) + k = i - found + k by omega]
      exact h.counted k (by omega)
  broken hlt := by
    rw [show i + 1 - (found + 1) - 1 = i - found - 1 by omega]
    exact h.broken (by omega)
  none_before s hs := by
    by_cases hle : s + b ≤ i
    · exact h.none_before s hle
    · by_contra hc
      have := h.run_found (show s + b = i + 1 by omega) (by simpa using hc)
      have := h.found_lt
      omega

/-- From any such state the pass ends at the first fit. -/
theorem scan_eq {i found start : ℕ} (h : ScanState free b i found start) :
    scan free b n i found start = firstFit free b (i + n) := by
  induction n generalizing i found start with
  | zero =>
    rw [scan, eq_comm, firstFit_eq_none]
    exact h.none_before
  | succ n ih =>
    rw [scan, show i + (n + 1) = i + 1 + n by omega]
    cases hi : free i with
    | false => exact ih (h.used hi)
    | true =>
      simp only [↓reduceIte]
      by_cases hb : found + 1 = b
      · have hle := h.found_le
        have hstart : (if found = 0 then i else start) = i - found := by
          have := h.start_eq
          split_ifs <;> omega
        rw [if_pos hb, hstart, eq_comm, firstFit_eq_some]
        refine ⟨by omega, freeRun_eq_true.mpr fun k hk => ?_, fun t ht => ?_⟩
        · by_cases hlast : k = found
          · rw [hlast, show i - found + found = i by omega, hi]
          · exact h.counted k (by omega)
        · exact h.none_before t (by omega)
      · rw [if_neg hb]
        exact ih (h.extend hi hb)

theorem scan_eq_firstFit (hb : 0 < b) (start : ℕ) :
    scan free b n 0 0 start = firstFit free b n := by
  rw [scan_eq ⟨Nat.le_refl 0, hb, fun h => absurd rfl h, fun k hk => absurd hk (Nat.not_lt_zero k),
    fun h => absurd h (Nat.not_lt_zero 0), fun s hs => by omega⟩, Nat.zero_add]

/-- Cells behind a fitting run have no say in the choice. -/
theorem firstFit_prefix (free' : ℕ → Bool) {k : ℕ} (hk : k ≤ n)
    (hagree : ∀ i < k, free' i = free i) (hs : s + b ≤ k) (hfree : freeRun free s b = true) :
    ∃ t ≤ s, firstFit free b n = some t ∧ firstFit free' b n = some t := by
  have hrun (t : ℕ) (ht : t ≤ s) : freeRun free' t b = freeRun free t b := by
    rw [Bool.eq_iff_iff, freeRun_eq_true, freeRun_eq_true]
    refine forall₂_congr fun j hj => ?_
    rw [hagree (t + j) (by omega)]
  cases hfit : firstFit free b n with
  | none =>
    rw [firstFit_eq_none.mp hfit s (by omega)] at hfree
    contradiction
  | some t =>
    obtain ⟨ht, hfits, hleast⟩ := firstFit_eq_some.mp hfit
    have hts : t ≤ s := by
      by_contra hc
      rw [hleast s (by omega)] at hfree
      contradiction
    refine ⟨t, hts, rfl, firstFit_eq_some.mpr ⟨ht, (hrun t hts).trans hfits, fun u hu => ?_⟩⟩
    exact (hrun u (by omega)).trans (hleast u hu)

end FirstFit
