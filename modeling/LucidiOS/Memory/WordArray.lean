import LucidiOS.Memory.ByteMemory

/-! Arrays of 64-bit words inside a state, read as sets of bits. Bit `p` is bit
`p % 64` of word `p / 64`. -/

/-- How the elements of one array are read from, and written to, a state. -/
structure WordArray (σ : Type*) where
  get : σ → ℕ → BitVec 64
  set : σ → ℕ → BitVec 64 → σ

namespace WordArray
variable {σ : Type*}

/-- The first `n` elements are independent cells. -/
structure Lawful (A : WordArray σ) (n : ℕ) : Prop where
  get_set : ∀ s i j w, i < n → j < n → A.get (A.set s i w) j = if j = i then w else A.get s j

def bit (A : WordArray σ) (s : σ) (p : ℕ) : Bool := (A.get s (p / 64)).getLsbD (p % 64)

def setBit (A : WordArray σ) (p : ℕ) (s : σ) : σ :=
  A.set s (p / 64) (A.get s (p / 64) ||| BitVec.twoPow 64 (p % 64))

def clearBit (A : WordArray σ) (p : ℕ) (s : σ) : σ :=
  A.set s (p / 64) (A.get s (p / 64) &&& ~~~BitVec.twoPow 64 (p % 64))

/-- The least clear bit below `n`. -/
def firstClear (A : WordArray σ) (s : σ) (n : ℕ) : Option ℕ :=
  (List.range n).find? fun p => !A.bit s p

/-- An array that is the whole state. -/
def standalone : WordArray (ℕ → BitVec 64) where
  get s i := s i
  set s i w := Function.update s i w

/-- The array of consecutive words of byte memory that starts at `base`. -/
def inMemory (base : ℕ) : WordArray ByteMemory.Memory where
  get m i := ByteMemory.load64 m (base + 8 * i)
  set m i w := ByteMemory.store64 m (base + 8 * i) w

theorem standalone_lawful (n : ℕ) : standalone.Lawful n :=
  ⟨fun s i j w _ _ => by simp only [standalone, Function.update_apply]⟩

theorem inMemory_lawful (base n : ℕ) : (inMemory base).Lawful n := by
  refine ⟨fun m i j w _ _ => ?_⟩
  simp only [inMemory]
  split_ifs with h
  · rw [h, ByteMemory.load64_store64_same]
  · exact ByteMemory.load64_store64_apart m w (by omega)

theorem bit_setBit {A : WordArray σ} {n : ℕ} (h : A.Lawful n) (s : σ) {p q : ℕ}
    (hp : p < 64 * n) (hq : q < 64 * n) :
    A.bit (A.setBit p s) q = (A.bit s q || decide (q = p)) := by
  simp only [bit, setBit, h.get_set _ _ _ _ (show p / 64 < n by omega) (show q / 64 < n by omega)]
  split_ifs with hw
  · have hpq : p % 64 = q % 64 ↔ q = p := by omega
    rw [BitVec.getLsbD_or, BitVec.getLsbD_twoPow, hw]
    simp [Nat.mod_lt, hpq]
  · have hne : q ≠ p := by rintro rfl; exact hw rfl
    simp [hne]

theorem bit_clearBit {A : WordArray σ} {n : ℕ} (h : A.Lawful n) (s : σ) {p q : ℕ}
    (hp : p < 64 * n) (hq : q < 64 * n) :
    A.bit (A.clearBit p s) q = (A.bit s q && !decide (q = p)) := by
  simp only [bit, clearBit, h.get_set _ _ _ _ (show p / 64 < n by omega) (show q / 64 < n by omega)]
  split_ifs with hw
  · have hpq : p % 64 = q % 64 ↔ q = p := by omega
    rw [BitVec.getLsbD_and, BitVec.getLsbD_not, BitVec.getLsbD_twoPow, hw]
    simp [Nat.mod_lt, hpq]
  · have hne : q ≠ p := by rintro rfl; exact hw rfl
    simp [hne]

@[simp] theorem standalone_bit_setBit (s : ℕ → BitVec 64) (p q : ℕ) :
    standalone.bit (standalone.setBit p s) q = (standalone.bit s q || decide (q = p)) :=
  bit_setBit (standalone_lawful (p + q + 1)) s (by omega) (by omega)

@[simp] theorem standalone_bit_clearBit (s : ℕ → BitVec 64) (p q : ℕ) :
    standalone.bit (standalone.clearBit p s) q = (standalone.bit s q && !decide (q = p)) :=
  bit_clearBit (standalone_lawful (p + q + 1)) s (by omega) (by omega)

/-- Setting every bit of a list of positions. -/
theorem bit_foldl_setBit {A : WordArray σ} {n : ℕ} (h : A.Lawful n) (ps : List ℕ) (s : σ)
    (hps : ∀ p ∈ ps, p < 64 * n) {q : ℕ} (hq : q < 64 * n) :
    A.bit (ps.foldl (fun s p => A.setBit p s) s) q = (A.bit s q || decide (q ∈ ps)) := by
  induction ps generalizing s with
  | nil => simp
  | cons p ps ih =>
    have hp := hps p (by simp)
    have ht : ∀ r ∈ ps, r < 64 * n := fun r hr => hps r (by simp [hr])
    simp only [List.foldl_cons, ih _ ht, bit_setBit h s hp hq, List.mem_cons, Bool.decide_or,
      Bool.or_assoc]

/-- Clearing every bit of a list of positions. -/
theorem bit_foldl_clearBit {A : WordArray σ} {n : ℕ} (h : A.Lawful n) (ps : List ℕ) (s : σ)
    (hps : ∀ p ∈ ps, p < 64 * n) {q : ℕ} (hq : q < 64 * n) :
    A.bit (ps.foldl (fun s p => A.clearBit p s) s) q = (A.bit s q && !decide (q ∈ ps)) := by
  induction ps generalizing s with
  | nil => simp
  | cons p ps ih =>
    have hp := hps p (by simp)
    have ht : ∀ r ∈ ps, r < 64 * n := fun r hr => hps r (by simp [hr])
    simp only [List.foldl_cons, ih _ ht, bit_clearBit h s hp hq, List.mem_cons, Bool.decide_or,
      Bool.not_or, Bool.and_assoc]

theorem standalone_bit_foldl_setBit (ps : List ℕ) (s : ℕ → BitVec 64) (q : ℕ) :
    standalone.bit (ps.foldl (fun s p => standalone.setBit p s) s) q =
      (standalone.bit s q || decide (q ∈ ps)) := by
  induction ps generalizing s with
  | nil => simp
  | cons p ps ih =>
    rw [List.foldl_cons, ih, standalone_bit_setBit, Bool.or_assoc, ← Bool.decide_or]
    simp only [List.mem_cons]

theorem standalone_bit_foldl_clearBit (ps : List ℕ) (s : ℕ → BitVec 64) (q : ℕ) :
    standalone.bit (ps.foldl (fun s p => standalone.clearBit p s) s) q =
      (standalone.bit s q && !decide (q ∈ ps)) := by
  induction ps generalizing s with
  | nil => simp
  | cons p ps ih =>
    rw [List.foldl_cons, ih, standalone_bit_clearBit, Bool.and_assoc, ← Bool.not_or,
      ← Bool.decide_or]
    simp only [List.mem_cons]

/-- An array without a set bit is zero. -/
theorem standalone_eq_zero {s : ℕ → BitVec 64} (h : ∀ q, standalone.bit s q = false) :
    s = fun _ => 0 := by
  funext i
  apply BitVec.eq_of_getLsbD_eq
  intro j hj
  have hbit := h (64 * i + j)
  rw [bit, show (64 * i + j) / 64 = i by omega, show (64 * i + j) % 64 = j by omega] at hbit
  rw [show s i = standalone.get s i from rfl, hbit]
  simp

/-- Storing one value in each of the first `k` words. -/
theorem get_foldl_set {A : WordArray σ} {n : ℕ} (h : A.Lawful n) (w : BitVec 64) (k : ℕ)
    (hk : k ≤ n) (s : σ) {j : ℕ} (hj : j < n) :
    A.get ((List.range k).foldl (fun s i => A.set s i w) s) j =
      if j < k then w else A.get s j := by
  induction k with
  | zero => simp
  | succ k ih =>
    rw [List.range_succ, List.foldl_append, List.foldl_cons, List.foldl_nil,
      h.get_set _ _ _ _ (by omega) hj, ih (by omega)]
    split_ifs <;> first | rfl | omega

theorem firstClear_eq_some {A : WordArray σ} {s : σ} {n p : ℕ} :
    A.firstClear s n = some p ↔ p < n ∧ A.bit s p = false ∧ ∀ q < p, A.bit s q = true := by
  simp only [firstClear, List.find?_range_eq_some, List.mem_range, Bool.not_eq_true',
    Bool.not_not]
  exact ⟨fun ⟨hb, hn, hq⟩ => ⟨hn, hb, hq⟩, fun ⟨hn, hb, hq⟩ => ⟨hb, hn, hq⟩⟩

theorem firstClear_eq_none {A : WordArray σ} {s : σ} {n : ℕ} :
    A.firstClear s n = none ↔ ∀ p < n, A.bit s p = true := by
  simp [firstClear]

/-- A full word has all of its bits set. -/
theorem get_eq_allOnes {A : WordArray σ} {s : σ} {i : ℕ} :
    A.get s i = BitVec.allOnes 64 ↔ ∀ j < 64, A.bit s (64 * i + j) = true := by
  have hidx : ∀ j < 64, (64 * i + j) / 64 = i ∧ (64 * i + j) % 64 = j := by omega
  constructor
  · intro h j hj
    rw [bit, (hidx j hj).1, (hidx j hj).2, h, BitVec.getLsbD_allOnes, decide_eq_true hj]
  · intro h
    apply BitVec.eq_of_getLsbD_eq
    intro j hj
    have hb := h j hj
    rw [bit, (hidx j hj).1, (hidx j hj).2] at hb
    rw [hb, BitVec.getLsbD_allOnes, decide_eq_true hj]

end WordArray
