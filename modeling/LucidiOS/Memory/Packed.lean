import LucidiOS.Memory.ByteMemory

/-! Packed records in byte-addressed memory, the low byte first. -/
namespace ByteMemory
variable {w : ℕ} {m : Memory} {a i n x : ℕ}

def load16 (m : Memory) (a : ℕ) : BitVec 16 := m (a + 1) ++ m a

def load32 (m : Memory) (a : ℕ) : BitVec 32 := m (a + 3) ++ m (a + 2) ++ m (a + 1) ++ m a

/-- Byte `i` of a record. -/
def byte (v : BitVec w) (i : ℕ) : BitVec 8 := v.extractLsb' (8 * i) 8

/-- The bytes of an array of records, each of `size` bytes. -/
def arrayByte (size : ℕ) (v : ℕ → BitVec w) (i : ℕ) : BitVec 8 := byte (v (i / size)) (i % size)

/-- The `n` bytes from `a` on are those of an image. -/
def place (m : Memory) (a n : ℕ) (image : ℕ → BitVec 8) : Memory :=
  fun x => if a ≤ x ∧ x < a + n then image (x - a) else m x

/-- A record of `n` bytes is at `a`. -/
def Holds (m : Memory) (a n : ℕ) (v : BitVec w) : Prop := ∀ i < n, m (a + i) = byte v i

theorem place_inside (image : ℕ → BitVec 8) (hi : i < n) : place m a n image (a + i) = image i := by
  rw [place, if_pos (by omega), Nat.add_sub_cancel_left]

theorem place_congr {image image' : ℕ → BitVec 8} (h : ∀ i < n, x = a + i → image i = image' i) :
    place m a n image x = place m a n image' x := by
  unfold place
  split_ifs with hx
  · exact h (x - a) (by omega) (by omega)
  · rfl

theorem holds_place (v : BitVec w) : Holds (place m a n (byte v)) a n v :=
  fun _ hi => place_inside (byte v) hi

theorem holds_place_array {size k j : ℕ} (v : ℕ → BitVec w) (hj : j < k) :
    Holds (place m a (size * k) (arrayByte size v)) (a + size * j) size (v j) := by
  intro i hi
  have hlast : size * j + size ≤ size * k := by
    rw [← Nat.mul_succ]
    exact Nat.mul_le_mul_left size hj
  have hdiv : (size * j + i) / size = j := by
    rw [Nat.mul_add_div (by omega), Nat.div_eq_of_lt hi, Nat.add_zero]
  have hmod : (size * j + i) % size = i := by rw [Nat.mul_add_mod, Nat.mod_eq_of_lt hi]
  rw [Nat.add_assoc, place_inside _ (by omega), arrayByte, hdiv, hmod]

theorem byte_extractLsb' (v : BitVec w) {start len : ℕ} (h : start + len ≤ 8) :
    (byte v i).extractLsb' start len = v.extractLsb' (8 * i + start) len := by
  apply BitVec.eq_of_getLsbD_eq
  intro k hk
  simp only [byte, BitVec.getLsbD_extractLsb', hk, show start + k < 8 by omega, decide_true,
    Bool.true_and, Nat.add_assoc]

section Slices
variable (x : BitVec w) (k len : ℕ)

/-- Shift, mask and truncate: `len` bits from bit `k` on. -/
theorem setWidth_shift_mask {mask : BitVec w} (h : mask.setWidth len = BitVec.allOnes len) :
    ((x >>> k) &&& mask).setWidth len = x.extractLsb' k len := by
  rw [BitVec.setWidth_and, h, BitVec.and_allOnes, BitVec.setWidth_ushiftRight_eq_extractLsb]

/-- The same with the mask last. -/
theorem setWidth_shift_and_allOnes :
    (x >>> k).setWidth len &&& BitVec.allOnes len = x.extractLsb' k len := by
  rw [BitVec.and_allOnes, BitVec.setWidth_ushiftRight_eq_extractLsb]

end Slices

section Fields
variable {v : BitVec w} {k : ℕ}

theorem Holds.load16 (h : Holds m a n v) (hi : i + 2 ≤ n) :
    load16 m (a + i) = v.extractLsb' (8 * i) 16 := by
  rw [ByteMemory.load16, Nat.add_assoc, h i (by omega), h (i + 1) (by omega)]
  exact BitVec.extractLsb'_append_extractLsb'_eq_extractLsb' (by omega)

theorem Holds.load32 (h : Holds m a n v) (hi : i + 4 ≤ n) :
    load32 m (a + i) = v.extractLsb' (8 * i) 32 := by
  have hjoin (j j' len : ℕ) (hj : j' = j + 1) :
      v.extractLsb' (8 * j') len ++ byte v j = v.extractLsb' (8 * j) (len + 8) :=
    BitVec.extractLsb'_append_extractLsb'_eq_extractLsb' (by omega)
  simp only [ByteMemory.load32, Nat.add_assoc]
  rw [h i (by omega), h (i + 1) (by omega), h (i + 2) (by omega), h (i + 3) (by omega), byte,
    hjoin (i + 2) (i + 3) 8 rfl, hjoin (i + 1) (i + 2) 16 rfl, hjoin i (i + 1) 24 rfl]

/-- The record in the low bytes of another. -/
theorem Holds.low {hi : BitVec k} {lo : BitVec w} (h : Holds m a n (hi ++ lo)) (hw : w = 8 * i)
    (hin : i ≤ n) : Holds m a i lo := by
  intro j hj
  rw [h j (by omega)]
  exact BitVec.extractLsb'_append_eq_of_add_le (by omega)

/-- The record that follows it. -/
theorem Holds.high {hi : BitVec k} {lo : BitVec w} (h : Holds m a (i + n) (hi ++ lo))
    (hw : w = 8 * i) : Holds m (a + i) n hi := by
  intro j hj
  rw [Nat.add_assoc, h (i + j) (by omega), byte, BitVec.extractLsb'_append_eq_of_le (by omega),
    show 8 * (i + j) - w = 8 * j by omega]
  rfl

end Fields

end ByteMemory
