import LucidiOS.Acpi.Tables
import LucidiOS.Kernel.MemoryCopy

/-! `memcmp` as the order of strings of bytes. -/
namespace LucidiOS

/-- The loop of `memcmp` from index `i` on, with `k` turns to come. -/
def memcmpFrom (s1 s2 : Word) (m : AddressSpace) : ℕ → ℕ → ℤ
  | 0, _ => 0
  | k + 1, i =>
      if m (byteAt s1 i) ≠ m (byteAt s2 i) then
        if m (byteAt s1 i) < m (byteAt s2 i) then -1 else 1
      else memcmpFrom s1 s2 m k (i + 1)

def memcmp (s1 s2 n : Word) (m : AddressSpace) : ℤ := memcmpFrom s1 s2 m n.toNat 0

/-- The `k` bytes from index `i` on. -/
def bytesFrom (p : Word) (m : AddressSpace) (i k : ℕ) : List (BitVec 8) :=
  (List.range' i k).map fun j => m (byteAt p j)

/-- Alphabetical order. -/
abbrev Before : List (BitVec 8) → List (BitVec 8) → Prop := List.Lex (· < ·)

section Compare
variable {s1 s2 : Word} {m : AddressSpace}

theorem bytesFrom_succ (p : Word) (m : AddressSpace) (i k : ℕ) :
    bytesFrom p m i (k + 1) = m (byteAt p i) :: bytesFrom p m (i + 1) k := by
  rw [bytesFrom, List.range'_succ, List.map_cons]
  rfl

theorem memcmpFrom_zero_iff (k i : ℕ) : memcmpFrom s1 s2 m k i = 0 ↔
    bytesFrom s1 m i k = bytesFrom s2 m i k := by
  induction k generalizing i with
  | zero => exact iff_of_true rfl rfl
  | succ k ih =>
    rw [memcmpFrom, bytesFrom_succ, bytesFrom_succ, List.cons.injEq, ← ih]
    split_ifs with hne hlt
    · exact iff_of_false (by decide) fun h => hne h.1
    · exact iff_of_false (by decide) fun h => hne h.1
    · exact (and_iff_right (not_not.mp hne)).symm

theorem memcmpFrom_neg_iff (k i : ℕ) : memcmpFrom s1 s2 m k i = -1 ↔
    Before (bytesFrom s1 m i k) (bytesFrom s2 m i k) := by
  induction k generalizing i with
  | zero => exact iff_of_false (by simp [memcmpFrom]) List.not_lex_nil
  | succ k ih =>
    rw [memcmpFrom, bytesFrom_succ, bytesFrom_succ, Before, List.cons_lex_cons_iff, ← Before, ← ih]
    split_ifs with hne hlt
    · exact iff_of_true rfl (Or.inl hlt)
    · exact iff_of_false (by decide) fun h => h.elim hlt fun h => hne h.1
    · have heq := not_not.mp hne
      have hirrefl : ¬m (byteAt s1 i) < m (byteAt s2 i) := heq ▸ BitVec.lt_irrefl _
      exact ⟨fun h => Or.inr ⟨heq, h⟩, fun h => (h.resolve_left hirrefl).2⟩

theorem memcmpFrom_swap (k i : ℕ) : memcmpFrom s2 s1 m k i = -memcmpFrom s1 s2 m k i := by
  induction k generalizing i with
  | zero => rfl
  | succ k ih =>
    rw [memcmpFrom, memcmpFrom]
    rcases lt_trichotomy (m (byteAt s1 i)).toNat (m (byteAt s2 i)).toNat with hlt | heq | hgt
    · have hne : m (byteAt s1 i) ≠ m (byteAt s2 i) := fun h => hlt.ne (congrArg _ h)
      rw [if_pos hne.symm, if_pos hne, if_neg (BitVec.not_lt.mpr hlt.le), if_pos (BitVec.lt_def.mpr hlt), neg_neg]
    · have hbyte := BitVec.eq_of_toNat_eq heq
      rw [if_neg (not_not.mpr hbyte.symm), if_neg (not_not.mpr hbyte), ih]
    · have hne : m (byteAt s2 i) ≠ m (byteAt s1 i) := fun h => hgt.ne (congrArg _ h)
      rw [if_pos hne, if_pos hne.symm, if_pos (BitVec.lt_def.mpr hgt),
        if_neg (BitVec.not_lt.mpr hgt.le)]

/-- The comparison of memory with a string, as `findAPIC` makes it. -/
theorem memcmpFrom_string {s : Kernel} (hs : ∀ p, s.read8 p = m p) (k i : ℕ) :
    Acpi.memcmp s (byteAt s1 i) (bytesFrom s2 m i k) = memcmpFrom s1 s2 m k i := by
  induction k generalizing i with
  | zero => rfl
  | succ k ih =>
    have hnext : byteAt s1 i + 1 = byteAt s1 (i + 1) := by
      rw [byteAt, byteAt, BitVec.ofNat_add, ← BitVec.add_assoc]
      rfl
    rw [bytesFrom_succ, Acpi.memcmp, memcmpFrom, hs, hnext, ih]

end Compare

/-- `memcmp` is the alphabetical order of the bytes as unsigned numbers, finds a copy equal, and is
the comparison that `findAPIC` makes with a string. -/
theorem memcmp_orders (s1 s2 n : Word) (m : AddressSpace) :
    (memcmp s1 s2 n m = 0 ↔ bytesFrom s1 m 0 n.toNat = bytesFrom s2 m 0 n.toNat) ∧
    (memcmp s1 s2 n m = -1 ↔ Before (bytesFrom s1 m 0 n.toNat) (bytesFrom s2 m 0 n.toNat)) ∧
    (memcmp s1 s2 n m = 1 ↔ Before (bytesFrom s2 m 0 n.toNat) (bytesFrom s1 m 0 n.toNat)) ∧
    (s1.toNat + n.toNat ≤ 2 ^ 64 → s2.toNat + n.toNat ≤ 2 ^ 64 →
      s1.toNat + n.toNat ≤ s2.toNat ∨ s2.toNat + n.toNat ≤ s1.toNat →
      memcmp s1 s2 n (memcpy s1 s2 n m).2 = 0) ∧
    ∀ s : Kernel, (∀ p, s.read8 p = m p) →
      Acpi.memcmp s s1 (bytesFrom s2 m 0 n.toNat) = memcmp s1 s2 n m := by
  refine ⟨memcmpFrom_zero_iff _ _, memcmpFrom_neg_iff _ _, ?_, fun h1 h2 hapart => ?_,
    fun s hs => ?_⟩
  · rw [← memcmpFrom_neg_iff, memcmpFrom_swap, neg_inj]
    rfl
  · have hcopies := memmove_copies h1 h2 m
    rw [memmove_eq_memcpy h1 h2 hapart] at hcopies
    rw [memcmp, memcmpFrom_zero_iff, bytesFrom, bytesFrom, List.map_inj_left]
    intro i hi
    have hlt : i < n.toNat := by simpa using List.mem_range'_1.mp hi
    rw [hcopies.copied i hlt]
    refine (hcopies.outside _ ?_).symm
    rw [byteAt_toNat (by omega)]
    omega
  · have hfirst : byteAt s1 0 = s1 := BitVec.add_zero s1
    rw [← hfirst, memcmpFrom_string hs, hfirst]
    rfl

end LucidiOS
