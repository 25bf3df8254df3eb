import LucidiOS.Pmm.PageBitmap

/-! The kernel's globals and physical memory. Kernel pointers are virtual addresses of the
direct map; the memory they denote is found by subtracting `g_hhdm_offset`. -/
namespace LucidiOS
open ByteMemory

structure Kernel where
  mem : Memory
  cr3 : Word
  gHhdmOffset : Word
  bitmapLength : Word
  bitmap : Word
  heapBitmap : Word
  ioapicBase : Word

/-- The physical address behind a direct-map pointer. -/
def phys (hhdm ptr : Word) : ℕ := (ptr - hhdm).toNat

/-- The `uint64_t` array that a direct-map pointer points to. -/
def pointerArray (hhdm ptr : Word) : WordArray Memory where
  get m i := load64 m (phys hhdm (ptr + BitVec.ofNat 64 (8 * i)))
  set m i w := store64 m (phys hhdm (ptr + BitVec.ofNat 64 (8 * i))) w

def memset (hhdm : Word) (s : Word) (c : BitVec 32) (n : ℕ) (m : Memory) : Memory :=
  (List.range n).foldl
    (fun m i => Function.update m (phys hhdm (s + BitVec.ofNat 64 i)) (c.setWidth 8)) m

/-- The array at the static pointer `bitmap`. -/
def Kernel.pmm (s : Kernel) : WordArray Memory := pointerArray s.gHhdmOffset s.bitmap

/-- Only memory differs. -/
def SameGlobals (s t : Kernel) : Prop := t = { s with mem := t.mem }

theorem SameGlobals.trans {s t u : Kernel} (h : SameGlobals s t) (h' : SameGlobals t u) :
    SameGlobals s u := by
  unfold SameGlobals at *
  rw [h', h]

theorem SameGlobals.set_mem (s : Kernel) (m : Memory) : SameGlobals s { s with mem := m } := rfl

theorem SameGlobals.ioapicBase_eq {s t : Kernel} (h : SameGlobals s t) :
    t.ioapicBase = s.ioapicBase := by rw [h]

theorem SameGlobals.hhdm_eq {s t : Kernel} (h : SameGlobals s t) :
    t.gHhdmOffset = s.gHhdmOffset := by rw [h]

theorem SameGlobals.pmm_eq {s t : Kernel} (h : SameGlobals s t) : t.pmm = s.pmm := by
  rw [h]
  rfl

theorem phys_lt (hhdm ptr : Word) : phys hhdm ptr < 2 ^ 64 := (ptr - hhdm).isLt

@[simp] theorem phys_add_self (hhdm a : Word) : phys hhdm (a + hhdm) = a.toNat := by
  rw [phys, BitVec.add_sub_cancel]

theorem phys_add {hhdm ptr : Word} {k : ℕ} (h : phys hhdm ptr + k < 2 ^ 64) :
    phys hhdm (ptr + BitVec.ofNat 64 k) = phys hhdm ptr + k := by
  have he : ptr + BitVec.ofNat 64 k - hhdm = (ptr - hhdm) + BitVec.ofNat 64 k := by
    rw [BitVec.sub_eq_add_neg, BitVec.sub_eq_add_neg, BitVec.add_assoc, BitVec.add_assoc,
      BitVec.add_comm (-hhdm)]
  unfold phys at h ⊢
  rw [he, BitVec.toNat_add, BitVec.toNat_ofNat]
  omega

/-- An array that does not wrap around occupies consecutive words. -/
theorem pointerArray_lawful {hhdm ptr : Word} {n : ℕ} (h : phys hhdm ptr + 8 * n ≤ 2 ^ 64) :
    (pointerArray hhdm ptr).Lawful n := by
  refine ⟨fun m i j w hi hj => ?_⟩
  simp only [pointerArray]
  rw [phys_add (by omega), phys_add (by omega)]
  exact (WordArray.inMemory_lawful (phys hhdm ptr) n).get_set m i j w hi hj

theorem memset_eq_fill {hhdm s : Word} {n : ℕ} (h : phys hhdm s + n ≤ 2 ^ 64) (c : BitVec 32)
    (m : Memory) : memset hhdm s c n m = fill m (phys hhdm s) n (c.setWidth 8) := by
  induction n with
  | zero =>
    funext x
    simp only [memset, List.range_zero, List.foldl_nil, fill]
    rw [if_neg (by omega)]
  | succ n ih =>
    rw [memset, List.range_succ, List.foldl_append, List.foldl_cons, List.foldl_nil]
    change Function.update (memset hhdm s c n m) _ _ = _
    rw [ih (by omega), phys_add (by omega)]
    funext x
    simp only [Function.update_apply, fill]
    split_ifs <;> first | rfl | omega

attribute [irreducible] memset

/-- Stores into an array leave all memory outside it alone. -/
theorem pointerArray_set_outside {hhdm ptr : Word} {n i x : ℕ} (m : Memory) (w : Word)
    (h : phys hhdm ptr + 8 * n ≤ 2 ^ 64) (hi : i < n)
    (hx : x < phys hhdm ptr ∨ phys hhdm ptr + 8 * n ≤ x) :
    (pointerArray hhdm ptr).set m i w x = m x := by
  simp only [pointerArray]
  rw [phys_add (by omega)]
  exact store64_outside m w (by omega)

/-- Memory that agrees on an array holds the same words in it. -/
theorem pointerArray_get_congr {hhdm ptr : Word} {n i : ℕ} {m m' : Memory}
    (h : phys hhdm ptr + 8 * n ≤ 2 ^ 64) (hi : i < n)
    (hm : ∀ x, phys hhdm ptr ≤ x → x < phys hhdm ptr + 8 * n → m' x = m x) :
    (pointerArray hhdm ptr).get m' i = (pointerArray hhdm ptr).get m i := by
  simp only [pointerArray]
  rw [phys_add (by omega)]
  exact load64_congr fun j hj => hm _ (by omega) (by omega)

end LucidiOS
