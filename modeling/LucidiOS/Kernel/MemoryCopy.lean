import LucidiOS.Memory.CellCopy
import LucidiOS.Pmm.PageBitmap

/-! `memcpy` and `memmove`. The compiler may call them for any copy. -/
namespace LucidiOS
open CellCopy

/-- The bytes of memory by their addresses. -/
abbrev AddressSpace := Word → BitVec 8

/-- The address of a byte behind a pointer. -/
def byteAt (p : Word) (i : ℕ) : Word := p + BitVec.ofNat 64 i

/-- The pointer that is returned and what is left in memory. -/
def memcpy (dest src n : Word) (m : AddressSpace) : Word × AddressSpace :=
  (dest, run (byteAt dest) (byteAt src) (List.range n.toNat) m)

/-- A copy to a higher address begins with the last byte. -/
def memmove (dest src n : Word) (m : AddressSpace) : Word × AddressSpace :=
  if dest < src then (dest, run (byteAt dest) (byteAt src) (List.range n.toNat) m)
  else if src < dest then (dest, run (byteAt dest) (byteAt src) (List.range n.toNat).reverse m)
  else (dest, m)

/-- The bytes at `src` are at `dest`, which is returned, and the rest of memory is unchanged. -/
structure Copies (dest src n : Word) (m : AddressSpace) (r : Word × AddressSpace) : Prop where
  returned : r.1 = dest
  copied : ∀ i < n.toNat, r.2 (byteAt dest i) = m (byteAt src i)
  outside : ∀ x : Word, x.toNat < dest.toNat ∨ dest.toNat + n.toNat ≤ x.toNat → r.2 x = m x

section Copy
variable {dest src n : Word} {m : AddressSpace} {is : List ℕ}

theorem byteAt_toNat {p : Word} {i : ℕ} (h : p.toNat + i < 2 ^ 64) :
    (byteAt p i).toNat = p.toNat + i := by
  rw [byteAt, BitVec.toNat_add, BitVec.toNat_ofNat]
  omega

theorem byteAt_ne {p q : Word} {i j : ℕ} (hp : p.toNat + i < 2 ^ 64) (hq : q.toNat + j < 2 ^ 64)
    (h : p.toNat + i ≠ q.toNat + j) : byteAt p i ≠ byteAt q j := by
  intro heq
  rw [← byteAt_toNat hp, ← byteAt_toNat hq, heq] at h
  exact h rfl

/-- Bytes can be copied upward if the bytes that are read lie higher or nowhere near. -/
theorem inOrder_range (hdest : dest.toNat + n.toNat ≤ 2 ^ 64) (hsrc : src.toNat + n.toNat ≤ 2 ^ 64)
    (h : dest < src ∨ src.toNat + n.toNat ≤ dest.toNat) :
    InOrder (byteAt dest) (byteAt src) (List.range n.toNat) := by
  rw [BitVec.lt_def] at h
  refine List.Pairwise.imp_of_mem (fun {i j} hi hj hlt => ?_) List.pairwise_lt_range
  rw [List.mem_range] at hi hj
  exact ⟨byteAt_ne (by omega) (by omega) (by omega), byteAt_ne (by omega) (by omega) (by omega)⟩

/-- And downward if they lie lower. -/
theorem inOrder_reverse (hdest : dest.toNat + n.toNat ≤ 2 ^ 64) (h : src < dest) :
    InOrder (byteAt dest) (byteAt src) (List.range n.toNat).reverse := by
  rw [BitVec.lt_def] at h
  rw [InOrder, List.pairwise_reverse]
  refine List.Pairwise.imp_of_mem (fun {i j} hi hj hlt => ?_) List.pairwise_lt_range
  rw [List.mem_range] at hi hj
  exact ⟨byteAt_ne (by omega) (by omega) (by omega), byteAt_ne (by omega) (by omega) (by omega)⟩

theorem copies_run (hdest : dest.toNat + n.toNat ≤ 2 ^ 64)
    (horder : InOrder (byteAt dest) (byteAt src) is) (hmem : ∀ i, i ∈ is ↔ i < n.toNat)
    (m : AddressSpace) : Copies dest src n m (dest, run (byteAt dest) (byteAt src) is m) := by
  refine ⟨rfl, fun i hi => horder.run_dest ((hmem i).mpr hi) m, fun x hx => ?_⟩
  refine run_of_ne (fun i hi heq => ?_) m
  have hlt := (hmem i).mp hi
  rw [← heq, byteAt_toNat (by omega)] at hx
  omega

theorem memmove_copies (hdest : dest.toNat + n.toNat ≤ 2 ^ 64)
    (hsrc : src.toNat + n.toNat ≤ 2 ^ 64) (m : AddressSpace) :
    Copies dest src n m (memmove dest src n m) := by
  unfold memmove
  split_ifs with hup hdown
  · exact copies_run hdest (inOrder_range hdest hsrc (.inl hup)) (fun i => List.mem_range) m
  · refine copies_run hdest (inOrder_reverse hdest hdown) (fun i => ?_) m
    rw [List.mem_reverse, List.mem_range]
  · -- equal pointers
    obtain rfl : dest = src := BitVec.le_antisymm (BitVec.not_lt.mp hdown) (BitVec.not_lt.mp hup)
    exact ⟨rfl, fun _ _ => rfl, fun _ _ => rfl⟩

theorem memmove_eq_memcpy (hdest : dest.toNat + n.toNat ≤ 2 ^ 64)
    (hsrc : src.toNat + n.toNat ≤ 2 ^ 64)
    (hapart : dest.toNat + n.toNat ≤ src.toNat ∨ src.toNat + n.toNat ≤ dest.toNat)
    (m : AddressSpace) : memmove dest src n m = memcpy dest src n m := by
  unfold memmove memcpy
  split_ifs with hup hdown
  · rfl
  · rw [BitVec.lt_def] at hdown
    have horder := inOrder_range hdest hsrc (.inr (by omega))
    rw [(inOrder_reverse hdest hdown).run_eq horder fun i => List.mem_reverse]
  · rw [BitVec.lt_def] at hup hdown
    have hzero : n.toNat = 0 := by omega
    rw [hzero]
    rfl

end Copy

/-- `memmove` copies whether its ranges overlap or not, and is `memcpy` if they do not. -/
theorem memmove_correct (dest src n : Word) (hdest : dest.toNat + n.toNat ≤ 2 ^ 64)
    (hsrc : src.toNat + n.toNat ≤ 2 ^ 64) (m : AddressSpace) :
    Copies dest src n m (memmove dest src n m) ∧
      (dest.toNat + n.toNat ≤ src.toNat ∨ src.toNat + n.toNat ≤ dest.toNat →
        memmove dest src n m = memcpy dest src n m) :=
  ⟨memmove_copies hdest hsrc m, fun hapart => memmove_eq_memcpy hdest hsrc hapart m⟩

/-- Eight bytes that are moved up by one. -/
theorem memmove_correct_up :
    Copies 0x1001 0x1000 8 (fun a => a.setWidth 8) (memmove 0x1001 0x1000 8 fun a => a.setWidth 8) :=
  (memmove_correct 0x1001 0x1000 8 (by decide) (by decide) _).1

end LucidiOS
