import LucidiOS.Kernel.State

/-! The page bitmap as storage: the pages it lies in, and what leaves its bits alone. -/
namespace LucidiOS
open ByteMemory Pmm

def Kernel.locked (s : Kernel) (p : ℕ) : Bool := s.pmm.bit s.mem p

def Kernel.bitmapPhys (s : Kernel) : ℕ := phys s.gHhdmOffset s.bitmap

/-- Page `p` holds some of the bitmap's `8 * bitmap_length` bytes. -/
def Kernel.HoldsBitmap (s : Kernel) (p : ℕ) : Prop :=
  4096 * p < s.bitmapPhys + 8 * s.bitmapLength.toNat ∧ s.bitmapPhys < 4096 * p + 4096

namespace Pmm
variable {s : Kernel} {m m' : Memory} {p : ℕ}

/-- The bitmap does not run over the end of the address space. -/
def Fits (s : Kernel) : Prop := s.bitmapPhys + 8 * s.bitmapLength.toNat ≤ 2 ^ 64

/-- Memory that agrees on the pages of the bitmap has the same bits in it. -/
theorem bit_congr (hfit : Fits s) (hm : ∀ x, s.HoldsBitmap (x / 4096) → m' x = m x)
    (hp : p < 64 * s.bitmapLength.toNat) : s.pmm.bit m' p = s.pmm.bit m p := by
  have hget : s.pmm.get m' (p / 64) = s.pmm.get m (p / 64) := by
    refine pointerArray_get_congr hfit (by omega) fun x h1 h2 => hm x ⟨?_, ?_⟩
    · exact lt_of_le_of_lt (Nat.mul_div_le x 4096) h2
    · have := Nat.div_add_mod x 4096
      have := Nat.mod_lt x (show 0 < 4096 by decide)
      change s.bitmapPhys ≤ x at h1
      omega
  rw [WordArray.bit, WordArray.bit, hget]

/-- Stores to the words of the bitmap stay in its pages. -/
theorem set_outside (hfit : Fits s) (m : Memory) {i x : ℕ} (hi : i < s.bitmapLength.toNat)
    (w : Word) (hx : ¬s.HoldsBitmap (x / 4096)) : s.pmm.set m i w x = m x := by
  apply pointerArray_set_outside m w hfit hi
  by_contra hc
  refine hx ⟨?_, ?_⟩
  · have : x < s.bitmapPhys + 8 * s.bitmapLength.toNat := by
      unfold Kernel.bitmapPhys
      omega
    exact lt_of_le_of_lt (Nat.mul_div_le x 4096) this
  · have := Nat.div_add_mod x 4096
    have := Nat.mod_lt x (show 0 < 4096 by decide)
    unfold Kernel.bitmapPhys
    omega

theorem setBit_outside (hfit : Fits s) (m : Memory) (hp : p < 64 * s.bitmapLength.toNat) {x : ℕ}
    (hx : ¬s.HoldsBitmap (x / 4096)) : s.pmm.setBit p m x = m x :=
  set_outside hfit m (by omega) _ hx

theorem clearBit_outside (hfit : Fits s) (m : Memory) (hp : p < 64 * s.bitmapLength.toNat) {x : ℕ}
    (hx : ¬s.HoldsBitmap (x / 4096)) : s.pmm.clearBit p m x = m x :=
  set_outside hfit m (by omega) _ hx

/-- A byte that no step of a loop writes keeps its value. -/
theorem foldl_outside {α : Type*} {f : Memory → α → Memory} {l : List α} {x : ℕ}
    (h : ∀ m, ∀ a ∈ l, f m a x = m x) (m : Memory) : l.foldl f m x = m x := by
  induction l generalizing m with
  | nil => rfl
  | cons a l ih =>
    rw [List.foldl_cons, ih (fun m b hb => h m b (List.mem_cons_of_mem a hb)),
      h m a List.mem_cons_self]

theorem bit_setBit (hfit : Fits s) (m : Memory) {q : ℕ} (hp : p < 64 * s.bitmapLength.toNat)
    (hq : q < 64 * s.bitmapLength.toNat) :
    s.pmm.bit (s.pmm.setBit p m) q = (s.pmm.bit m q || decide (q = p)) :=
  WordArray.bit_setBit (pointerArray_lawful hfit) m hp hq

/-- The bits of a bitmap that starts at the `k`th word of memory. -/
theorem bit_ofWords {f : ℕ → Word} {k : ℕ} (hfit : Fits s) (hk : s.bitmapPhys = 8 * k)
    (hp : p < 64 * s.bitmapLength.toNat) :
    s.pmm.bit (ofWords f) p = (f (k + p / 64)).getLsbD (p % 64) := by
  have hword : s.pmm.get (ofWords f) (p / 64) = f (k + p / 64) := by
    simp only [Kernel.pmm, pointerArray]
    unfold Fits Kernel.bitmapPhys at hfit
    unfold Kernel.bitmapPhys at hk
    rw [phys_add (by omega), hk, ← Nat.mul_add, load64_ofWords]
  rw [WordArray.bit, hword]

end Pmm
end LucidiOS
