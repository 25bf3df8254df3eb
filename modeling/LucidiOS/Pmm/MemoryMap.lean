import LucidiOS.Kernel.State

/-! Boot-time construction of the page bitmap from the bootloader's memory map. -/
namespace LucidiOS.Pmm
open ByteMemory

structure MemmapEntry where
  base : Word
  length : Word
  type : Word
  deriving DecidableEq

def limineMemmapUsable : Word := 0

def isEntryType (type : Word) (e : MemmapEntry) : Bool := e.type == type

def getBitmapLength (map : List MemmapEntry) (dataType : BitVec 32) : Word :=
  let maxAddr := map.foldl (fun maxAddr e =>
    let entryEnd := e.base + e.length
    if maxAddr ≤ entryEnd then entryEnd else maxAddr) 0
  let result := (maxAddr + 4096 - 1) / 4096
  (result + dataType.signExtend 64 - 1) / dataType.signExtend 64

def pageToQword : BitVec 32 := 64

section Loops
variable {σ : Type*}

/-- Arguments of `pmm_free_page` for one entry, in order. -/
def entryPages (e : MemmapEntry) : List Word :=
  (List.range (e.length / 4096).toNat).map fun j => e.base / 4096 + BitVec.ofNat 64 j

/-- Arguments of `pmm_free_page` in `set_useable_ram`, in order. -/
def freedPages (map : List MemmapEntry) : List Word :=
  map.flatMap fun e => if isEntryType limineMemmapUsable e then entryPages e else []

def setUseableRam (map : List MemmapEntry) (bitmap : WordArray σ) (s : σ) : σ :=
  (freedPages map).foldl (fun s p => pmmFreePage bitmap p s) s

/-- Arguments of `pmm_lock_page` in `protect_bitmap_space`, in order. -/
def protectedPages (hhdm bitmapPtr bitmapLength : Word) : List Word :=
  let physPos := bitmapPtr - hhdm
  let pos := physPos / 4096
  let pagesToLock := (bitmapLength * 8 + 4096 - 1) / 4096
  (List.range pagesToLock.toNat).map fun i => pos + BitVec.ofNat 64 i

def protectBitmapSpace (hhdm bitmapPtr bitmapLength : Word) (bitmap : WordArray σ) (s : σ) : σ :=
  (protectedPages hhdm bitmapPtr bitmapLength).foldl (fun s p => pmmLockPage bitmap p s) s

def allBitmap1 (bitmapLength : Word) (bitmap : WordArray σ) (s : σ) : σ :=
  (List.range bitmapLength.toNat).foldl (fun s i => bitmap.set s i (~~~0)) s

end Loops

/-- The first usable entry with room for the bitmap; without one the pointer keeps its value. -/
def bitmapPointer (map : List MemmapEntry) (s : Kernel) : Kernel :=
  let bytes := s.bitmapLength * 8
  match map.find? fun e => isEntryType limineMemmapUsable e && decide (bytes ≤ e.length) with
  | some e => { s with bitmap := e.base + s.gHhdmOffset }
  | none => s

def heapBitmapPointer (s : Kernel) : Kernel :=
  let alloc := pmmAlloc2 s.pmm s.bitmapLength s.mem
  let heapBitmap := alloc.1 + s.gHhdmOffset
  { s with heapBitmap, mem := memset s.gHhdmOffset heapBitmap 0 (8192 * 8) alloc.2 }

/-- `init_bitmap_pmm` up to the call of `heap_bitmap_pointer`. -/
def buildBitmap (map : List MemmapEntry) (s : Kernel) : Kernel :=
  let s := { s with bitmapLength := getBitmapLength map pageToQword }
  let s := bitmapPointer map s
  let mem := allBitmap1 s.bitmapLength s.pmm s.mem
  let mem := setUseableRam map s.pmm mem
  let mem := protectBitmapSpace s.gHhdmOffset s.bitmap s.bitmapLength s.pmm mem
  { s with mem := pmmLockPage s.pmm 0 mem }

def initBitmapPmm (map : List MemmapEntry) (s : Kernel) : Kernel :=
  heapBitmapPointer (buildBitmap map s)

/-- What the bootloader guarantees about its memory map. -/
structure LimineMap (map : List MemmapEntry) : Prop where
  length_pos : ∀ e ∈ map, e.length ≠ 0
  no_overflow : ∀ e ∈ map, e.base.toNat + e.length.toNat ≤ 2 ^ 64 - 4096
  aligned : ∀ e ∈ map, isEntryType limineMemmapUsable e = true →
    e.base.toNat % 4096 = 0 ∧ e.length.toNat % 4096 = 0
  no_overlap : map.Pairwise fun e f =>
    isEntryType limineMemmapUsable e = true ∨ isEntryType limineMemmapUsable f = true →
      e.base.toNat + e.length.toNat ≤ f.base.toNat ∨ f.base.toNat + f.length.toNat ≤ e.base.toNat

/-- Page `p` lies inside one usable entry. -/
def InUsable (map : List MemmapEntry) (p : ℕ) : Prop :=
  ∃ e ∈ map, isEntryType limineMemmapUsable e = true ∧
    e.base.toNat ≤ 4096 * p ∧ 4096 * p + 4096 ≤ e.base.toNat + e.length.toNat

section Length

private theorem maxAddr_spec (map : List MemmapEntry) (a : Word) (ha : a.toNat ≤ 2 ^ 64 - 4096)
    (h : ∀ e ∈ map, e.base.toNat + e.length.toNat ≤ 2 ^ 64 - 4096) :
    let maxAddr := map.foldl (fun maxAddr e =>
      let entryEnd := e.base + e.length
      if maxAddr ≤ entryEnd then entryEnd else maxAddr) a
    a.toNat ≤ maxAddr.toNat ∧ maxAddr.toNat ≤ 2 ^ 64 - 4096 ∧
      ∀ e ∈ map, e.base.toNat + e.length.toNat ≤ maxAddr.toNat := by
  induction map generalizing a with
  | nil => simpa using ha
  | cons e map ih =>
    have he := h e (by simp)
    have hend : (e.base + e.length).toNat = e.base.toNat + e.length.toNat := by
      rw [BitVec.toNat_add]; omega
    have hle : a ≤ e.base + e.length ↔ a.toNat ≤ e.base.toNat + e.length.toNat := by
      rw [BitVec.le_def, hend]
    simp only [List.foldl_cons, List.mem_cons, forall_eq_or_imp, hle]
    split_ifs with hc
    · have := ih (e.base + e.length) (by omega) fun f hf => h f (by simp [hf])
      simp only at this
      exact ⟨by omega, this.2.1, by omega, this.2.2⟩
    · have := ih a ha fun f hf => h f (by simp [hf])
      simp only at this
      exact ⟨this.1, this.2.1, by omega, this.2.2⟩

/-- The bitmap never has more than 2^46 words, whatever the map. -/
theorem getBitmapLength_le (map : List MemmapEntry) :
    (getBitmapLength map pageToQword).toNat ≤ 2 ^ 46 := by
  have h64 : (pageToQword.signExtend 64).toNat = 64 := rfl
  have h4096 : (4096 : Word).toNat = 4096 := rfl
  simp only [getBitmapLength]
  generalize map.foldl _ _ = maxAddr
  have hres : ((maxAddr + 4096 - 1) / 4096).toNat < 2 ^ 52 := by
    rw [BitVec.toNat_udiv, h4096]
    have := (maxAddr + 4096 - 1).isLt
    omega
  generalize (maxAddr + 4096 - 1) / 4096 = result at hres
  have hsum : (result + pageToQword.signExtend 64 - 1).toNat = result.toNat + 63 := by
    rw [BitVec.toNat_sub, BitVec.toNat_add, h64]
    have h1 : (1 : Word).toNat = 1 := rfl
    rw [h1]
    omega
  rw [BitVec.toNat_udiv, h64, hsum]
  omega

variable {map : List MemmapEntry}

/-- Every entry ends inside the memory that the bitmap describes. -/
theorem LimineMap.end_le (h : LimineMap map) {e : MemmapEntry} (he : e ∈ map) :
    e.base.toNat + e.length.toNat ≤ 4096 * (64 * (getBitmapLength map pageToQword).toNat) := by
  have h64 : (pageToQword.signExtend 64).toNat = 64 := rfl
  have h4096 : (4096 : Word).toNat = 4096 := rfl
  have h1 : (1 : Word).toNat = 1 := rfl
  have hmax := maxAddr_spec map 0 (by simp) h.no_overflow
  simp only at hmax
  simp only [getBitmapLength]
  generalize map.foldl _ _ = maxAddr at hmax
  have hend := hmax.2.2 e he
  have hres : ((maxAddr + 4096 - 1) / 4096).toNat = (maxAddr.toNat + 4095) / 4096 := by
    rw [BitVec.toNat_udiv, h4096, BitVec.toNat_sub, BitVec.toNat_add, h4096, h1]
    omega
  generalize (maxAddr + 4096 - 1) / 4096 = result at hres
  have hsum : (result + pageToQword.signExtend 64 - 1).toNat = result.toNat + 63 := by
    rw [BitVec.toNat_sub, BitVec.toNat_add, h64, h1]
    omega
  rw [BitVec.toNat_udiv, h64, hsum]
  omega

end Length

/-- The map of a machine with 128 MiB of memory. -/
def map128M : List MemmapEntry := [⟨0x1000, 0x9E000, 0⟩, ⟨0x100000, 0x7F00000, 0⟩]

theorem map128M_limine : LimineMap map128M where
  length_pos := by decide
  no_overflow := by decide
  aligned := by decide
  no_overlap := by
    simp only [map128M, List.pairwise_cons, List.mem_singleton, forall_eq, List.not_mem_nil,
      false_imp_iff, implies_true, List.Pairwise.nil, and_true]
    exact fun _ => Or.inl (by decide)

end LucidiOS.Pmm
