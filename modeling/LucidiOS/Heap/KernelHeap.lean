import LucidiOS.Allocation.FirstFit
import LucidiOS.Pmm.PageBitmap

/-! The kernel heap: `kmalloc` and `kfree`. The bitmap has a bit for each block of 16 bytes, and
the block in front of an allocation holds its length. -/
namespace LucidiOS.Heap
open ByteMemory Pmm

def heapVirtStart : Word := 0xFFFF800000000000

def blockSize : Word := 16

theorem heapVirtStart_toNat : heapVirtStart.toNat = 0xFFFF800000000000 := rfl

theorem blockSize_toNat : blockSize.toNat = 16 := rfl

def heapMaxBlocks : ℕ := 8192 * 64

/-- The heap bitmap, and memory by virtual address. -/
structure KernelHeap where
  heapBitmap : ℕ → Word
  window : Memory

/-- The pass of `kmalloc` over the bitmap. -/
def kmallocScan (heapBitmap : ℕ → Word) (blocks : Word) : Option ℕ :=
  FirstFit.scan (fun i => decide (heapBitmap (i / 64) &&& (1#64 <<< (i % 64)) = 0))
    blocks.toNat heapMaxBlocks 0 0 0

/-- The number of blocks for a request, with the header. -/
def blocksFor (amount : Word) : Word := (amount + blockSize - 1) / blockSize + 1

def kmalloc (amount : Word) (h : KernelHeap) : Word × KernelHeap :=
  let blocks := blocksFor amount
  match kmallocScan h.heapBitmap blocks with
  | some startBit =>
      let heapBitmap := (List.range blocks.toNat).foldl
        (fun s k => pmmLockPage WordArray.standalone (BitVec.ofNat 64 (startBit + k)) s)
        h.heapBitmap
      let virtAddr := heapVirtStart + BitVec.ofNat 64 startBit * blockSize
      (virtAddr + blockSize, { heapBitmap, window := store64 h.window virtAddr.toNat blocks })
  | none => (0, h)

def kfree (p : Word) (h : KernelHeap) : KernelHeap :=
  if p = 0 then h
  else
    let virtAddr := p - blockSize
    let blocksFree := load64 h.window virtAddr.toNat
    let bitIdx := (virtAddr - heapVirtStart) / blockSize
    { h with
      heapBitmap := (List.range blocksFree.toNat).foldl
        (fun s i => pmmFreePage WordArray.standalone (bitIdx + BitVec.ofNat 64 i) s) h.heapBitmap }

def KernelHeap.used (h : KernelHeap) (q : ℕ) : Bool := WordArray.standalone.bit h.heapBitmap q

/-- The virtual address of block `k`. -/
def blockAddress (k : ℕ) : Word := heapVirtStart + BitVec.ofNat 64 k * blockSize

theorem blocksFor_toNat (amount : Word) :
    (blocksFor amount).toNat = (amount + 15).toNat / 16 + 1 := by
  have h16 := blockSize_toNat
  have h1 : (1 : Word).toNat = 1 := rfl
  have hsum : amount + blockSize - 1 = amount + 15 := by
    rw [BitVec.sub_eq_add_neg, BitVec.add_assoc]
    rfl
  have := (amount + 15).isLt
  rw [blocksFor, hsum, BitVec.toNat_add, BitVec.toNat_udiv, h16, h1]
  omega

theorem blocksFor_pos (amount : Word) : 0 < (blocksFor amount).toNat := by
  rw [blocksFor_toNat]
  omega

theorem blockAddress_toNat {k : ℕ} (hk : k ≤ heapMaxBlocks) :
    (blockAddress k).toNat = heapVirtStart.toNat + 16 * k := by
  have hstart := heapVirtStart_toNat
  have h16 := blockSize_toNat
  unfold heapMaxBlocks at hk
  rw [blockAddress, BitVec.toNat_add, BitVec.toNat_mul, BitVec.toNat_ofNat, h16, hstart]
  omega

/-- The pointers of `kmalloc` are never null. -/
theorem blockAddress_add_ne_zero {s : ℕ} (hs : s ≤ heapMaxBlocks) :
    blockAddress s + blockSize ≠ 0 := by
  intro hc
  have haddr := blockAddress_toNat hs
  have hstart := heapVirtStart_toNat
  have h16 := blockSize_toNat
  have hzero : (0 : Word).toNat = 0 := rfl
  have := congrArg BitVec.toNat hc
  unfold heapMaxBlocks at hs
  rw [BitVec.toNat_add, haddr, h16, hzero] at this
  omega

/-- The block index that `kfree` computes is the one that `kmalloc` used. -/
theorem blockAddress_index {k : ℕ} (hk : k ≤ heapMaxBlocks) :
    ((blockAddress k - heapVirtStart) / blockSize).toNat = k := by
  have h16 := blockSize_toNat
  have haddr := blockAddress_toNat hk
  have hlt := (blockAddress k).isLt
  rw [BitVec.toNat_udiv, BitVec.toNat_sub, h16]
  omega

/-- `kmalloc` is first fit. -/
theorem kmallocScan_eq (h : KernelHeap) (amount : Word) :
    kmallocScan h.heapBitmap (blocksFor amount) =
      FirstFit.firstFit (fun q => !h.used q) (blocksFor amount).toNat heapMaxBlocks := by
  have hfree : (fun i => decide (h.heapBitmap (i / 64) &&& (1#64 <<< (i % 64)) = 0)) =
      fun q => !h.used q := by
    funext q
    have hbit := and_shift_eq_zero (h.heapBitmap (q / 64)) (Nat.mod_lt q (by decide : 0 < 64))
    rw [decide_eq_decide.mpr hbit]
    change decide (h.used q = false) = !h.used q
    cases h.used q <;> rfl
  rw [kmallocScan, FirstFit.scan_eq_firstFit (blocksFor_pos amount), hfree]

theorem kmalloc_none {h : KernelHeap} {amount : Word}
    (hnone : FirstFit.firstFit (fun q => !h.used q) (blocksFor amount).toNat heapMaxBlocks = none) :
    kmalloc amount h = (0, h) := by
  rw [kmalloc, kmallocScan_eq, hnone]

/-- A successful `kmalloc` returns the block after the header, marks the blocks of the run and
writes the header. -/
theorem kmalloc_some {h : KernelHeap} {amount : Word} {s : ℕ}
    (hsome : FirstFit.firstFit (fun q => !h.used q) (blocksFor amount).toNat heapMaxBlocks =
      some s) :
    (kmalloc amount h).1 = blockAddress s + blockSize ∧
    (kmalloc amount h).2.window =
      store64 h.window (blockAddress s).toNat (blocksFor amount) ∧
    ∀ q, (kmalloc amount h).2.used q =
      (h.used q || decide (s ≤ q ∧ q < s + (blocksFor amount).toNat)) := by
  have hfit := (FirstFit.firstFit_eq_some.mp hsome).1
  unfold heapMaxBlocks at hfit
  have hfold : (List.range (blocksFor amount).toNat).foldl
      (fun s' k => pmmLockPage WordArray.standalone (BitVec.ofNat 64 (s + k)) s') h.heapBitmap =
      ((List.range (blocksFor amount).toNat).map (s + ·)).foldl
        (fun s' p => WordArray.standalone.setBit p s') h.heapBitmap := by
    rw [List.foldl_map]
    refine List.foldl_ext _ _ _ fun b k hk => ?_
    rw [List.mem_range] at hk
    rw [pmmLockPage_eq, BitVec.toNat_ofNat, Nat.mod_eq_of_lt (by omega)]
  have heq : kmalloc amount h = (blockAddress s + blockSize,
      { heapBitmap := ((List.range (blocksFor amount).toNat).map (s + ·)).foldl
          (fun s' p => WordArray.standalone.setBit p s') h.heapBitmap,
        window := store64 h.window (blockAddress s).toNat (blocksFor amount) }) := by
    rw [kmalloc, kmallocScan_eq, hsome]
    simp only [hfold, blockAddress]
  rw [heq]
  refine ⟨rfl, rfl, fun q => ?_⟩
  rw [KernelHeap.used, WordArray.standalone_bit_foldl_setBit, KernelHeap.used]
  congr 1
  rw [decide_eq_decide, List.mem_map]
  constructor
  · rintro ⟨k, hk, rfl⟩
    rw [List.mem_range] at hk
    omega
  · rintro ⟨h1, h2⟩
    exact ⟨q - s, List.mem_range.mpr (by omega), by omega⟩

/-- `kfree` clears the blocks of a run whose header holds its length. -/
theorem kfree_used {h : KernelHeap} {s : ℕ} {blocks : Word} (hs : s + blocks.toNat ≤ heapMaxBlocks)
    (hheader : load64 h.window (blockAddress s).toNat = blocks) :
    (kfree (blockAddress s + blockSize) h).window = h.window ∧
    ∀ q, (kfree (blockAddress s + blockSize) h).used q =
      (h.used q && !decide (s ≤ q ∧ q < s + blocks.toNat)) := by
  have hne := blockAddress_add_ne_zero (show s ≤ heapMaxBlocks by omega)
  have hback : blockAddress s + blockSize - blockSize = blockAddress s := BitVec.add_sub_cancel _ _
  have hindex := blockAddress_index (show s ≤ heapMaxBlocks by omega)
  have hfold : (List.range blocks.toNat).foldl (fun s' i => pmmFreePage WordArray.standalone
        ((blockAddress s - heapVirtStart) / blockSize + BitVec.ofNat 64 i) s') h.heapBitmap =
      ((List.range blocks.toNat).map (s + ·)).foldl
        (fun s' p => WordArray.standalone.clearBit p s') h.heapBitmap := by
    rw [List.foldl_map]
    refine List.foldl_ext _ _ _ fun b k hk => ?_
    rw [List.mem_range] at hk
    unfold heapMaxBlocks at hs
    rw [pmmFreePage_eq, BitVec.toNat_add, hindex, BitVec.toNat_ofNat, Nat.mod_eq_of_lt (by omega),
      Nat.mod_eq_of_lt (by omega)]
  have heq : kfree (blockAddress s + blockSize) h = { h with
      heapBitmap := ((List.range blocks.toNat).map (s + ·)).foldl
        (fun s' p => WordArray.standalone.clearBit p s') h.heapBitmap } := by
    rw [kfree, if_neg hne]
    simp only [hback, hheader, hfold]
  rw [heq]
  refine ⟨rfl, fun q => ?_⟩
  rw [KernelHeap.used, WordArray.standalone_bit_foldl_clearBit, KernelHeap.used]
  congr 2
  rw [decide_eq_decide, List.mem_map]
  constructor
  · rintro ⟨k, hk, rfl⟩
    rw [List.mem_range] at hk
    omega
  · rintro ⟨h1, h2⟩
    exact ⟨q - s, List.mem_range.mpr (by omega), by omega⟩

/-- The heap after boot. -/
def emptyHeap : KernelHeap := ⟨fun _ => 0, fun _ => 0⟩

theorem emptyHeap_used (q : ℕ) : emptyHeap.used q = false := by
  simp [emptyHeap, KernelHeap.used, WordArray.bit, WordArray.standalone]

theorem emptyHeap_freeRun (s b : ℕ) : FirstFit.freeRun (fun q => !emptyHeap.used q) s b = true :=
  FirstFit.freeRun_eq_true.mpr fun k _ => by rw [emptyHeap_used, Bool.not_false]

/-- Blocks 0 and 1 were freed again, blocks 2 to 7 belong to two live allocations. -/
def gappedHeap : KernelHeap :=
  kfree 0xFFFF800000000010 (kmalloc 16 (kmalloc 40 (kmalloc 16 emptyHeap).2).2).2

end LucidiOS.Heap
