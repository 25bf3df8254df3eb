import LucidiOS.Heap.Ownership

/-! Which heap blocks have memory behind them. The bitmap manages 8 MiB of blocks, the boot loop
maps 512 pages. -/
namespace LucidiOS.Heap
open ByteMemory FirstFit

/-- The `i`th page that the boot loop maps. -/
def heapPage (i : ℕ) : Word := heapVirtStart + BitVec.ofNat 64 i * 4096

def heapPages : ℕ := 512

def MappedAtBoot (a : Word) : Prop := ∃ i < heapPages, a.toNat / 4096 = (heapPage i).toNat / 4096

/-- The header and every other byte of the run lie in mapped pages. -/
def Allocation.Backed (a : Allocation) : Prop :=
  ∀ j < 16 * a.blocks.toNat, MappedAtBoot (a.header + BitVec.ofNat 64 j)

/-- The blocks of the mapped pages. -/
def mappedBlocks : ℕ := 512 * 4096 / 16

/-- A request for which the heap has room finds room in its mapped part. -/
def FitsMapped (h : KernelHeap) (amount : Word) : Prop :=
  (∃ s, s + (blocksFor amount).toNat ≤ heapMaxBlocks ∧
    freeRun (fun q => !h.used q) s (blocksFor amount).toNat = true) →
  ∃ s, s + (blocksFor amount).toNat ≤ mappedBlocks ∧
    freeRun (fun q => !h.used q) s (blocksFor amount).toNat = true

theorem heapPage_toNat {i : ℕ} (hi : i < heapPages) :
    (heapPage i).toNat = heapVirtStart.toNat + 4096 * i := by
  have hstart := heapVirtStart_toNat
  have h4096 : (4096 : Word).toNat = 4096 := rfl
  unfold heapPages at hi
  rw [heapPage, BitVec.toNat_add, BitVec.toNat_mul, BitVec.toNat_ofNat, h4096, hstart]
  omega

theorem mappedAtBoot_iff {a : Word} {k : ℕ} (ha : a.toNat = heapVirtStart.toNat + k) :
    MappedAtBoot a ↔ k < 4096 * heapPages := by
  have hstart := heapVirtStart_toNat
  constructor
  · rintro ⟨i, hi, hpage⟩
    rw [ha, heapPage_toNat hi, hstart] at hpage
    omega
  · intro hk
    have hi : k / 4096 < heapPages := by omega
    refine ⟨k / 4096, hi, ?_⟩
    rw [ha, heapPage_toNat hi, hstart]
    omega

/-- An allocation is backed exactly when its run ends inside the mapped pages. -/
theorem Allocation.Intact.backed_iff {h : KernelHeap} {a : Allocation} (ha : a.Intact h) :
    a.Backed ↔ a.start + a.blocks.toNat ≤ mappedBlocks := by
  have hin := ha.inside
  have hpos := ha.nonempty
  have hbyte (j : ℕ) (hj : j < 16 * a.blocks.toNat) :
      (a.header + BitVec.ofNat 64 j).toNat = heapVirtStart.toNat + (16 * a.start + j) := by
    have hstart := heapVirtStart_toNat
    rw [ha.header_eq, BitVec.toNat_add, BitVec.toNat_ofNat, blockAddress_toNat (by omega)]
    unfold heapMaxBlocks at hin
    omega
  have hsize : 4096 * heapPages = 16 * mappedBlocks := rfl
  constructor
  · intro hb
    have hlast := hb (16 * a.blocks.toNat - 1) (by omega)
    rw [mappedAtBoot_iff (hbyte _ (by omega))] at hlast
    omega
  · intro hle j hj
    rw [mappedAtBoot_iff (hbyte j hj)]
    omega

/-- What `kmalloc` returns is backed exactly when the request fits the mapped part. -/
theorem kmalloc_backed_iff (h : KernelHeap) (amount : Word) :
    ((kmalloc amount h).1 ≠ 0 →
      (⟨(kmalloc amount h).1, blocksFor amount⟩ : Allocation).Backed) ↔ FitsMapped h amount := by
  unfold FitsMapped
  cases hfit : firstFit (fun q => !h.used q) (blocksFor amount).toNat heapMaxBlocks with
  | none =>
    have hnone := firstFit_eq_none.mp hfit
    rw [kmalloc_none hfit]
    refine iff_of_true (fun h => absurd rfl h) ?_
    rintro ⟨s, hs, hrun⟩
    rw [hnone s hs] at hrun
    contradiction
  | some s =>
    obtain ⟨hs, hrun, hleast⟩ := firstFit_eq_some.mp hfit
    obtain ⟨hintact, hstart, -⟩ := kmalloc_intact hfit
    have hne : (kmalloc amount h).1 ≠ 0 := by
      rw [(kmalloc_some hfit).1]
      exact blockAddress_add_ne_zero (by omega)
    rw [hintact.backed_iff, hstart]
    constructor
    · intro hb _
      exact ⟨s, hb hne, hrun⟩
    · intro hcond _
      obtain ⟨t, ht, htrun⟩ := hcond ⟨s, hs, hrun⟩
      -- the first fit does not start after another fit
      have hle : s ≤ t := by
        by_contra hc
        rw [hleast t (by omega)] at htrun
        contradiction
      change s + (blocksFor amount).toNat ≤ mappedBlocks
      omega

/-- While every request fits the mapped part, every live allocation is backed, and the next request
is backed exactly when it fits as well. -/
theorem heapRun_backed {h : KernelHeap} {live : List Allocation} (run : HeapRun FitsMapped h live) :
    (∀ a ∈ live, a.Backed) ∧
    ∀ amount, ((kmalloc amount h).1 ≠ 0 →
      (⟨(kmalloc amount h).1, blocksFor amount⟩ : Allocation).Backed) ↔ FitsMapped h amount := by
  refine ⟨?_, kmalloc_backed_iff h⟩
  induction run with
  | start => simp
  | @kmalloc h live _ amount hok ih =>
    intro a ha
    rw [holdPointer] at ha
    split_ifs at ha with hr
    · exact ih a ha
    · rcases List.mem_cons.mp ha with rfl | ha
      · exact (kmalloc_backed_iff h amount).mpr hok hr
      · exact ih a ha
  | kfree _ _ ih => exact fun b hb => ih b (List.mem_of_mem_erase hb)
  | kfreeNull _ ih => exact ih
  | client _ _ _ ih => exact ih

theorem heapRun_backed_first :
    (⟨(kmalloc 16 emptyHeap).1, blocksFor 16⟩ : Allocation).Backed := by
  have hfits : FitsMapped emptyHeap 16 := fun _ => ⟨0, by decide, emptyHeap_freeRun 0 _⟩
  have hfirst : firstFit (fun q => !emptyHeap.used q) (blocksFor 16).toNat heapMaxBlocks = some 0 :=
    firstFit_eq_some.mpr ⟨by decide, emptyHeap_freeRun 0 _, by simp⟩
  have hne : (kmalloc 16 emptyHeap).1 ≠ 0 := by
    rw [(kmalloc_some hfirst).1]
    exact blockAddress_add_ne_zero (by decide)
  have hrun : HeapRun FitsMapped (kmalloc 16 emptyHeap).2
      (holdPointer (kmalloc 16 emptyHeap).1 16 []) := .kmalloc (.start fun _ => 0) 16 hfits
  have hlive := (heapRun_backed hrun).1
  rw [holdPointer, if_neg hne] at hlive
  exact hlive _ List.mem_cons_self

/-- A request for 2 MiB succeeds on the empty heap, but the last block of its run is not mapped. -/
theorem kmalloc_2M_not_backed :
    (kmalloc 0x200000 emptyHeap).1 = 0xFFFF800000000010 ∧
    ¬(⟨(kmalloc 0x200000 emptyHeap).1, blocksFor 0x200000⟩ : Allocation).Backed := by
  have hblocks : (blocksFor 0x200000).toNat = 131073 := by decide
  have hfit : firstFit (fun q => !emptyHeap.used q) (blocksFor 0x200000).toNat heapMaxBlocks =
      some 0 :=
    firstFit_eq_some.mpr ⟨by rw [hblocks]; decide, emptyHeap_freeRun 0 _, by simp⟩
  refine ⟨by rw [(kmalloc_some hfit).1]; decide, fun hb => ?_⟩
  obtain ⟨s, hs, -⟩ := (kmalloc_backed_iff emptyHeap 0x200000).mp (fun _ => hb)
    ⟨0, by rw [hblocks]; decide, emptyHeap_freeRun 0 _⟩
  rw [hblocks] at hs
  unfold mappedBlocks at hs
  omega

end LucidiOS.Heap
