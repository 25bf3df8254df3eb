import LucidiOS.Allocation.RegionPool
import LucidiOS.Heap.KernelHeap

/-! Ownership of heap blocks over whole runs of `kmalloc` and `kfree`. -/
namespace LucidiOS.Heap
open ByteMemory Pmm RegionPool

/-- A pointer returned by `kmalloc`, with the number of blocks it was asked for. -/
structure Allocation where
  pointer : Word
  blocks : Word
  deriving DecidableEq

/-- The address of the header block. -/
def Allocation.header (a : Allocation) : Word := a.pointer - blockSize

/-- The index of the header block. -/
def Allocation.start (a : Allocation) : ℕ := ((a.header - heapVirtStart) / blockSize).toNat

/-- The blocks of an allocation, from its header to its last payload block. -/
def Allocation.run (a : Allocation) : Set ℕ :=
  {q | a.start ≤ q ∧ q < a.start + a.blocks.toNat}

/-- The live allocations after one more `kmalloc`. -/
def holdPointer (p amount : Word) (live : List Allocation) : List Allocation :=
  if p = 0 then live else ⟨p, blocksFor amount⟩ :: live

/-- Every sequence of `kmalloc` and `kfree` calls on live pointers, with writes of the clients in
between that spare the live headers. `ok` restricts the calls of `kmalloc`. -/
inductive HeapRun (ok : KernelHeap → Word → Prop) : KernelHeap → List Allocation → Prop
  | start (window : Memory) : HeapRun ok ⟨fun _ => 0, window⟩ []
  | kmalloc {h : KernelHeap} {live : List Allocation} (run : HeapRun ok h live) (amount : Word)
      (hok : ok h amount) :
      HeapRun ok (kmalloc amount h).2 (holdPointer (kmalloc amount h).1 amount live)
  | kfree {h : KernelHeap} {live : List Allocation} (run : HeapRun ok h live) {a : Allocation}
      (ha : a ∈ live) : HeapRun ok (kfree a.pointer h) (live.erase a)
  | kfreeNull {h : KernelHeap} {live : List Allocation} (run : HeapRun ok h live) :
      HeapRun ok (Heap.kfree 0 h) live
  | client {h : KernelHeap} {live : List Allocation} (run : HeapRun ok h live) (window : Memory)
      (keep : ∀ a ∈ live, ∀ i < 16, window (a.header.toNat + i) = h.window (a.header.toNat + i)) :
      HeapRun ok { h with window } live

/-- What the heap guarantees its clients. -/
structure HeapInvariant (h : KernelHeap) (live : List Allocation) : Prop where
  disjoint : live.Pairwise fun a b => Disjoint a.run b.run
  inside : ∀ a ∈ live, a.start + a.blocks.toNat ≤ heapMaxBlocks
  header : ∀ a ∈ live, load64 h.window a.header.toNat = a.blocks
  used_iff : ∀ q, h.used q = true ↔ ∃ a ∈ live, q ∈ a.run
  empty : live = [] → h.heapBitmap = fun _ => 0

/-- The block pool that a heap and its live allocations stand for. -/
def blockPool (h : KernelHeap) (live : List Allocation) : Pool Allocation ℕ :=
  ⟨{q | h.used q = true}, live.map fun a => (a, a.run)⟩

/-- An allocation that lies in the heap and whose header is intact. -/
structure Allocation.Intact (h : KernelHeap) (a : Allocation) : Prop where
  pointer_eq : a.pointer = blockAddress a.start + blockSize
  inside : a.start + a.blocks.toNat ≤ heapMaxBlocks
  nonempty : 0 < a.blocks.toNat
  header : load64 h.window a.header.toNat = a.blocks

theorem Allocation.Intact.header_eq {h : KernelHeap} {a : Allocation} (ha : a.Intact h) :
    a.header = blockAddress a.start := by
  rw [Allocation.header, ha.pointer_eq, BitVec.add_sub_cancel]

theorem Allocation.start_of_pointer {s : ℕ} (hs : s ≤ heapMaxBlocks) (blocks : Word) :
    (⟨blockAddress s + blockSize, blocks⟩ : Allocation).start = s := by
  rw [Allocation.start, Allocation.header, BitVec.add_sub_cancel, blockAddress_index hs]

/-- What one successful `kmalloc` adds. -/
theorem kmalloc_intact {h : KernelHeap} {amount : Word} {s : ℕ}
    (hsome : FirstFit.firstFit (fun q => !h.used q) (blocksFor amount).toNat heapMaxBlocks =
      some s) :
    let a : Allocation := ⟨(kmalloc amount h).1, blocksFor amount⟩
    a.Intact (kmalloc amount h).2 ∧ a.start = s ∧ (∀ q ∈ a.run, h.used q = false) ∧
      ∀ q, (kmalloc amount h).2.used q = true ↔ h.used q = true ∨ q ∈ a.run := by
  obtain ⟨hptr, hwindow, hused⟩ := kmalloc_some hsome
  obtain ⟨hfit, hfree, -⟩ := FirstFit.firstFit_eq_some.mp hsome
  have hstart := Allocation.start_of_pointer (show s ≤ heapMaxBlocks by omega) (blocksFor amount)
  intro a
  have ha : a = ⟨blockAddress s + blockSize, blocksFor amount⟩ := by
    simp only [a, hptr]
  rw [ha]
  refine ⟨⟨by rw [hstart], by rw [hstart]; exact hfit, blocksFor_pos amount, ?_⟩, hstart, ?_, ?_⟩
  · rw [Allocation.header, BitVec.add_sub_cancel, hwindow, load64_store64_same]
  · intro q hq
    rw [Allocation.run, hstart] at hq
    have := FirstFit.freeRun_eq_true.mp hfree (q - s) (by have := hq.1; have := hq.2; simp at *; omega)
    rw [Nat.add_sub_cancel' hq.1] at this
    simpa using this
  · intro q
    rw [hused, Bool.or_eq_true, decide_eq_true_eq, Allocation.run, hstart]
    rfl

/-- Headers of other allocations survive a `kmalloc`. -/
theorem Allocation.Intact.kmalloc {h : KernelHeap} {amount : Word} {s : ℕ}
    (hsome : FirstFit.firstFit (fun q => !h.used q) (blocksFor amount).toNat heapMaxBlocks =
      some s) {a : Allocation} (ha : a.Intact h) (hs : a.start ≠ s) :
    a.Intact (kmalloc amount h).2 := by
  obtain ⟨-, hwindow, -⟩ := kmalloc_some hsome
  have hfit := (FirstFit.firstFit_eq_some.mp hsome).1
  have hin := ha.inside
  refine ⟨ha.pointer_eq, ha.inside, ha.nonempty, ?_⟩
  rw [hwindow, load64_store64_apart, ha.header]
  rw [ha.header_eq, blockAddress_toNat (by omega), blockAddress_toNat (by omega)]
  omega

/-- A successful `kmalloc` acquires its run of blocks. -/
theorem kmalloc_step {h : KernelHeap} {live : List Allocation} {amount : Word} {s : ℕ}
    (hsome : FirstFit.firstFit (fun q => !h.used q) (blocksFor amount).toNat heapMaxBlocks =
      some s) :
    Step (blockPool h live) (blockPool (kmalloc amount h).2
      (⟨(kmalloc amount h).1, blocksFor amount⟩ :: live)) := by
  obtain ⟨-, -, hfree, hused⟩ := kmalloc_intact hsome
  have hstep := Step.acquire (blockPool h live) ⟨(kmalloc amount h).1, blocksFor amount⟩
    (Allocation.run ⟨(kmalloc amount h).1, blocksFor amount⟩)
    (Set.disjoint_left.mpr fun q hq hrun => by
      have := hfree q hrun
      rw [Set.mem_ofPred_eq.mp hq] at this
      contradiction)
  convert hstep using 1
  simp only [blockPool, List.map_cons, Pool.mk.injEq, and_true]
  ext q
  exact hused q

/-- A `kfree` of a live allocation releases its run. -/
theorem kfree_step {h : KernelHeap} {live : List Allocation} {a : Allocation} (ha : a ∈ live)
    (hi : a.Intact h) :
    Step (blockPool h live) (blockPool (kfree a.pointer h) (live.erase a)) := by
  have hfree := kfree_used hi.inside (hi.header_eq ▸ hi.header)
  rw [← hi.pointer_eq] at hfree
  have hstep := Step.release (blockPool h live) a a.run
    ((live.erase a).map fun a => (a, a.run))
    ((List.perm_cons_erase ha).map fun a : Allocation => (a, a.run))
  convert hstep using 1
  simp only [blockPool, Pool.mk.injEq, and_true]
  ext q
  simp only [Set.mem_ofPred_eq, hfree.2, Set.mem_sdiff, Bool.and_eq_true, Bool.not_eq_true',
    decide_eq_false_iff_not, Allocation.run]

/-- The first block of a live allocation is in use, that of a new one was free. -/
theorem start_ne_of_live {h : KernelHeap} {live : List Allocation} {amount : Word} {s : ℕ}
    (hsteps : Steps ⟨∅, []⟩ (blockPool h live))
    (hsome : FirstFit.firstFit (fun q => !h.used q) (blocksFor amount).toNat heapMaxBlocks =
      some s) {a : Allocation} (ha : a ∈ live) (hi : a.Intact h) : a.start ≠ s := by
  intro hc
  obtain ⟨-, hstart, hfree, -⟩ := kmalloc_intact hsome
  have hin : a.start ∈ a.run := ⟨Nat.le_refl _, by have := hi.nonempty; omega⟩
  have hold : h.used a.start = true :=
    (hsteps.inv.occupied_iff _).mpr (Or.inr ⟨(a, a.run), List.mem_map_of_mem ha, hin⟩)
  have hnew := hfree a.start (by
    refine ⟨by rw [hstart, hc], ?_⟩
    rw [hstart, hc]
    have := blocksFor_pos amount
    simp only
    omega)
  rw [hold] at hnew
  contradiction

/-- A run of the heap is a history of the block pool, with every live header intact. -/
theorem heapRun_refines {ok : KernelHeap → Word → Prop} {h : KernelHeap} {live : List Allocation}
    (run : HeapRun ok h live) :
    Steps ⟨∅, []⟩ (blockPool h live) ∧ ∀ a ∈ live, a.Intact h := by
  induction run with
  | start window =>
    have hempty : blockPool ⟨fun _ => 0, window⟩ [] = ⟨∅, []⟩ := by
      simp [blockPool, KernelHeap.used, WordArray.bit, WordArray.standalone]
    rw [hempty]
    exact ⟨Steps.refl, by simp⟩
  | @kmalloc h live _ amount _ ih =>
    obtain ⟨hsteps, hlive⟩ := ih
    cases hfit : FirstFit.firstFit (fun q => !h.used q) (blocksFor amount).toNat
      heapMaxBlocks with
    | none =>
      rw [kmalloc_none hfit, holdPointer, if_pos rfl]
      exact ⟨hsteps, hlive⟩
    | some s =>
      have hs := (FirstFit.firstFit_eq_some.mp hfit).1
      have hne : (kmalloc amount h).1 ≠ 0 := by
        rw [(kmalloc_some hfit).1]
        exact blockAddress_add_ne_zero (by omega)
      rw [holdPointer, if_neg hne]
      refine ⟨hsteps.tail (kmalloc_step hfit), fun a ha => ?_⟩
      rcases List.mem_cons.mp ha with rfl | ha
      · exact (kmalloc_intact hfit).1
      · exact (hlive a ha).kmalloc hfit (start_ne_of_live hsteps hfit ha (hlive a ha))
  | @kfree h live _ a ha ih =>
    obtain ⟨hsteps, hlive⟩ := ih
    have hi := hlive a ha
    have hfree := kfree_used hi.inside (hi.header_eq ▸ hi.header)
    rw [← hi.pointer_eq] at hfree
    refine ⟨hsteps.tail (kfree_step ha hi), fun b hb => ?_⟩
    have hb := hlive b (List.mem_of_mem_erase hb)
    exact ⟨hb.pointer_eq, hb.inside, hb.nonempty, by rw [hfree.1]; exact hb.header⟩
  | kfreeNull _ ih => exact ih
  | client _ window keep ih =>
    obtain ⟨hsteps, hlive⟩ := ih
    refine ⟨hsteps, fun a ha => ?_⟩
    have hi := hlive a ha
    refine ⟨hi.pointer_eq, hi.inside, hi.nonempty, ?_⟩
    rw [← hi.header]
    exact load64_congr fun i hi => keep a ha i (by omega)

/-- At every point of every run the live allocations are disjoint runs of blocks, each header holds
the length of its own run, and the bitmap marks exactly their blocks. -/
theorem heapRun_invariant {h : KernelHeap} {live : List Allocation}
    (run : HeapRun (fun _ _ => True) h live) : HeapInvariant h live := by
  obtain ⟨hsteps, hlive⟩ := heapRun_refines run
  have hinv := hsteps.inv
  have hused (q : ℕ) : h.used q = true ↔ ∃ a ∈ live, q ∈ a.run := by
    have := hinv.occupied_iff q
    simpa [blockPool] using this
  constructor
  · have hd := hinv.disjoint
    rw [blockPool, List.pairwise_map] at hd
    exact hd
  · exact fun a ha => (hlive a ha).inside
  · exact fun a ha => (hlive a ha).header
  · exact hused
  · rintro rfl
    exact WordArray.standalone_eq_zero fun q => by
      have := hused q
      simpa [KernelHeap.used] using this

theorem gappedHeap_run : HeapRun (fun _ _ => True) gappedHeap
    [⟨0xFFFF800000000070, 2⟩, ⟨0xFFFF800000000030, 4⟩] := by
  have h1 : (kmalloc 16 emptyHeap).1 = 0xFFFF800000000010 := by decide +kernel
  have h2 : (kmalloc 40 (kmalloc 16 emptyHeap).2).1 = 0xFFFF800000000030 := by decide +kernel
  have h3 : (kmalloc 16 (kmalloc 40 (kmalloc 16 emptyHeap).2).2).1 = 0xFFFF800000000070 := by
    decide +kernel
  have hstart : HeapRun (fun _ _ => True) emptyHeap [] := .start fun _ => 0
  have hrun := ((hstart.kmalloc 16 trivial).kmalloc 40 trivial).kmalloc 16 trivial
  rw [h1, h2, h3] at hrun
  have hfirst : (⟨0xFFFF800000000010, 2⟩ : Allocation) ∈
      [⟨0xFFFF800000000070, 2⟩, ⟨0xFFFF800000000030, 4⟩, ⟨0xFFFF800000000010, 2⟩] := by decide
  exact hrun.kfree hfirst

theorem heapRun_invariant_gapped :
    HeapInvariant gappedHeap [⟨0xFFFF800000000070, 2⟩, ⟨0xFFFF800000000030, 4⟩] :=
  heapRun_invariant gappedHeap_run

end LucidiOS.Heap
