import LucidiOS.Heap.Fragmentation

/-! The heap as a store of objects: what clients write to their allocations stays there. -/
namespace LucidiOS.Heap
open ByteMemory FirstFit

/-- The number of bytes behind the header. -/
def Allocation.payload (a : Allocation) : ℕ := 16 * (a.blocks.toNat - 1)

/-- Live objects, and their bytes by pointer and offset. -/
structure ObjectStore where
  live : List Allocation
  contents : Word → ℕ → BitVec 8

namespace ObjectStore

/-- `kmalloc` returned `p`. A new object has the bytes that memory happens to hold. -/
def add (o : ObjectStore) (p amount : Word) (window : Memory) : ObjectStore where
  live := holdPointer p amount o.live
  contents := Function.update o.contents p fun i => window (p.toNat + i)

def remove (o : ObjectStore) (a : Allocation) : ObjectStore := { o with live := o.live.erase a }

def write (o : ObjectStore) (a : Allocation) (i : ℕ) (b : BitVec 8) : ObjectStore :=
  { o with
    contents := Function.update o.contents a.pointer
      (Function.update (o.contents a.pointer) i b) }

end ObjectStore

/-- Every sequence of calls, and of writes of the clients to their own objects. -/
inductive ObjectRun (window : Memory) : KernelHeap → ObjectStore → Prop
  | start : ObjectRun window ⟨fun _ => 0, window⟩ ⟨[], fun _ _ => 0⟩
  | kmalloc {h : KernelHeap} {o : ObjectStore} (run : ObjectRun window h o) (amount : Word) :
      ObjectRun window (kmalloc amount h).2
        (o.add (kmalloc amount h).1 amount (kmalloc amount h).2.window)
  | kfree {h : KernelHeap} {o : ObjectStore} (run : ObjectRun window h o) {a : Allocation}
      (ha : a ∈ o.live) : ObjectRun window (kfree a.pointer h) (o.remove a)
  | kfreeNull {h : KernelHeap} {o : ObjectStore} (run : ObjectRun window h o) :
      ObjectRun window (Heap.kfree 0 h) o
  | write {h : KernelHeap} {o : ObjectStore} (run : ObjectRun window h o) {a : Allocation} {i : ℕ}
      (ha : a ∈ o.live) (hi : i < a.payload) (b : BitVec 8) :
      ObjectRun window { h with window := Function.update h.window (a.pointer.toNat + i) b }
        (o.write a i b)

/-- The heap holds the objects, and memory outside the heap is as it was. -/
structure Holds (window : Memory) (h : KernelHeap) (o : ObjectStore) : Prop where
  run : HeapRun (fun _ _ => True) h o.live
  contents : ∀ a ∈ o.live, ∀ i < a.payload, h.window (a.pointer.toNat + i) = o.contents a.pointer i
  outside : ∀ x, x < heapVirtStart.toNat ∨ heapVirtStart.toNat + 16 * heapMaxBlocks ≤ x →
    h.window x = window x

section Objects
variable {window : Memory} {h : KernelHeap} {o : ObjectStore} {a c : Allocation} {i : ℕ}

theorem Allocation.Intact.pointer_toNat (ha : a.Intact h) :
    a.pointer.toNat = heapVirtStart.toNat + 16 * (a.start + 1) := by
  have hin := ha.inside
  have hpos := ha.nonempty
  have haddr := blockAddress_toNat (show a.start ≤ heapMaxBlocks by omega)
  have hstart := heapVirtStart_toNat
  have h16 := blockSize_toNat
  unfold heapMaxBlocks at hin
  rw [ha.pointer_eq, BitVec.toNat_add, haddr, h16]
  omega

/-- The address of a payload byte names a block of the run, after the header. -/
theorem Allocation.Intact.byte (ha : a.Intact h) (hi : i < a.payload) :
    ∃ k, k ∈ a.run ∧ a.start < k ∧ heapVirtStart.toNat + 16 * k ≤ a.pointer.toNat + i ∧
      a.pointer.toNat + i < heapVirtStart.toNat + 16 * (k + 1) := by
  have hptr := ha.pointer_toNat
  unfold Allocation.payload at hi
  refine ⟨a.start + 1 + i / 16, ⟨by omega, by omega⟩, by omega, by omega, by omega⟩

theorem Holds.kmalloc (hh : Holds window h o) (amount : Word) :
    Holds window (kmalloc amount h).2
      (o.add (kmalloc amount h).1 amount (kmalloc amount h).2.window) := by
  refine ⟨hh.run.kmalloc amount trivial, ?_, ?_⟩
  · intro c hc j hj
    change _ = Function.update o.contents _ _ _ _
    cases hfit : firstFit (fun q => !h.used q) (blocksFor amount).toNat heapMaxBlocks with
    | none =>
      rw [ObjectStore.add, kmalloc_none hfit, holdPointer, if_pos rfl] at hc
      have hne : c.pointer ≠ 0 := by
        intro hzero
        have hptr := ((heapRun_refines hh.run).2 c hc).pointer_toNat
        rw [hzero] at hptr
        simp at hptr
      rw [kmalloc_none hfit, Function.update_of_ne hne]
      exact hh.contents c hc j hj
    | some s =>
      rw [ObjectStore.add, holdPointer, if_neg (kmalloc_takes hfit).ne_zero] at hc
      rcases List.mem_cons.mp hc with rfl | hc
      · rw [Function.update_self]
      · obtain ⟨hsteps, hlive⟩ := heapRun_refines hh.run
        have hstart := start_ne_of_live hsteps hfit hc (hlive c hc)
        have hs := (firstFit_eq_some.mp hfit).1
        have hpos := blocksFor_pos amount
        have hne : c.pointer ≠ (Heap.kmalloc amount h).1 := by
          intro heq
          have hptr := (hlive c hc).pointer_toNat
          rw [heq, (kmalloc_takes hfit).pointer] at hptr
          omega
        obtain ⟨k, hk, -, h1, h2⟩ := (hlive c hc).byte hj
        have hks : k ≠ s := by
          rintro rfl
          have hused := (heapRun_used hh.run k).mpr ⟨c, hc, hk⟩
          have hfree := freeRun_eq_true.mp (firstFit_eq_some.mp hfit).2.1 0 hpos
          rw [Nat.add_zero, hused] at hfree
          contradiction
        rw [Function.update_of_ne hne, (kmalloc_some hfit).2.1,
          blockAddress_toNat (by omega), store64_outside _ _ (by omega)]
        exact hh.contents c hc j hj
  · intro x hx
    rw [← hh.outside x hx]
    cases hfit : firstFit (fun q => !h.used q) (blocksFor amount).toNat heapMaxBlocks with
    | none => rw [kmalloc_none hfit]
    | some s =>
      have hs := (firstFit_eq_some.mp hfit).1
      have hpos := blocksFor_pos amount
      rw [(kmalloc_some hfit).2.1, blockAddress_toNat (by omega)]
      exact store64_outside _ _ (by omega)

theorem Holds.kfree (hh : Holds window h o) (ha : a ∈ o.live) :
    Holds window (kfree a.pointer h) (o.remove a) := by
  have hi := (heapRun_refines hh.run).2 a ha
  have hfree := (kfree_used hi.inside (hi.header_eq ▸ hi.header)).1
  rw [← hi.pointer_eq] at hfree
  refine ⟨hh.run.kfree ha, fun c hc j hj => ?_, fun x hx => ?_⟩
  · rw [hfree]
    exact hh.contents c (List.mem_of_mem_erase hc) j hj
  · rw [hfree]
    exact hh.outside x hx

theorem Holds.write (hh : Holds window h o) (ha : a ∈ o.live) (hi : i < a.payload)
    (b : BitVec 8) :
    Holds window { h with window := Function.update h.window (a.pointer.toNat + i) b }
      (o.write a i b) := by
  have hlive := (heapRun_refines hh.run).2
  obtain ⟨k, hk, hstart, h1, h2⟩ := (hlive a ha).byte hi
  have hin := (hlive a ha).inside
  have hkend := hk.2
  refine ⟨hh.run.client _ fun c hc j hj => Function.update_of_ne ?_ _ _, fun c hc j hj => ?_,
    fun x hx => ?_⟩
  · -- the block written to is the header of no live allocation
    have hck : c.start ≠ k := by
      rintro rfl
      by_cases hca : a = c
      · exact absurd (hca ▸ hstart) (Nat.lt_irrefl _)
      · have hmem : c.start ∈ c.run := ⟨Nat.le_refl _, by have := (hlive c hc).nonempty; omega⟩
        exact Set.disjoint_left.mp (heapRun_apart hh.run ha hc hca) hk hmem
    have := (hlive c hc).inside
    rw [(hlive c hc).header_eq, blockAddress_toNat (by omega)]
    omega
  · change Function.update h.window _ b _ = Function.update o.contents _ _ _ _
    by_cases hca : c = a
    · subst hca
      rw [Function.update_self, Function.update_apply, Function.update_apply,
        hh.contents c hc j hj]
      simp only [Nat.add_left_cancel_iff]
    · obtain ⟨k', hk', -, h1', h2'⟩ := (hlive c hc).byte hj
      have hkk : k' ≠ k := by
        rintro rfl
        exact Set.disjoint_left.mp (heapRun_apart hh.run hc ha hca) hk' hk
      have hne : c.pointer ≠ a.pointer := by
        intro heq
        have hpc := (hlive c hc).pointer_toNat
        have hpa := (hlive a ha).pointer_toNat
        rw [heq] at hpc
        have hsame : c.start = a.start := by omega
        have hmem : a.start ∈ a.run := ⟨Nat.le_refl _, by have := (hlive a ha).nonempty; omega⟩
        have hmem' : a.start ∈ c.run :=
          ⟨hsame.le, by have := (hlive c hc).nonempty; omega⟩
        exact Set.disjoint_left.mp (heapRun_apart hh.run hc ha hca) hmem' hmem
      rw [Function.update_of_ne (by omega), Function.update_of_ne hne]
      exact hh.contents c hc j hj
  · rw [← hh.outside x hx]
    exact Function.update_of_ne (by omega) _ _

/-- Over every run each live object holds what was last written to each of its bytes, whatever
is allocated, freed and written around it, and memory outside the heap is not touched. -/
theorem heap_holds_objects (run : ObjectRun window h o) : Holds window h o := by
  induction run with
  | start => exact ⟨.start window, fun a ha => absurd ha List.not_mem_nil, fun _ _ => rfl⟩
  | kmalloc _ amount ih => exact ih.kmalloc amount
  | kfree _ ha ih => exact ih.kfree ha
  | kfreeNull _ ih => exact ⟨ih.run.kfreeNull, ih.contents, ih.outside⟩
  | write _ ha hi b ih => exact ih.write ha hi b

end Objects

/-- The last byte of one object is written, and then the first one of the object behind it. -/
theorem heap_holds_objects_neighbours : ∃ h o, ObjectRun (fun _ => 0) h o ∧
    o.live = [⟨0xFFFF800000000030, 2⟩, ⟨0xFFFF800000000010, 2⟩] ∧ Holds (fun _ => 0) h o ∧
    h.window (0xFFFF800000000010 + 15) = 0xAB ∧ h.window 0xFFFF800000000030 = 0xCD := by
  have h1 : (kmalloc 16 emptyHeap).1 = 0xFFFF800000000010 := by decide +kernel
  have h2 : (kmalloc 16 (kmalloc 16 emptyHeap).2).1 = 0xFFFF800000000030 := by decide +kernel
  have hstart : ObjectRun (fun _ => 0) emptyHeap ⟨[], fun _ _ => 0⟩ := .start
  have hrun := (hstart.kmalloc 16).kmalloc 16
  rw [h1, h2] at hrun
  have hfirst := List.mem_cons_of_mem (⟨0xFFFF800000000030, 2⟩ : Allocation)
    (List.mem_singleton_self (⟨0xFFFF800000000010, 2⟩ : Allocation))
  have hsecond := List.mem_cons_self (a := (⟨0xFFFF800000000030, 2⟩ : Allocation))
    (l := [⟨0xFFFF800000000010, 2⟩])
  have hwritten := (hrun.write (i := 15) hfirst (by decide) 0xAB).write (i := 0) hsecond
    (by decide) 0xCD
  have hholds := heap_holds_objects hwritten
  refine ⟨_, _, hwritten, rfl, hholds, ?_, ?_⟩
  · exact (hholds.contents _ hfirst 15 (by decide)).trans (by decide)
  · exact (hholds.contents _ hsecond 0 (by decide)).trans (by decide)

end LucidiOS.Heap
