import LucidiOS.Heap.Objects
import LucidiOS.Heap.PagedHeap
import LucidiOS.Vmm.MemoryRuns

/-! The page allocator, the page tables and the heap in one memory. -/
namespace LucidiOS
open ByteMemory Paging Pmm

namespace Vmm
variable {start s : Kernel} {a : PagedMemory} {F : Set ℕ} {m n : Memory} {p : ℕ}

/-- Rewriting frames that hold neither tables nor the page bitmap. -/
theorem Sound.rewrite (h : Sound s) (hF : ∀ p ∈ F, ¬s.IsTable p ∧ ¬s.HoldsBitmap p)
    (hm : ∀ x, x / 4096 ∉ F → m x = s.mem x) :
    Sound { s with mem := m } ∧ (∀ t, ({ s with mem := m } : Kernel).IsTable t ↔ s.IsTable t) ∧
      (∀ v, walk m s.root v = walk s.mem s.root v) ∧
      ∀ q < 64 * s.bitmapLength.toNat, ({ s with mem := m } : Kernel).locked q = s.locked q := by
  have hlocked (q : ℕ) (hq : q < 64 * s.bitmapLength.toNat) :
      ({ s with mem := m } : Kernel).locked q = s.locked q :=
    bit_congr h.pmm.fits (fun x hx => hm x fun hc => (hF _ hc).2 hx) hq
  obtain ⟨hsound, htables, hwalk⟩ := h.congr (m := m)
    (fun x hx => hm x fun hc => (hF _ hc).1 hx)
    (fun t ht => by
      obtain ⟨hlt, hl⟩ := h.tree.locked t ht
      rw [hlocked t hlt, hl])
    (fun q hq hl => h.pmm.free q hq ((hlocked q hq) ▸ hl))
    (by
      have := h.length_pos
      rw [hlocked 0 (by omega), h.zero])
  exact ⟨hsound, htables, hwalk, hlocked⟩

theorem Reserved.rewrite (hstart : Sound start) (hF : ∀ p ∈ F, Reserved start p)
    (hn : ∀ x, x / 4096 ∉ F → n x = start.mem x) :
    Reserved { start with mem := n } p ↔ Reserved start p := by
  obtain ⟨-, htables, -, hlocked⟩ := hstart.rewrite (fun p hp => (hF p hp).2) hn
  unfold Reserved
  rw [htables p]
  refine and_congr_left fun _ => forall_congr' fun hp => ?_
  rw [hlocked p hp]

/-- What is not the memory manager's may change behind its back. -/
theorem Represents.rewrite (hstart : Sound start) (h : Represents start s a)
    (hF : ∀ p ∈ F, Reserved start p) (hm : ∀ x, x / 4096 ∉ F → m x = s.mem x)
    (hnm : ∀ x, x / 4096 ∈ F → n x = m x) (hn : ∀ x, x / 4096 ∉ F → n x = start.mem x) :
    Represents { start with mem := n } { s with mem := m } a := by
  obtain ⟨hsound, htables, hwalk, hlocked⟩ := h.sound.rewrite
    (fun p hp => ⟨(h.reserved_apart (hF p hp)).1, (h.reserved_apart (hF p hp)).2.1⟩) hm
  obtain ⟨-, hstables, -, hslocked⟩ := hstart.rewrite (fun p hp => (hF p hp).2) hn
  refine ⟨h.setup_mem m, hsound, fun v => (hwalk v).trans (h.translates v), h.distinct,
    fun p hp => ?_, fun x hx => ?_, fun q hq => ?_, fun t ht => ?_, fun x hx => ?_⟩
  · obtain ⟨hlt, hfree, htable, hbitmap⟩ := h.owned p hp
    exact ⟨hlt, (hslocked p (h.length_eq ▸ hlt)).trans hfree, (htables p).not.mpr htable, hbitmap⟩
  · exact (hm x fun hc => (h.reserved_apart (hF _ hc)).2.2 hx).trans (h.contents x hx)
  · rw [hlocked q hq, hslocked q (h.length_eq ▸ hq), h.accounts q hq, htables q]
  · have ht' := (htables t).mp ht
    rw [hstables t, hslocked t (h.length_eq ▸ (h.sound.tree.locked t ht').1)]
    exact h.tables t ht'
  · by_cases hxF : x / 4096 ∈ F
    · exact (hnm x hxF).symm
    · change m x = n x
      rw [hm x hxF, hn x hxF]
      exact h.reserved x ((Reserved.rewrite hstart hF hn).mp hx)

end Vmm

/-- The bytes that the page tables show. -/
def Kernel.shown (s : Kernel) : Memory := fun v =>
  ((translateAddr s.mem s.root (BitVec.ofNat 64 v)).map s.mem).getD 0

namespace Heap
open Vmm

/-- The pages of the heap, and those of the direct map. -/
def Fixed (start : Kernel) : Set ℕ :=
  {n | (∃ i < heapPages, n = pageNumber (heapPage i)) ∨
    ∃ p, start.Direct p ∧ n = pageNumber (start.directMap p)}

/-- Room for a request among the first blocks. -/
def HasSpace (s : Kernel) (amount : Word) : Prop :=
  ∃ k, k + (blocksFor amount).toNat ≤ firstBlocks ∧
    FirstFit.freeRun (fun q => !s.heapWords.bit s.mem q) k (blocksFor amount).toNat = true

/-- Every order of calls of the memory manager and of the heap, with stores of their clients.
Nobody maps a page of the heap or of the direct map anew, and the first blocks have room for what
the heap is asked for. -/
inductive KernelRun (start : Kernel) : Kernel → PagedMemory → ObjectStore → Prop
  | start : KernelRun start start (.initial start) ⟨[], fun _ _ => 0⟩
  | alloc {s : Kernel} {a : PagedMemory} {o : ObjectStore} (run : KernelRun start s a o) :
      KernelRun start { s with mem := (pmmAlloc2 s.pmm s.bitmapLength s.mem).2 }
        (a.returned (pmmAlloc2 s.pmm s.bitmapLength s.mem).1 s.mem) o
  | free {s : Kernel} {a : PagedMemory} {o : ObjectStore} {p : ℕ} (run : KernelRun start s a o)
      (hp : p ∈ a.held) :
      KernelRun start { s with mem := pmmFreePage s.pmm (BitVec.ofNat 64 p) s.mem } (a.drop p) o
  | map {s : Kernel} {a : PagedMemory} {o : ObjectStore} {virt physAddr : Word}
      {flags : BitVec 8} (run : KernelRun start s a o) (hvirt : pageNumber virt ∉ Fixed start)
      (hr : ∀ r ∈ (vmmAlloc virt physAddr flags s).2, r ≠ 0) :
      KernelRun start (vmmAlloc virt physAddr flags s).1
        (a.map virt ⟨0, pageEntry physAddr flags⟩) o
  | store {s : Kernel} {a : PagedMemory} {o : ObjectStore} {x : ℕ} {b : BitVec 8}
      (run : KernelRun start s a o) (hx : x / 4096 ∈ a.held) :
      KernelRun start { s with mem := Function.update s.mem x b } (a.store x b) o
  | kmalloc {s s' : Kernel} {a : PagedMemory} {o : ObjectStore} {amount p : Word}
      (run : KernelRun start s a o) (hspace : HasSpace s amount)
      (hcall : kmallocIn amount s = some (p, s')) :
      KernelRun start s' a (o.add p amount s'.shown)
  | kfree {s s' : Kernel} {a : PagedMemory} {o : ObjectStore} {c : Allocation}
      (run : KernelRun start s a o) (hc : c ∈ o.live) (hcall : kfreeIn c.pointer s = some s') :
      KernelRun start s' a (o.remove c)
  | write {s s' : Kernel} {a : PagedMemory} {o : ObjectStore} {c : Allocation} {i : ℕ}
      {b : BitVec 8} (run : KernelRun start s a o) (hc : c ∈ o.live) (hi : i < c.payload)
      (hcall : storeIn (c.pointer + BitVec.ofNat 64 i) b s = some s') :
      KernelRun start s' a (o.write c i b)

/-- The heap of `start` is empty and lies at `l`, in frames that are not the memory manager's. -/
structure HeapReady (l : Place) (start : Kernel) : Prop where
  sound : Sound start
  placed : Placed l start
  reserved : ∀ p ∈ l.frames, Reserved start p
  clear : ∀ q < firstBlocks, start.heapWords.bit start.mem q = false

/-- The memory manager shows `a`, and the frames of the heap hold the objects `o`. -/
structure Shares (l : Place) (start s : Kernel) (a : PagedMemory) (o : ObjectStore) : Prop where
  memory : ∃ n, (∀ x, x / 4096 ∉ l.frames → n x = start.mem x) ∧
    Represents { start with mem := n } s a
  pages : ∀ k ∈ Fixed start, a.pages k = (PagedMemory.initial start).pages k
  heap : ∃ window h, Stores l s h ∧ Holds window h o
  first : ∀ c ∈ o.live, c.start + c.blocks.toNat ≤ firstBlocks

section Shared
variable {l : Place} {start s s' : Kernel} {a a' : PagedMemory} {o o' : ObjectStore} {m : Memory}
  {h : KernelHeap} {window : Memory} {c : Allocation}

theorem HeapReady.apart (hr : HeapReady l start) (p : ℕ) (hp : p ∈ l.frames) :
    ¬start.IsTable p ∧ ¬start.HoldsBitmap p := (hr.reserved p hp).2

theorem heap_fixed {v : Word} {j : ℕ} (hj : j < 4096 * heapPages)
    (hv : v.toNat = heapVirtStart.toNat + j) : pageNumber v ∈ Fixed start := by
  have hstart := heapVirtStart_toNat
  have hi : j / 4096 < heapPages := by omega
  refine Or.inl ⟨j / 4096, hi, ?_⟩
  rw [pageNumber, pageNumber, hv, heapPage_toNat hi, hstart]
  omega

theorem Shares.setup (hs : Shares l start s a o) : s = { start with mem := s.mem } := by
  obtain ⟨n, -, hrep⟩ := hs.memory
  exact hrep.setup

theorem Shares.walk_fixed (hs : Shares l start s a o) {v : Word} (hv : pageNumber v ∈ Fixed start) :
    walk s.mem s.root v = walk start.mem start.root v := by
  obtain ⟨n, -, hrep⟩ := hs.memory
  rw [hrep.translates v, hs.pages _ hv, ← initial_pages start v]

theorem Shares.placed (hr : HeapReady l start) (hs : Shares l start s a o) : Placed l s := by
  obtain ⟨n, hn, hrep⟩ := hs.memory
  refine ⟨?_, hr.placed.low, fun v j hj hv => ?_, hr.placed.injective, hr.placed.apart,
    fun p hp => (hrep.reserved_apart
      ((Reserved.rewrite hr.sound hr.reserved hn).mpr (hr.reserved p hp))).1⟩
  · rw [hs.setup]
    exact hr.placed.bitmap
  · rw [translateAddr, hs.walk_fixed (heap_fixed hj hv)]
    exact hr.placed.translate v j hj hv

/-- A step of the memory manager leaves the frames of the heap alone. -/
theorem Shares.manager (hr : HeapReady l start) (hs : Shares l start s a o)
    (hstep : ∀ n, Sound { start with mem := n } → Represents { start with mem := n } s a →
      Represents { start with mem := n } s' a')
    (hpages : ∀ k ∈ Fixed start, a'.pages k = a.pages k) : Shares l start s' a' o := by
  obtain ⟨n, hn, hrep⟩ := hs.memory
  obtain ⟨window, h, hst, hholds⟩ := hs.heap
  have hrep' := hstep n (hr.sound.rewrite hr.apart hn).1 hrep
  have hsame (x : ℕ) (hx : x / 4096 ∈ l.frames) : s'.mem x = s.mem x := by
    have hres : Reserved { start with mem := n } (x / 4096) :=
      (Reserved.rewrite hr.sound hr.reserved hn).mpr (hr.reserved _ hx)
    exact (hrep'.reserved x hres).trans (hrep.reserved x hres).symm
  have hwords : s'.heapWords = s.heapWords := by
    rw [hs.setup, hrep'.setup]
    rfl
  refine ⟨⟨n, hn, hrep'⟩, fun k hk => (hpages k hk).trans (hs.pages k hk),
    ⟨window, h, ⟨fun q hq => ?_, fun j hj => ?_⟩, hholds⟩, hs.first⟩
  · rw [hwords, (hs.placed hr).bit_congr (fun x hx => hsame x (Or.inl hx)) hq]
    exact hst.bits q hq
  · have hle := firstBlocks_le
    rw [hsame _ (Placed.address_mem (by omega))]
    exact hst.bytes j hj

/-- A step of the heap leaves all other frames alone. -/
theorem Shares.heapStep (hr : HeapReady l start) (hs : Shares l start s a o)
    (hm : ∀ x, x / 4096 ∉ l.frames → m x = s.mem x) (hst : Stores l { s with mem := m } h)
    (hholds : Holds window h o') (hfirst : ∀ c ∈ o'.live, c.start + c.blocks.toNat ≤ firstBlocks) :
    Shares l start { s with mem := m } a o' := by
  classical
  obtain ⟨n, hn, hrep⟩ := hs.memory
  let n' : Memory := fun x => if x / 4096 ∈ l.frames then m x else n x
  have hn' (x : ℕ) (hx : x / 4096 ∉ l.frames) : n' x = n x := if_neg hx
  have hnm (x : ℕ) (hx : x / 4096 ∈ l.frames) : n' x = m x := if_pos hx
  have hrep' := Represents.rewrite (hr.sound.rewrite hr.apart hn).1 hrep
    (fun p hp => (Reserved.rewrite hr.sound hr.reserved hn).mpr (hr.reserved p hp)) hm hnm hn'
  exact ⟨⟨n', fun x hx => (hn' x hx).trans (hn x hx), hrep'⟩, hs.pages,
    ⟨window, h, hst, hholds⟩, hfirst⟩

theorem Holds.congr (hh : Holds window h o) (hlive : o'.live = o.live)
    (hsame : ∀ c ∈ o.live, ∀ i < c.payload, o'.contents c.pointer i = o.contents c.pointer i) :
    Holds window h o' := by
  refine ⟨hlive ▸ hh.run, fun c hc i hi => ?_, hh.outside⟩
  rw [hlive] at hc
  rw [hh.contents c hc i hi, hsame c hc i hi]

/-- A byte of an object is one of the first blocks. -/
theorem Allocation.Intact.offset (hc : c.Intact h) (hend : c.start + c.blocks.toNat ≤ firstBlocks)
    {i : ℕ} (hi : i < c.payload) :
    16 * (c.start + 1) + i < 16 * firstBlocks ∧
      c.pointer.toNat + i = heapVirtStart.toNat + (16 * (c.start + 1) + i) ∧
      (c.pointer + BitVec.ofNat 64 i).toNat = c.pointer.toNat + i := by
  have hptr := hc.pointer_toNat
  have hstart := heapVirtStart_toNat
  have hpos := hc.nonempty
  unfold Allocation.payload at hi
  unfold firstBlocks at hend ⊢
  refine ⟨by omega, by omega, ?_⟩
  rw [BitVec.toNat_add, BitVec.toNat_ofNat]
  omega

theorem Stores.shown (hp : Placed l s) (hst : Stores l s h) {j : ℕ} (hj : j < 16 * firstBlocks) :
    s.shown (heapVirtStart.toNat + j) = h.window (heapVirtStart.toNat + j) := by
  have hle := firstBlocks_le
  have hstart := heapVirtStart_toNat
  have hv : (BitVec.ofNat 64 (heapVirtStart.toNat + j)).toNat = heapVirtStart.toNat + j := by
    have hsize : 4096 * heapPages = 2097152 := rfl
    rw [BitVec.toNat_ofNat]
    omega
  rw [Kernel.shown, hp.translate _ j (by omega) hv, Option.map_some, Option.getD_some]
  exact hst.bytes j hj

theorem Shares.kmalloc (hr : HeapReady l start) (hs : Shares l start s a o) {amount p : Word}
    (hspace : HasSpace s amount) (hcall : kmallocIn amount s = some (p, s')) :
    Shares l start s' a (o.add p amount s'.shown) := by
  obtain ⟨window, h, hst, hh⟩ := hs.heap
  obtain ⟨k, hroom, hfree⟩ := hspace
  have hp := hs.placed hr
  obtain ⟨k, m, hend, hfit, heq, hm, hst'⟩ := kmallocIn_refines hp hst hroom hfree
  rw [hcall, Option.some.injEq, Prod.mk.injEq] at heq
  obtain ⟨rfl, rfl⟩ := heq
  have hholds := hh.kmalloc amount
  have hne := (kmalloc_takes hfit).ne_zero
  obtain ⟨hintact, hk, -⟩ := kmalloc_intact hfit
  have hlive : (o.add (Heap.kmalloc amount h).1 amount ({ s with mem := m } : Kernel).shown).live =
      ⟨(Heap.kmalloc amount h).1, blocksFor amount⟩ :: o.live := if_neg hne
  have hfirst : ∀ c ∈ (o.add (Heap.kmalloc amount h).1 amount
      ({ s with mem := m } : Kernel).shown).live, c.start + c.blocks.toNat ≤ firstBlocks := by
    intro c hc
    rw [hlive] at hc
    rcases List.mem_cons.mp hc with rfl | hc
    · exact hk ▸ hend
    · exact hs.first c hc
  refine hs.heapStep hr hm hst' (hholds.congr rfl fun c hc i hi => ?_) hfirst
  change Function.update o.contents _ _ _ _ = Function.update o.contents _ _ _ _
  by_cases hptr : c.pointer = (Heap.kmalloc amount h).1
  · have hc' := (heapRun_refines hholds.run).2 c hc
    obtain ⟨hlt, haddr, -⟩ := hc'.offset (hfirst c hc) hi
    rw [hptr, Function.update_self, Function.update_self, ← hptr, haddr]
    exact hst'.shown (hp.congr hm) hlt
  · rw [Function.update_of_ne hptr, Function.update_of_ne hptr]

theorem Shares.kfree (hr : HeapReady l start) (hs : Shares l start s a o) (hc : c ∈ o.live)
    (hcall : kfreeIn c.pointer s = some s') : Shares l start s' a (o.remove c) := by
  obtain ⟨window, h, hst, hh⟩ := hs.heap
  obtain ⟨m, heq, hm, hst'⟩ := kfreeIn_refines (hs.placed hr) hst
    ((heapRun_refines hh.run).2 c hc) (hs.first c hc)
  rw [hcall, Option.some.injEq] at heq
  subst heq
  exact hs.heapStep hr hm hst' (hh.kfree hc) fun d hd => hs.first d (List.mem_of_mem_erase hd)

theorem Shares.write (hr : HeapReady l start) (hs : Shares l start s a o) (hc : c ∈ o.live) {i : ℕ}
    (hi : i < c.payload) {b : BitVec 8}
    (hcall : storeIn (c.pointer + BitVec.ofNat 64 i) b s = some s') :
    Shares l start s' a (o.write c i b) := by
  obtain ⟨window, h, hst, hh⟩ := hs.heap
  obtain ⟨hlt, haddr, hv⟩ := ((heapRun_refines hh.run).2 c hc).offset (hs.first c hc) hi
  obtain ⟨heq, hm, hst'⟩ := storeIn_refines (hs.placed hr) hst hlt (hv.trans haddr) b
  rw [hcall, Option.some.injEq] at heq
  subst heq
  rw [← haddr] at hst'
  exact hs.heapStep hr hm hst' (hh.write hc hi b) hs.first

theorem HeapReady.shares (hr : HeapReady l start) :
    Shares l start start (.initial start) ⟨[], fun _ _ => 0⟩ := by
  let window : Memory := fun v => start.mem (l.address (v - heapVirtStart.toNat))
  refine ⟨⟨start.mem, fun _ _ => rfl, represents_initial hr.sound⟩, fun _ _ => rfl,
    ⟨window, ⟨fun _ => 0, window⟩, ⟨fun q hq => ?_, fun j _ => ?_⟩, ?_⟩,
    fun c hc => absurd hc List.not_mem_nil⟩
  · rw [hr.clear q hq]
    simp [KernelHeap.used, WordArray.bit, WordArray.standalone]
  · exact congrArg (fun k => start.mem (l.address k)) (Nat.add_sub_cancel_left _ _).symm
  · exact ⟨.start window, fun c hc => absurd hc List.not_mem_nil, fun _ _ => rfl⟩

theorem KernelRun.shares (hr : HeapReady l start) (run : KernelRun start s a o) :
    Shares l start s a o := by
  induction run with
  | start => exact hr.shares
  | alloc _ ih =>
    refine ih.manager hr (fun n hsound hrep => hrep.alloc hsound) fun k _ => ?_
    unfold PagedMemory.returned
    split_ifs <;> rfl
  | free _ hp ih =>
    exact ih.manager hr (fun n hsound hrep => hrep.free hsound hp) fun _ _ => rfl
  | map _ hvirt hres ih =>
    refine ih.manager hr (fun n _ hrep => hrep.map hres) fun k hk => Function.update_of_ne ?_ _ _
    rintro rfl
    exact hvirt hk
  | store _ hx ih => exact ih.manager hr (fun n hsound hrep => hrep.store hsound _ hx) fun _ _ => rfl
  | kmalloc _ hspace hcall ih => exact ih.kmalloc hr hspace hcall
  | kfree _ hc hcall ih => exact ih.kfree hr hc hcall
  | write _ hc hi hcall ih => exact ih.write hr hc hi hcall

end Shared
end Heap
end LucidiOS
