import LucidiOS.Boot.HeapFrames
import LucidiOS.Heap.SharedMemory

/-! The memory of the kernel from the end of boot on. -/
namespace LucidiOS.Boot
open ByteMemory Paging Pmm Vmm Heap

/-- Every page leads where it was mapped last, a frame has one owner and keeps its bytes, and an
object of the heap is found through the tables as it was written, in frames that nobody else has.
What is called for the heap does not fault, and the direct map stays. -/
structure Kept (start s : Kernel) (a : PagedMemory) (o : ObjectStore) : Prop where
  translates : ∀ v, walk s.mem s.root v = a.pages (pageNumber v)
  distinct : a.held.Nodup
  contents : ∀ x, x / 4096 ∈ a.held → s.mem x = a.bytes x
  objects : ∀ c ∈ o.live, ∀ i < c.payload, ∃ x,
    translateAddr s.mem s.root (c.pointer + BitVec.ofNat 64 i) = some x ∧
      s.mem x = o.contents c.pointer i ∧ x / 4096 ∉ a.held
  allocates : ∀ amount, HasSpace s amount → ∃ p s', kmallocIn amount s = some (p, s') ∧ p ≠ 0
  frees : ∀ c ∈ o.live, ∃ s', kfreeIn c.pointer s = some s'
  stores : ∀ c ∈ o.live, ∀ i < c.payload, ∀ b,
    ∃ s', storeIn (c.pointer + BitVec.ofNat 64 i) b s = some s'
  direct : ∀ p, start.Direct p → s.Direct p

section Shared
variable {l : Place} {start s : Kernel} {a : PagedMemory} {o : ObjectStore}

theorem kept_of_shares (hr : HeapReady l start) (hs : Shares l start s a o) : Kept start s a o := by
  obtain ⟨n, hn, hrep⟩ := hs.memory
  obtain ⟨window, h, hst, hh⟩ := hs.heap
  have hp := hs.placed hr
  have hle := firstBlocks_le
  have hlive := (heapRun_refines hh.run).2
  refine ⟨hrep.translates, hrep.distinct, hrep.contents, fun c hc i hi => ?_,
    fun amount hspace => ?_, fun c hc => ?_, fun c hc i hi b => ?_, fun p hdirect => ?_⟩
  · obtain ⟨hlt, haddr, hv⟩ := (hlive c hc).offset (hs.first c hc) hi
    refine ⟨_, hp.translate _ _ (by omega) (hv.trans haddr), ?_, fun hheld => ?_⟩
    · rw [hst.bytes _ hlt, ← haddr]
      exact hh.contents c hc i hi
    · have hmem : l.address (16 * (c.start + 1) + i) / 4096 ∈ l.frames :=
        Placed.address_mem (by omega)
      exact (hrep.reserved_apart ((Reserved.rewrite hr.sound hr.reserved hn).mpr
        (hr.reserved _ hmem))).2.2 hheld
  · obtain ⟨k, hroom, hfree⟩ := hspace
    obtain ⟨k, m, -, hfit, heq, -⟩ := kmallocIn_refines hp hst hroom hfree
    exact ⟨_, _, heq, (kmalloc_takes hfit).ne_zero⟩
  · obtain ⟨m, heq, -⟩ := kfreeIn_refines hp hst (hlive c hc) (hs.first c hc)
    exact ⟨_, heq⟩
  · obtain ⟨hlt, haddr, hv⟩ := (hlive c hc).offset (hs.first c hc) hi
    exact ⟨_, (storeIn_refines hp hst hlt (hv.trans haddr) b).1⟩
  · have hmap : s.directMap p = start.directMap p := by
      rw [hs.setup]
      rfl
    rw [Kernel.Direct, translateAddr, hmap, hs.walk_fixed (Or.inr ⟨p, hdirect, rfl⟩)]
    exact hdirect

end Shared

section Start
variable {map : List MemmapEntry} {ram : Set ℕ} {s : Kernel} {k : ℕ}

/-- The mapping sequence is a run of the memory manager. -/
theorem boot_represents (hs : Sound s)
    (hreg : ∀ k < bootCalls, (bootCall k (bootState s k)).Regular) (hk : k ≤ bootCalls) :
    ∃ a, Represents s (bootState s k) a := by
  induction k with
  | zero => exact ⟨_, represents_initial hs⟩
  | succ k ih =>
    obtain ⟨a, ha⟩ := ih (by omega)
    have hkernel : ∃ a, Represents s (bootCall k (bootState s k)).kernel a := by
      match k with
      | 0 | 1 => exact ⟨a, ha⟩
      | i + 2 => exact ⟨_, ha.alloc hs⟩
    obtain ⟨a, ha⟩ := hkernel
    have hcall := hreg k (by omega)
    exact ⟨_, ha.map (vmmAlloc_enough _ _ ha.sound.tree ha.sound.pmm hcall.small hcall.supplied)⟩

/-- What is left free by `init_bitmap_pmm` was free when it asked for the heap bitmap. -/
theorem AtBoot.heapBitmapFrame_ne_zero (h : AtBoot map ram s) (hheap : HeapBitmapApart map s)
    (hfree : (initBitmapPmm map s).freePages ≠ []) : heapBitmapFrame map s ≠ 0 := by
  obtain ⟨p, hp⟩ := List.exists_mem_of_ne_nil _ hfree
  obtain ⟨hlt, hclear⟩ := mem_freePages.mp hp
  rw [initBitmapPmm_bitmapLength] at hlt
  have hsc := scanned_le (buildBitmap map s).bitmapLength
  have hL := getBitmapLength_le map
  rw [← buildBitmap_bitmapLength map s] at hL
  rw [heapBitmapFrame, pmmAlloc2_eq]
  cases hfirst : (buildBitmap map s).pmm.firstClear (buildBitmap map s).mem
      (scanned (buildBitmap map s).bitmapLength) with
  | none =>
    have hlocked := initBitmapPmm_stays_locked h.limine h.room (fun q hq => (hheap q hq).2)
      (by omega) (WordArray.firstClear_eq_none.mp hfirst p hlt)
    rw [hclear] at hlocked
    contradiction
  | some q =>
    obtain ⟨hq, hqclear, -⟩ := WordArray.firstClear_eq_some.mp hfirst
    obtain ⟨-, hne, -⟩ := (buildBitmap_locked h.limine h.room s (by omega)).mp hqclear
    intro hzero
    have haddr := congrArg BitVec.toNat hzero
    rw [page_address_toNat (by omega)] at haddr
    exact hne (by simpa using haddr)

/-- The frame that `heap_bitmap_pointer` obtains is cleared and locked. -/
theorem AtBoot.heapBitmap (h : AtBoot map ram s) (hheap : HeapBitmapApart map s)
    (hgot : heapBitmapFrame map s ≠ 0) : ∃ f < 2 ^ 40,
      (initBitmapPmm map s).heapBitmapPhys = 4096 * f ∧
      f < 64 * (initBitmapPmm map s).bitmapLength.toNat ∧ (initBitmapPmm map s).locked f = true ∧
      Reserved (initBitmapPmm map s) f ∧ ∀ x, x / 4096 = f → (initBitmapPmm map s).mem x = 0 := by
  obtain ⟨f, hf, -, -, hphys, hmem⟩ := heapBitmapFrame_spec h.limine h.room s hgot
  have hsc := scanned_le (buildBitmap map s).bitmapLength
  have hhigh := h.higherHalf
  have hholds (p : ℕ) (h1 : f ≤ p) (h2 : p < f + 16) : (initBitmapPmm map s).HoldsHeapBitmap p := by
    unfold Kernel.HoldsHeapBitmap
    rw [hphys]
    omega
  have hinside (p : ℕ) (h1 : f ≤ p) (h2 : p < f + 16) :=
    h.inside p (h.usable p (hheap p (hholds p h1 h2)).1)
  have hwrap : 4096 * f + 8192 * 8 ≤ 2 ^ 64 := by
    obtain ⟨p, hp⟩ : ∃ p, p = f + 15 := ⟨_, rfl⟩
    have hlast := hinside p (by omega) (by omega)
    omega
  have hlow := hinside f le_rfl (by omega)
  obtain ⟨husable, hapart⟩ := hheap f (hholds f le_rfl (by omega))
  have hf' : f < 64 * (buildBitmap map s).bitmapLength.toNat := by omega
  have hlocked : (initBitmapPmm map s).locked f = true := by
    rw [initBitmapPmm_locked h.limine h.room hphys hmem hwrap (fun q hq => (hheap q hq).2) hf' hf',
      decide_eq_true rfl, Bool.or_true]
  refine ⟨f, by omega, hphys, initBitmapPmm_bitmapLength map s ▸ hf', hlocked,
    ⟨fun _ => hlocked, fun ht => ?_, hapart⟩, fun x hx => ?_⟩
  · exact (h.tables f ((h.isTable hheap).mp ht)).2.1 husable
  · obtain ⟨f', m, hphys', -, hfill⟩ := initBitmapPmm_cleared map s
    rw [hfill, fill, if_pos (by omega)]

theorem AtBoot.sound (h : AtBoot map ram s) (hheap : HeapBitmapApart map s)
    (hsmall : ∀ path, NoLarge s.mem s.root path)
    (hlength : 0 < (initBitmapPmm map s).bitmapLength.toNat) : Sound (initBitmapPmm map s) := by
  refine ⟨h.tree hheap, h.pmm hheap, fun path => h.noLarge hheap (hsmall path), ?_, hlength⟩
  by_contra hc
  exact (h.free_spec hheap (show 0 < 64 * _ by omega) (by simpa using hc)).2.1 rfl

end Start

section Boot
variable {map : List MemmapEntry} {ram : Set ℕ} {s t : Kernel} {a : PagedMemory}

/-- A page mapped by a small page is mapped byte by byte. -/
theorem translate_of_walk {m : Memory} {root : ℕ} {v w e : Word} (hw : walk m root w = some ⟨0, e⟩)
    (hpage : pageNumber v = pageNumber w) :
    translateAddr m root v = some (4096 * frame e + v.toNat % 4096) := by
  have hbytes : Leaf.bytes ⟨0, e⟩ = 4096 := rfl
  rw [walk, ← indices_eq_iff.mpr hpage] at hw
  rw [translateAddr, walk, hw, Option.map_some, Leaf.address, hbytes, Nat.mul_div_cancel_left _
    (by decide), Nat.mul_comm]

/-- A run of the memory manager that maps the heap to frames of its own, behind a cleared frame for
the bitmap. -/
theorem heapReady_of_represents {l : Place} (hrep : Represents s t a) (hlow : l.bitmap < 2 ^ 40)
    (hphys : s.heapBitmapPhys = 4096 * l.bitmap) (hbitmap : Reserved s l.bitmap)
    (hzero : ∀ x, x / 4096 = l.bitmap → s.mem x = 0)
    (hframes : ∀ i < heapPages, l.frame i ≠ l.bitmap ∧ Reserved t (l.frame i) ∧
      ∃ e, walk t.mem t.root (heapPage i) = some ⟨0, e⟩ ∧ frame e = l.frame i)
    (hdistinct : ∀ i < heapPages, ∀ j < heapPages, l.frame i = l.frame j → i = j)
    (hstays : t.locked l.bitmap = true) : HeapReady l t := by
  have hres : ∀ p ∈ l.frames, Reserved t p := by
    rintro p (rfl | ⟨i, hi, rfl⟩)
    · obtain ⟨htable, hapart, -⟩ := hrep.reserved_apart hbitmap
      exact ⟨fun _ => hstays, htable, hapart⟩
    · exact (hframes i hi).2.1
  have hplaced : Placed l t := by
    refine ⟨?_, hlow, fun v j hj hv => ?_, hdistinct, fun i hi => (hframes i hi).1,
      fun p hp => (hres p hp).2.1⟩
    · rw [hrep.setup]
      exact hphys
    · have hi : j / 4096 < heapPages := by omega
      have hstart := heapVirtStart_toNat
      obtain ⟨-, -, e, hw, he⟩ := hframes _ hi
      have hpage : pageNumber v = pageNumber (heapPage (j / 4096)) := by
        rw [pageNumber, pageNumber, hv, heapPage_toNat hi, hstart]
        omega
      rw [translate_of_walk hw hpage, Place.address, he]
      apply congrArg some
      omega
  refine ⟨hrep.sound, hplaced, hres, fun q hq => ?_⟩
  have hmem (x : ℕ) (hx : x / 4096 = l.bitmap) : t.mem x = (fun _ => 0 : Memory) x :=
    (hrep.reserved x (hx ▸ hbitmap)).trans (hzero x hx)
  rw [hplaced.bit_congr hmem hq, WordArray.bit]
  simp only [Kernel.heapWords, pointerArray]
  rw [load64_getLsbD _ _ _ (Nat.mod_lt q (by decide))]
  exact BitVec.getLsbD_zero

/-- When `kmain` has mapped the heap, this one is ready for use. -/
theorem AtBoot.heapReady (h : AtBoot map ram s) (hheap : HeapBitmapApart map s)
    (hsmall : ∀ path, NoLarge s.mem s.root path) (hrun : Orderly (initBitmapPmm map s))
    (hfree : ∀ i < heapPages, (bootState (initBitmapPmm map s) (i + 2)).freePages ≠ []) :
    ∃ l, HeapReady l (bootState (initBitmapPmm map s) bootCalls) := by
  have hb := h.before hheap
  have ho := bootState_owned hb hrun.regular hfree le_rfl
  have hcall (i : ℕ) (hi : i < heapPages) : i + 2 < bootCalls := by
    unfold bootCalls
    omega
  have hsc := scanned_le (initBitmapPmm map s).bitmapLength
  have hfirst := ho.free 0 (hcall 0 (by decide))
  obtain ⟨f, hlow, hphys, hf, hlocked, hreserved, hzero⟩ := h.heapBitmap hheap
    (h.heapBitmapFrame_ne_zero hheap (List.ne_nil_of_mem hfirst))
  have hsound := h.sound hheap hsmall (by have := (mem_freePages.mp hfirst).1; omega)
  obtain ⟨a, hrep⟩ := boot_represents hsound hrun.regular le_rfl
  refine ⟨⟨f, heapFrame (initBitmapPmm map s)⟩, heapReady_of_represents hrep hlow hphys hreserved
    hzero (fun i hi => ?_) (fun i hi j hj hsame => ?_) (ho.stays f hf hlocked)⟩
  · obtain ⟨hlt, hclear⟩ := mem_freePages.mp (ho.free i (hcall i hi))
    have hspec := h.free_spec hheap (by omega) hclear
    have hsmall := (hb.pmm.free _ (by omega) hclear).1
    refine ⟨fun hsame => ?_, ⟨fun _ => ho.locked i (hcall i hi), ho.noTable i (hcall i hi),
      (hrep.holdsBitmap_eq _).not.mpr hspec.2.2⟩, _, heapPage_walk hb hrun.regular (hcall i hi) le_rfl,
      ?_⟩
    · change heapFrame (initBitmapPmm map s) i = f at hsame
      rw [hsame, hlocked] at hclear
      exact Bool.noConfusion hclear
    · rw [pageEntry_frame, ho.alloc i (hcall i hi), frame, pageAddress,
        page_address_toNat (by omega)]
      change _ = heapFrame (initBitmapPmm map s) i
      omega
  · rcases Nat.lt_trichotomy i j with hlt | heq | hlt
    · exact absurd hsame (ho.distinct i j hlt (hcall j hj))
    · exact heq
    · exact absurd hsame.symm (ho.distinct j i hlt (hcall i hi))

/-- From the end of boot on the memory manager and the heap keep what their clients store, whatever
is called for whom in between. Boot is `madt_parsing`, `init_bitmap_pmm` and the mapping sequence. -/
theorem kernel_memory_kept {s₀ : Kernel} {rsdpPointer : Word} {n : ℕ} (h : AtBoot map ram s₀)
    (hmadt : Acpi.madtParsing rsdpPointer n s₀ = some s) (hheap : HeapBitmapApart map s)
    (hsmall : ∀ path, NoLarge s.mem s.root path) (hrun : Orderly (initBitmapPmm map s))
    (hfree : ∀ i < heapPages, (bootState (initBitmapPmm map s) (i + 2)).freePages ≠ [])
    {o : ObjectStore} (run : KernelRun (bootState (initBitmapPmm map s) bootCalls) t a o) :
    Kept (bootState (initBitmapPmm map s) bootCalls) t a o := by
  obtain ⟨l, hready⟩ := (h.madtParsing hmadt).heapReady hheap hsmall hrun hfree
  exact kept_of_shares hready (run.shares hready)

/-- The empty heap serves a first request. -/
theorem exists_allocated {l : Place} (hready : HeapReady l s) :
    ∃ t o, KernelRun s t (.initial s) o ∧ o.live ≠ [] := by
  have hspace : HasSpace s 16 := by
    refine ⟨0, by decide, FirstFit.freeRun_eq_true.mpr fun k hk => ?_⟩
    have hblocks : (blocksFor 16).toNat = 2 := by decide
    have hfirst : 2 ≤ firstBlocks := by decide
    rw [hready.clear (0 + k) (by omega)]
    rfl
  obtain ⟨p, t, hcall, hne⟩ := (kept_of_shares hready hready.shares).allocates 16 hspace
  refine ⟨t, _, KernelRun.start.kmalloc hspace hcall, ?_⟩
  rw [ObjectStore.add, holdPointer, if_neg hne]
  exact List.cons_ne_nil _ _

theorem kernel_memory_kept_bigMap : ∃ t a o,
    KernelRun (bootState (initBitmapPmm bigMap loaderKernel) bootCalls) t a o ∧ o.live ≠ [] ∧
      Kept (bootState (initBitmapPmm bigMap loaderKernel) bootCalls) t a o := by
  have hboot := loader_atBoot bigMap_range
  have hapart := loaderMap_apart bigMap_range
  have hmadt := Acpi.madtParsing_of_none (loaderKernel_noMadt 0) 0
  have hsmall (path : List (Fin 512)) : NoLarge loaderKernel.mem loaderKernel.root path :=
    loader_noLarge loaderKernel_holds path
  obtain ⟨l, hready⟩ := hboot.heapReady hapart hsmall bigMap_orderly bigMap_free
  obtain ⟨t, o, run, hlive⟩ := exists_allocated hready
  exact ⟨t, _, o, run, hlive,
    kernel_memory_kept hboot hmadt hapart hsmall bigMap_orderly bigMap_free run⟩

end Boot
end LucidiOS.Boot
