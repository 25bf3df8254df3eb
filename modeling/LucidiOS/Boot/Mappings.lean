import LucidiOS.Boot.Start

/-! Whether the direct map survives the mapping sequence. The heap starts at a fixed address, the
direct map where the bootloader has put it. -/
namespace LucidiOS.Boot
open ByteMemory Paging Pmm Vmm Heap

section Run
variable {ram : Set ℕ} {s t : Kernel} {k : ℕ}

/-- A call that maps the direct-map address of a page of the page bitmap redirects it. -/
theorem Reached.not_keeps (hr : Reached ram s k t) {i p : ℕ} (hb : t.HoldsBitmap p) (hp0 : p ≠ 0)
    (hpage : pageNumber (t.directMap p) = pageNumber (heapPage i)) : ¬(bootCall (i + 2) t).Keeps := by
  intro hkeeps
  have hl := bootCall_locked hr.tree hr.pmm (i + 2)
  have hdirect : (bootCall (i + 2) t).kernel.directMap p = t.directMap p :=
    (hr.lock hl).directMap_eq p |>.trans (hr.directMap_eq p).symm
  have hframe : frame (pmmAlloc2 t.pmm t.bitmapLength t.mem).1 = p :=
    hkeeps p (Or.inl ((hl.inUse p).mpr (Or.inl hb))) (hdirect ▸ hpage)
  rw [pmmAlloc2_eq] at hframe
  cases hf : t.pmm.firstClear t.mem (scanned t.bitmapLength) with
  | none =>
    have hzero : frame 0 = 0 := rfl
    simp only [hf, hzero] at hframe
    exact hp0 hframe.symm
  | some N =>
    obtain ⟨hN, hfree, -⟩ := WordArray.firstClear_eq_some.mp hf
    have hsc := scanned_le t.bitmapLength
    obtain ⟨hNlt, hapart⟩ := hr.pmm.free N (by omega) hfree
    rw [hf, frame, page_address_toNat (by omega)] at hframe
    apply hapart
    rw [show N = p by omega]
    exact hb

/-- A heap page that is no direct-map address of memory redirects nothing. -/
theorem Reached.keeps_of_apart (hr : Reached ram s k t) {i : ℕ}
    (hapart : ∀ p ∈ ram, pageNumber (s.directMap p) ≠ pageNumber (heapPage i)) :
    (bootCall (i + 2) t).Keeps := by
  have hr' := hr.lock (bootCall_locked hr.tree hr.pmm (i + 2))
  intro p hp hpage
  have hram : p ∈ ram := by
    rcases hp with hp | hp
    · exact hr'.inUse p hp
    · exact hr'.free p (List.mem_of_mem_take hp)
  rw [hr'.directMap_eq] at hpage
  exact absurd hpage (hapart p hram)

/-- A direct map that starts 2 MiB above the heap is out of the reach of the sequence. -/
theorem Reached.keeps_of_above (h : BeforeMapping ram s) (hr : Reached ram s k t)
    (habove : heapVirtStart.toNat + 4096 * heapPages ≤ s.gHhdmOffset.toNat) {i : ℕ}
    (hi : i < heapPages) : (bootCall (i + 2) t).Keeps := by
  have hstart := heapVirtStart_toNat
  apply hr.keeps_of_apart
  intro p hp hpage
  have hin := h.inside p hp
  rw [pageNumber, pageNumber, h.directMap_toNat hp, heapPage_toNat hi] at hpage
  omega

/-- A call leaves an intact direct map exactly when it finds one and keeps it. -/
theorem Reached.intact_iff (h : BeforeMapping ram s) (hr : Reached ram s k t) (hk : k < bootCalls)
    (hreg : (bootCall k t).Regular) :
    (bootCall k t).after.Intact ↔ t.Intact ∧ (bootCall k t).Keeps := by
  have hl := bootCall_locked hr.tree hr.pmm k
  have hr' := hr.lock hl
  have hiff (hin : t.Intact) : (bootCall k t).after.Intact ↔ (bootCall k t).Keeps :=
    MapCall.intact_iff hr'.tree hr'.pmm hreg (hr'.aligned h) (hl.intact.mpr hin)
      (hr.newTables_direct hk)
  have hbefore (hafter : (bootCall k t).after.Intact) : t.Intact := by
    intro p hp
    have hdirect := hafter p ((MapCall.after_inUse hr'.tree hr'.pmm hreg p).mpr
      (Or.inl ((hl.inUse p).mpr hp)))
    rw [MapCall.after_direct hr'.tree hr'.pmm hreg (hr'.aligned h)] at hdirect
    split_ifs at hdirect with hpage
    · -- the page that the call redirects was not redirected before
      refine hr.direct p (hr.inUse p hp) fun i hi => ?_
      rw [← hr'.directMap_eq, hpage]
      exact bootCall_virt_ne hi hk
    · exact (hl.direct p).mp hdirect
  exact ⟨fun hafter => ⟨hbefore hafter, (hiff (hbefore hafter)).mp hafter⟩,
    fun hin => (hiff hin.1).mpr hin.2⟩

/-- The direct map of the pages in use is intact after the first `n` calls exactly when every call
for a heap page among them keeps it. -/
theorem bootMappings_intact (h : BeforeMapping ram s) {n : ℕ} (hn : n ≤ bootCalls)
    (hreg : ∀ k < n, (bootCall k (bootState s k)).Regular) :
    (bootState s n).Intact ↔
      ∀ i, i + 2 < n → (bootCall (i + 2) (bootState s (i + 2))).Keeps := by
  have hstep (k : ℕ) (hk : k < n) : (bootState s (k + 1)).Intact ↔
      (bootState s k).Intact ∧ (bootCall k (bootState s k)).Keeps :=
    (bootState_reached h hreg hk.le).intact_iff h (by omega) (hreg k hk)
  suffices hall : ∀ k ≤ n, (bootState s k).Intact ↔
      ∀ i, i + 2 < k → (bootCall (i + 2) (bootState s (i + 2))).Keeps from hall n le_rfl
  intro k hk
  induction k with
  | zero => exact iff_of_true (fun p hp => h.direct p (h.inUse p hp)) (by simp)
  | succ k ih =>
    by_cases hk2 : k < 2
    · have hr := bootState_reached h hreg hk
      exact iff_of_true (fun p hp => hr.direct p (hr.inUse p hp) fun i hi => by omega)
        fun i hi => by omega
    · obtain ⟨j, rfl⟩ : ∃ j, k = j + 2 := ⟨k - 2, by omega⟩
      rw [hstep _ hk, ih (by omega)]
      constructor
      · rintro ⟨hold, hnew⟩ i hi
        obtain rfl | hlt : i = j ∨ i < j := by omega
        · exact hnew
        · exact hold i (by omega)
      · intro hall
        exact ⟨fun i hi => hall i (by omega), hall j (by omega)⟩

end Run

section Collision

/-- The map of a machine with 1 GiB of which the first 2 MiB but for their last page are not
reported and the last 4 MiB hold the loader's tables. -/
def map1G : List MemmapEntry := [⟨0x1FF000, 0x3FA01000, 0⟩, ⟨0x3FC00000, 0x400000, 5⟩]

/-- The state in which its mapping sequence starts. -/
def collidingKernel : Kernel := initBitmapPmm map1G loaderKernel

theorem map1G_eq : map1G = loaderMap 511 260609 := by decide

theorem map1G_range : LoaderRange 511 260609 := ⟨by decide, by decide, by decide, by decide⟩

/-- Its memory is the pages 511 to 262143. -/
theorem collidingKernel_before :
    BeforeMapping {p | 511 ≤ p ∧ p < 262144} collidingKernel := by
  rw [collidingKernel, map1G_eq]
  exact (loader_atBoot map1G_range).before (loaderMap_apart map1G_range)

theorem collidingKernel_hhdm : collidingKernel.gHhdmOffset = 0xFFFF800000000000 :=
  (initBitmapPmm_kept map1G loaderKernel).1

theorem collidingKernel_holdsBitmap : collidingKernel.HoldsBitmap 511 := by
  rw [collidingKernel, map1G_eq, initBitmapPmm_holdsBitmap, (loaderMap_bitmap map1G_range).2]
  decide

theorem collidingKernel_ready {k : ℕ} (hk : k ≤ bootCalls) :
    Ready {p | 511 ≤ p ∧ p < 262144} collidingKernel k (bootState collidingKernel k) := by
  have hbefore := collidingKernel_before
  rw [collidingKernel, map1G_eq] at hbefore ⊢
  exact bootState_ready hbefore (loader_init_noLarge map1G_range)
    (loader_init_supplied map1G_range (by decide) (by decide)) hk

theorem bootMappings_intact_colliding :
    (bootState collidingKernel bootCalls).Intact ↔ ∀ i, i + 2 < bootCalls →
      (bootCall (i + 2) (bootState collidingKernel (i + 2))).Keeps :=
  bootMappings_intact collidingKernel_before le_rfl
    fun _ hk => (collidingKernel_ready hk.le).regular hk

/-- With the direct map at the address of the heap and the page bitmap in page 511, the last call
redirects the bitmap's own direct-map address to a heap frame. -/
theorem directMap_lost : BeforeMapping {p | 511 ≤ p ∧ p < 262144} collidingKernel ∧
    collidingKernel.gHhdmOffset = 0xFFFF800000000000 ∧
    (bootState collidingKernel (bootCalls - 1)).Intact ∧
    ¬(bootState collidingKernel bootCalls).Intact := by
  have hhhdm : collidingKernel.gHhdmOffset.toNat = 0xFFFF800000000000 := by
    rw [collidingKernel_hhdm]
    rfl
  have hstart := heapVirtStart_toNat
  have hlast : bootCalls - 1 = 511 + 2 := rfl
  have hcalls : bootCalls = 511 + 2 + 1 := rfl
  have hready := collidingKernel_ready (show 511 + 2 ≤ bootCalls by decide)
  refine ⟨collidingKernel_before, collidingKernel_hhdm, fun p hp => ?_, fun hin => ?_⟩
  · -- a page in use is not below page 511, and only these are redirected before the last call
    rw [hlast] at hp ⊢
    have hram := hready.inUse p hp
    refine hready.direct p hram fun i hi => ?_
    have hi' : i < heapPages := by
      unfold heapPages
      omega
    rw [pageNumber, pageNumber, collidingKernel_before.directMap_toNat hram, hhhdm,
      heapPage_toNat hi', hstart]
    obtain ⟨h1, h2⟩ := hram
    omega
  · rw [hcalls, bootState] at hin
    have hkeeps := ((hready.toReached.intact_iff collidingKernel_before (by decide)
      (hready.regular (by decide))).mp hin).2
    have hram : 511 ∈ {p | 511 ≤ p ∧ p < 262144} := ⟨by decide, by decide⟩
    refine hready.toReached.not_keeps (p := 511) ?_ (by decide) ?_ hkeeps
    · rw [(bitmaps_congr hready.setup 511).1]
      exact collidingKernel_holdsBitmap
    · rw [hready.toReached.directMap_eq, pageNumber, pageNumber,
        collidingKernel_before.directMap_toNat hram, hhhdm, heapPage_toNat (by decide), hstart]

end Collision

end LucidiOS.Boot
