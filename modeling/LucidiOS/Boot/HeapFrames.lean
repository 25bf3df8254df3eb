import LucidiOS.Boot.Mappings

/-! The frames behind the heap. `kmain` does not test whether `pmm_alloc2` has found one. -/
namespace LucidiOS.Boot
open ByteMemory Paging Pmm Vmm Heap

/-- What `pmm_alloc2` returns for heap page `i`. -/
def heapAlloc (s : Kernel) (i : ℕ) : Word :=
  let t := bootState s (i + 2)
  (pmmAlloc2 t.pmm t.bitmapLength t.mem).1

/-- Every heap page has a usable frame of its own, neither page 0 nor one in use for paging. -/
structure HeapMapped (map : List MemmapEntry) (t : Kernel) : Prop where
  frames : ∀ i < heapPages, ∃ p, translateAddr t.mem t.root (heapPage i) = some (4096 * p) ∧
    InUsable map p ∧ p ≠ 0 ∧ ¬t.IsTable p ∧ ¬t.HoldsBitmap p
  distinct : ∀ i < heapPages, ∀ j < heapPages, i ≠ j →
    translateAddr t.mem t.root (heapPage i) ≠ translateAddr t.mem t.root (heapPage j)

/-- No call of the sequence meets a large page, lacks a page for a table or redirects the direct
map of a page in use, so that the kernel's pointers lead where they should throughout. -/
structure Orderly (s : Kernel) : Prop where
  regular : ∀ k < bootCalls, (bootCall k (bootState s k)).Regular
  keeps : ∀ i < heapPages, (bootCall (i + 2) (bootState s (i + 2))).Keeps

/-- The page that heap page `i` gets; 0 if there was none. -/
def heapFrame (s : Kernel) (i : ℕ) : ℕ := pageOf (heapAlloc s i)

/-- The frames of the heap pages mapped by the first `k` calls are different, were free before the
sequence, and are now locked and no tables. -/
structure Owned (s : Kernel) (k : ℕ) : Prop where
  stays : ∀ q < 64 * s.bitmapLength.toNat, s.locked q = true → (bootState s k).locked q = true
  free : ∀ i, i + 2 < k → heapFrame s i ∈ s.freePages
  alloc : ∀ i, i + 2 < k → heapAlloc s i = pageAddress (heapFrame s i)
  locked : ∀ i, i + 2 < k → (bootState s k).locked (heapFrame s i) = true
  noTable : ∀ i, i + 2 < k → ¬(bootState s k).IsTable (heapFrame s i)
  distinct : ∀ i j, i < j → j + 2 < k → heapFrame s i ≠ heapFrame s j

section Walks
variable {ram : Set ℕ} {s t : Kernel} {i k n : ℕ}

/-- A heap page stays mapped to what its call has mapped it to. -/
theorem heapPage_walk (h : BeforeMapping ram s)
    (hreg : ∀ k < bootCalls, (bootCall k (bootState s k)).Regular) (hi : i + 2 < k)
    (hk : k ≤ bootCalls) : walk (bootState s k).mem (bootState s k).root (heapPage i) =
      some ⟨0, pageEntry (heapAlloc s i) 0x03⟩ := by
  induction k with
  | zero => omega
  | succ k ih =>
    have hr := bootState_reached h hreg (show k ≤ bootCalls by omega)
    have hl := bootCall_locked hr.tree hr.pmm k
    have hmaps := MapCall.maps hl.tree hl.pmm (hreg k (by omega))
    obtain rfl | hlt : i + 2 = k ∨ i + 2 < k := by omega
    · exact hmaps.walk_virt
    · have hne := bootCall_virt_ne (t := bootState s k) hlt (by omega)
      calc walk (bootState s (k + 1)).mem (bootState s (k + 1)).root (heapPage i)
          = walk (bootCall k (bootState s k)).kernel.mem (bootCall k (bootState s k)).kernel.root
              (heapPage i) := hmaps.walk_other _ hne.symm
        _ = walk (bootState s k).mem (bootState s k).root (heapPage i) := hl.walk _
        _ = some ⟨0, pageEntry (heapAlloc s i) 0x03⟩ := ih hlt (by omega)

theorem heapPage_translate (hi : i < heapPages) {a : Word}
    (hw : walk t.mem t.root (heapPage i) = some ⟨0, pageEntry a 0x03⟩) :
    translateAddr t.mem t.root (heapPage i) = some (4096 * frame a) := by
  have hstart := heapVirtStart_toNat
  have hbytes : Leaf.bytes ⟨0, pageEntry a 0x03⟩ = 4096 := rfl
  have hoffset : (heapPage i).toNat % 4096 = 0 := by
    rw [heapPage_toNat hi, hstart]
    omega
  rw [translateAddr, hw, Option.map_some, Leaf.address, hbytes, hoffset, pageEntry_frame]
  apply congrArg some
  omega

end Walks

section Frames
variable {ram : Set ℕ} {s t : Kernel} {i k : ℕ}

theorem Reached.call_stays_locked (hr : Reached ram s k t) (hreg : (bootCall k t).Regular) {q : ℕ}
    (hq : q < 64 * t.bitmapLength.toNat) (hlocked : t.locked q = true) :
    (bootCall k t).after.locked q = true := by
  have hl := bootCall_locked hr.tree hr.pmm k
  have hmaps := MapCall.maps hl.tree hl.pmm hreg
  have hlen : (bootCall k t).kernel.bitmapLength = t.bitmapLength := by rw [hl.setup]
  rw [hmaps.locked q (by rw [hlen]; exact hq), bootCall_stays_locked hr.tree hr.pmm k hq hlocked,
    Bool.true_or]

/-- What is locked and no table before the store of a call is so after it. -/
theorem Reached.call_keeps (hr : Reached ram s k t) (hreg : (bootCall k t).Regular) {q : ℕ}
    (hq : q < 64 * t.bitmapLength.toNat) (hlocked : (bootCall k t).kernel.locked q = true)
    (hnot : ¬t.IsTable q) :
    (bootCall k t).after.locked q = true ∧ ¬(bootCall k t).after.IsTable q := by
  have hl := bootCall_locked hr.tree hr.pmm k
  have hmaps := MapCall.maps hl.tree hl.pmm hreg
  have hlen : (bootCall k t).kernel.bitmapLength = t.bitmapLength := by rw [hl.setup]
  constructor
  · rw [hmaps.locked q (by rw [hlen]; exact hq), hlocked, Bool.true_or]
  · intro htable
    rcases hmaps.tables q htable with hold | hnew
    · exact hnot ((bootCall_isTable hr.tree hr.pmm k q).mp hold)
    · have hfree := (hmaps.fresh q hnew).2
      rw [hlocked] at hfree
      exact Bool.noConfusion hfree

/-- A heap page gets the first free page, which is locked for it. -/
theorem heapFrame_spec (hr : Reached ram s (i + 2) (bootState s (i + 2)))
    (hfree : (bootState s (i + 2)).freePages ≠ []) :
    heapFrame s i ∈ (bootState s (i + 2)).freePages ∧
      heapAlloc s i = pageAddress (heapFrame s i) ∧
      (bootCall (i + 2) (bootState s (i + 2))).kernel.locked (heapFrame s i) = true := by
  obtain ⟨p, hp⟩ := List.exists_mem_of_ne_nil _ hfree
  have halloc : (pmmAlloc2 (bootState s (i + 2)).pmm (bootState s (i + 2)).bitmapLength
      (bootState s (i + 2)).mem).1 = heapAlloc s i := rfl
  have hkernel : (bootCall (i + 2) (bootState s (i + 2))).kernel =
      { bootState s (i + 2) with mem := (pmmAlloc2 (bootState s (i + 2)).pmm
        (bootState s (i + 2)).bitmapLength (bootState s (i + 2)).mem).2 } := rfl
  rw [hkernel]
  generalize bootState s (i + 2) = t at hr hp halloc ⊢
  rw [mem_freePages] at hp
  have hsc := scanned_le t.bitmapLength
  have heq := pmmAlloc2_eq t.pmm t.bitmapLength t.mem
  cases hfirst : t.pmm.firstClear t.mem (scanned t.bitmapLength) with
  | none =>
    have := WordArray.firstClear_eq_none.mp hfirst p hp.1
    have hclear : t.pmm.bit t.mem p = false := hp.2
    rw [hclear] at this
    contradiction
  | some N =>
    obtain ⟨hN, hclear, -⟩ := WordArray.firstClear_eq_some.mp hfirst
    have hmem : N ∈ t.freePages := mem_freePages.mpr ⟨hN, hclear⟩
    rw [hfirst] at heq
    have hpage : heapAlloc s i = pageAddress N := by
      rw [← halloc, heq]
      rfl
    have hframe : heapFrame s i = N := by
      rw [heapFrame, hpage]
      exact pageOf_pageAddress hr.pmm hmem
    rw [hframe]
    refine ⟨hmem, hpage, ?_⟩
    rw [heq]
    change t.pmm.bit (t.pmm.setBit N t.mem) N = true
    rw [bit_setBit hr.pmm.fits t.mem (by omega) (by omega)]
    simp

theorem Owned.start (s : Kernel) : Owned s 0 := by
  constructor
  · exact fun q _ h => h
  all_goals
    intros
    omega

/-- What is free was free before the sequence. -/
theorem Owned.free_before (ho : Owned s k) (hr : Reached ram s k (bootState s k)) {q : ℕ}
    (hq : q ∈ (bootState s k).freePages) : q ∈ s.freePages := by
  have hlen : (bootState s k).bitmapLength = s.bitmapLength := by rw [hr.setup]
  have hsc := scanned_le s.bitmapLength
  rw [mem_freePages, hlen] at hq
  rw [mem_freePages]
  refine ⟨hq.1, ?_⟩
  by_contra hc
  have hlocked := ho.stays q (by omega) (by simpa using hc)
  rw [hq.2] at hlocked
  contradiction

/-- The call for heap page `i` takes its frame. -/
theorem Reached.frame_taken (hr : Reached ram s (i + 2) (bootState s (i + 2)))
    (hreg : (bootCall (i + 2) (bootState s (i + 2))).Regular)
    (hfree : (bootState s (i + 2)).freePages ≠ []) :
    (bootState s (i + 2 + 1)).locked (heapFrame s i) = true ∧
      ¬(bootState s (i + 2 + 1)).IsTable (heapFrame s i) := by
  obtain ⟨hmem, -, hlocked⟩ := heapFrame_spec hr hfree
  have hsc := scanned_le (bootState s (i + 2)).bitmapLength
  obtain ⟨hlt, hclear⟩ := mem_freePages.mp hmem
  apply hr.call_keeps hreg (by omega) hlocked
  intro htable
  rw [(hr.tree.locked _ htable).2] at hclear
  contradiction

/-- Later calls leave it alone. -/
theorem Owned.frame_kept (ho : Owned s k) (hr : Reached ram s k (bootState s k))
    (hreg : (bootCall k (bootState s k)).Regular) (hi : i + 2 < k) :
    (bootState s (k + 1)).locked (heapFrame s i) = true ∧
      ¬(bootState s (k + 1)).IsTable (heapFrame s i) := by
  have hlen : (bootState s k).bitmapLength = s.bitmapLength := by rw [hr.setup]
  have hsc := scanned_le s.bitmapLength
  have hlt := (mem_freePages.mp (ho.free i hi)).1
  have hq : heapFrame s i < 64 * (bootState s k).bitmapLength.toNat := by
    rw [hlen]
    omega
  exact hr.call_keeps hreg hq (bootCall_stays_locked hr.tree hr.pmm k hq (ho.locked i hi))
    (ho.noTable i hi)

/-- A call keeps the frames of the heap apart, if it finds a free page for its own. -/
theorem Owned.step (h : BeforeMapping ram s)
    (hreg : ∀ k < bootCalls, (bootCall k (bootState s k)).Regular) (hk : k < bootCalls)
    (hfree : ∀ i, i + 2 = k → (bootState s k).freePages ≠ []) (ho : Owned s k) :
    Owned s (k + 1) := by
  have hr := bootState_reached h hreg hk.le
  have hcases (i : ℕ) (hi : i + 2 < k + 1) : i + 2 = k ∨ i + 2 < k := by omega
  constructor
  · intro q hq hlocked
    have hlen : (bootState s k).bitmapLength = s.bitmapLength := by rw [hr.setup]
    exact hr.call_stays_locked (hreg k hk) (by rw [hlen]; exact hq) (ho.stays q hq hlocked)
  · intro i hi
    obtain rfl | hlt := hcases i hi
    · exact ho.free_before hr (heapFrame_spec hr (hfree i rfl)).1
    · exact ho.free i hlt
  · intro i hi
    obtain rfl | hlt := hcases i hi
    · exact (heapFrame_spec hr (hfree i rfl)).2.1
    · exact ho.alloc i hlt
  · intro i hi
    obtain rfl | hlt := hcases i hi
    · exact (hr.frame_taken (hreg _ hk) (hfree i rfl)).1
    · exact (ho.frame_kept hr (hreg k hk) hlt).1
  · intro i hi
    obtain rfl | hlt := hcases i hi
    · exact (hr.frame_taken (hreg _ hk) (hfree i rfl)).2
    · exact (ho.frame_kept hr (hreg k hk) hlt).2
  · intro i j hij hj hsame
    obtain rfl | hlt := hcases j hj
    · -- the earlier frame is locked, the one taken now was free
      have hclear := (mem_freePages.mp (heapFrame_spec hr (hfree j rfl)).1).2
      rw [← hsame, ho.locked i (by omega)] at hclear
      contradiction
    · exact ho.distinct i j hij hlt hsame

/-- As long as there are free pages the heap gets frames of its own. -/
theorem bootState_owned (h : BeforeMapping ram s)
    (hreg : ∀ k < bootCalls, (bootCall k (bootState s k)).Regular)
    (hfree : ∀ i < heapPages, (bootState s (i + 2)).freePages ≠ []) (hk : k ≤ bootCalls) :
    Owned s k := by
  induction k with
  | zero => exact .start s
  | succ k ih =>
    apply (ih (by omega)).step h hreg (by omega)
    rintro i rfl
    apply hfree
    unfold bootCalls at hk
    omega

end Frames

section Mapped
variable {map : List MemmapEntry} {ram : Set ℕ} {s : Kernel} {i : ℕ}

theorem heapAlloc_of_full (h : (bootState s (i + 2)).freePages = []) : heapAlloc s i = 0 := by
  have hnone : (bootState s (i + 2)).pmm.firstClear (bootState s (i + 2)).mem
      (scanned (bootState s (i + 2)).bitmapLength) = none := by
    rw [WordArray.firstClear_eq_none]
    intro p hp
    by_contra hc
    have hmem : p ∈ (bootState s (i + 2)).freePages :=
      mem_freePages.mpr ⟨hp, (Bool.not_eq_true _).mp hc⟩
    rw [h] at hmem
    contradiction
  rw [heapAlloc, pmmAlloc2_eq, hnone]

/-- A heap page for which there is no free page is mapped to page 0. -/
theorem heapPage_of_full (h : BeforeMapping ram s)
    (hreg : ∀ k < bootCalls, (bootCall k (bootState s k)).Regular) (hi : i < heapPages)
    (hfull : (bootState s (i + 2)).freePages = []) :
    translateAddr (bootState s bootCalls).mem (bootState s bootCalls).root (heapPage i) =
      some 0 := by
  have hw := heapPage_walk h hreg (show i + 2 < bootCalls by unfold bootCalls; omega) le_rfl
  have hzero : frame 0 = 0 := rfl
  rw [heapPage_translate hi hw, heapAlloc_of_full hfull, hzero]

theorem HeapMapped.ne_zero {t : Kernel} (h : HeapMapped map t) (hi : i < heapPages) :
    translateAddr t.mem t.root (heapPage i) ≠ some 0 := by
  intro hzero
  obtain ⟨p, htranslate, -, hp0, -⟩ := h.frames i hi
  rw [hzero, Option.some.injEq] at htranslate
  omega

/-- At the end heap page `i` leads to its frame. -/
theorem Owned.translate (h : BeforeMapping ram s)
    (hreg : ∀ k < bootCalls, (bootCall k (bootState s k)).Regular) (ho : Owned s bootCalls)
    (hi : i + 2 < bootCalls) : translateAddr (bootState s bootCalls).mem
      (bootState s bootCalls).root (heapPage i) = some (4096 * heapFrame s i) := by
  have hsc := scanned_le s.bitmapLength
  obtain ⟨hlt, hclear⟩ := mem_freePages.mp (ho.free i hi)
  have hsmall := (h.pmm.free _ (by omega) hclear).1
  have hframe : frame (heapAlloc s i) = heapFrame s i := by
    rw [ho.alloc i hi, frame, pageAddress, page_address_toNat (by omega)]
    omega
  rw [← hframe]
  apply heapPage_translate
  · unfold bootCalls at hi
    omega
  · exact heapPage_walk h hreg hi le_rfl

theorem AtBoot.heapMapped (h : AtBoot map ram s) (hheap : HeapBitmapApart map s)
    (hreg : ∀ k < bootCalls,
      (bootCall k (bootState (initBitmapPmm map s) k)).Regular)
    (hfree : ∀ i < heapPages, (bootState (initBitmapPmm map s) (i + 2)).freePages ≠ []) :
    HeapMapped map (bootState (initBitmapPmm map s) bootCalls) := by
  have hb := h.before hheap
  have ho := bootState_owned hb hreg hfree (le_refl bootCalls)
  have hr := bootState_reached hb hreg (le_refl bootCalls)
  have hsc := scanned_le (initBitmapPmm map s).bitmapLength
  have hcall (i : ℕ) (hi : i < heapPages) : i + 2 < bootCalls := by
    unfold bootCalls
    omega
  constructor
  · intro i hi
    obtain ⟨hlt, hclear⟩ := mem_freePages.mp (ho.free i (hcall i hi))
    obtain ⟨hin, hne, hnot⟩ := h.free_spec hheap (by omega) hclear
    refine ⟨_, ho.translate hb hreg (hcall i hi), hin, hne, ho.noTable i (hcall i hi), ?_⟩
    rw [(bitmaps_congr hr.setup _).1]
    exact hnot
  · intro i hi j hj hne hsame
    rw [ho.translate hb hreg (hcall i hi), ho.translate hb hreg (hcall j hj),
      Option.some.injEq] at hsame
    rcases Nat.lt_or_gt_of_ne hne with hlt | hlt
    · exact ho.distinct i j hlt (hcall j hj) (by omega)
    · exact ho.distinct j i hlt (hcall i hi) (by omega)

/-- The heap has frames of its own exactly when each of its pages found a free one. -/
theorem heapMapped_iff (h : AtBoot map ram s) (hheap : HeapBitmapApart map s)
    (hrun : Orderly (initBitmapPmm map s)) :
    HeapMapped map (bootState (initBitmapPmm map s) bootCalls) ↔
      ∀ i < heapPages, (bootState (initBitmapPmm map s) (i + 2)).freePages ≠ [] := by
  constructor
  · intro hmapped i hi hfull
    exact hmapped.ne_zero hi (heapPage_of_full (h.before hheap) hrun.regular hi hfull)
  · exact h.heapMapped hheap hrun.regular

/-- With fewer free pages than the heap has pages one of these finds none. -/
theorem exists_full (h : BeforeMapping ram s)
    (hreg : ∀ k < bootCalls, (bootCall k (bootState s k)).Regular) {F : Finset ℕ}
    (hF : ∀ p ∈ s.freePages, p ∈ F) (hcard : F.card < heapPages) :
    ∃ i < heapPages, (bootState s (i + 2)).freePages = [] := by
  by_contra hc
  push Not at hc
  have ho := bootState_owned h hreg hc le_rfl
  have hcall (i : ℕ) (hi : i ∈ Finset.range heapPages) : i + 2 < bootCalls := by
    rw [Finset.mem_range] at hi
    unfold bootCalls
    omega
  have hle : (Finset.range heapPages).card ≤ F.card := by
    apply Finset.card_le_card_of_injOn (heapFrame s)
    · intro i hi
      exact hF _ (ho.free i (hcall i hi))
    · intro i hi j hj hsame
      by_contra hne
      rcases Nat.lt_or_gt_of_ne hne with hlt | hlt
      · exact ho.distinct i j hlt (hcall j hj) hsame
      · exact ho.distinct j i hlt (hcall i hi) hsame.symm
  rw [Finset.card_range] at hle
  omega

end Mapped

section Machines
variable {n : ℕ}

/-- Memory from 2 MiB on keeps out of the way of the heap. -/
theorem loader_orderly (h : LoaderRange 512 n)
    (hreg : ∀ k < bootCalls, (bootCall k (bootState
      (initBitmapPmm (loaderMap 512 n) loaderKernel) k)).Regular) :
    Orderly (initBitmapPmm (loaderMap 512 n) loaderKernel) := by
  have hbefore := (loader_atBoot h).before (loaderMap_apart h)
  have hhhdm : (initBitmapPmm (loaderMap 512 n) loaderKernel).gHhdmOffset.toNat =
      0xFFFF800000000000 := by
    rw [(initBitmapPmm_kept (loaderMap 512 n) loaderKernel).1]
    rfl
  have hstart := heapVirtStart_toNat
  refine ⟨hreg, fun i hi => ?_⟩
  have hr := bootState_reached hbefore hreg (show i + 2 ≤ bootCalls by unfold bootCalls; omega)
  apply hr.keeps_of_apart
  intro p hp hpage
  rw [pageNumber, pageNumber, hbefore.directMap_toNat hp, hhhdm, heapPage_toNat hi, hstart] at hpage
  obtain ⟨h1, h2⟩ := hp
  unfold heapPages at hi
  omega

theorem loader_regular (h : LoaderRange 512 n) (hn : 17 ≤ n) : ∀ k < bootCalls,
    (bootCall k (bootState (initBitmapPmm (loaderMap 512 n) loaderKernel) k)).Regular := by
  intro k hk
  have hboot := loader_atBoot h
  have hpaved : ∃ w, walk (initBitmapPmm (loaderMap 512 n) loaderKernel).mem
      (initBitmapPmm (loaderMap 512 n) loaderKernel).root (heapPage 0) = some ⟨0, w⟩ := by
    have hroot : loaderKernel.root = 261120 := by decide
    refine ⟨tableEntry 0, ?_⟩
    rw [(hboot.walks (loaderMap_apart h)).2.2, hroot]
    exact loader_walk loaderKernel_holds (by decide)
  exact (bootState_paved (hboot.before (loaderMap_apart h)) (loader_init_noLarge h)
    (loader_init_supplied h (by decide) (by omega)) hpaved hk.le).regular hk

/-- A machine with 1 GiB of which all from 2 MiB on is usable. -/
def bigMap : List MemmapEntry := loaderMap 512 260608

/-- The same machine with 1 MiB of it usable. -/
def smallMap : List MemmapEntry := loaderMap 512 256

theorem bigMap_range : LoaderRange 512 260608 := ⟨by decide, by decide, by decide, by decide⟩

theorem smallMap_range : LoaderRange 512 256 := ⟨by decide, by decide, by decide, by decide⟩

theorem bigMap_orderly : Orderly (initBitmapPmm bigMap loaderKernel) :=
  loader_orderly bigMap_range (loader_regular bigMap_range (by decide))

/-- The big machine has a page for each call. -/
theorem bigMap_free (i : ℕ) (hi : i < heapPages) :
    (bootState (initBitmapPmm bigMap loaderKernel) (i + 2)).freePages ≠ [] := by
  have hready := bootState_ready ((loader_atBoot bigMap_range).before (loaderMap_apart bigMap_range))
    (loader_init_noLarge bigMap_range)
    (loader_init_supplied bigMap_range (by decide) (by decide))
    (show i + 2 ≤ bootCalls by unfold bootCalls; omega)
  obtain ⟨ps, hcard, hps⟩ := hready.supplied.pages
  obtain ⟨p, hp⟩ := Finset.card_pos.mp (show 0 < ps.card by unfold bootCalls at hcard; omega)
  exact List.ne_nil_of_mem (mem_freePages.mpr (hps p hp))

theorem heapMapped_iff_bigMap :
    HeapMapped bigMap (bootState (initBitmapPmm bigMap loaderKernel) bootCalls) :=
  (heapMapped_iff (loader_atBoot bigMap_range) (loaderMap_apart bigMap_range) bigMap_orderly).mpr
    bigMap_free

/-- On the small machine some heap page is mapped to page 0. -/
theorem smallMap_not_heapMapped :
    AtBoot smallMap {p | 512 ≤ p ∧ p < 262144} loaderKernel ∧
      HeapBitmapApart smallMap loaderKernel ∧
      Orderly (initBitmapPmm smallMap loaderKernel) ∧
      (∃ i < heapPages,
        translateAddr (bootState (initBitmapPmm smallMap loaderKernel) bootCalls).mem
          (bootState (initBitmapPmm smallMap loaderKernel) bootCalls).root (heapPage i) = some 0) ∧
      ¬HeapMapped smallMap (bootState (initBitmapPmm smallMap loaderKernel) bootCalls) := by
  have hboot := loader_atBoot smallMap_range
  have hapart := loaderMap_apart smallMap_range
  have hreg := loader_regular smallMap_range (by decide)
  have hbefore := hboot.before hapart
  have hfree (p : ℕ) (hp : p ∈ (initBitmapPmm (loaderMap 512 256) loaderKernel).freePages) :
      p ∈ Finset.Ico 521 768 := by
    have hlen := (loaderMap_bitmap smallMap_range).1
    have hsc : scanned (4096 : Word) = 4096 := rfl
    rw [mem_freePages, initBitmapPmm_bitmapLength, hlen, hsc] at hp
    obtain ⟨hlt, hclear⟩ := hp
    rw [(loaderMap_init smallMap_range).2 p (by omega), decide_eq_false_iff_not] at hclear
    rw [Finset.mem_Ico]
    omega
  obtain ⟨i, hi, hfull⟩ := exists_full hbefore hreg hfree (by rw [Nat.card_Ico]; decide)
  have hzero := heapPage_of_full hbefore hreg hi hfull
  exact ⟨hboot, hapart, loader_orderly smallMap_range hreg, ⟨i, hi, hzero⟩,
    fun h => h.ne_zero hi hzero⟩

end Machines

end LucidiOS.Boot
