import LucidiOS.Heap.Backing
import LucidiOS.Vmm.DirectMap

/-! The mapping sequence of `kmain`: the LAPIC, the I/O APIC and the pages of the heap. Pointers of
the kernel are taken to reach the frames behind the direct map, as they do up to the first state
in which it is no longer intact. -/
namespace LucidiOS.Boot
open ByteMemory Paging Pmm Vmm Heap

/-- The `k`th call of `vmm_alloc` in `kmain`. From the third call on `pmm_alloc2` has taken a frame
before. -/
def bootCall : ℕ → Kernel → MapCall
  | 0, s => ⟨s.gHhdmOffset + 0xFEE00000, 0xFEE00000, 0x13, s⟩
  | 1, s => ⟨s.ioapicBase, s.ioapicBase - s.gHhdmOffset, 0x13, s⟩
  | i + 2, s =>
      let alloc := pmmAlloc2 s.pmm s.bitmapLength s.mem
      ⟨heapPage i, alloc.1, 0x03, { s with mem := alloc.2 }⟩

/-- The state after the first `k` calls. -/
def bootState (s : Kernel) : ℕ → Kernel
  | 0 => s
  | k + 1 => (bootCall k (bootState s k)).after

def bootCalls : ℕ := 2 + heapPages

/-- A state before the mapping sequence. The direct map is in the higher half and leads to every
page of `ram`; `madt_parsing` has left the direct-map address of a 32-bit address or 0. -/
structure BeforeMapping (ram : Set ℕ) (s : Kernel) : Prop where
  tree : PageTree s
  pmm : PmmApart s
  aligned : s.gHhdmOffset.toNat % 4096 = 0
  higherHalf : 2 ^ 64 - 2 ^ 47 ≤ s.gHhdmOffset.toNat
  ioapic : s.ioapicBase = 0 ∨ (s.ioapicBase - s.gHhdmOffset).toNat < 2 ^ 32
  inside : ∀ p ∈ ram, s.gHhdmOffset.toNat + 4096 * p + 4096 ≤ 2 ^ 64
  direct : ∀ p ∈ ram, s.Direct p
  inUse : ∀ p, s.InUse p → p ∈ ram
  free : ∀ p ∈ s.freePages, p ∈ ram

/-- What the first `k` calls leave. -/
structure Reached (ram : Set ℕ) (s : Kernel) (k : ℕ) (t : Kernel) : Prop where
  setup : t = { s with mem := t.mem }
  tree : PageTree t
  pmm : PmmApart t
  inUse : ∀ p, t.InUse p → p ∈ ram
  free : ∀ p ∈ t.freePages, p ∈ ram
  direct : ∀ p ∈ ram, (∀ i, i + 2 < k → pageNumber (s.directMap p) ≠ pageNumber (heapPage i)) →
    t.Direct p
  mapped : 3 ≤ k → ∃ w, walk t.mem t.root (heapPage 0) = some ⟨0, w⟩

section Addresses
variable {ram : Set ℕ} {s : Kernel} {p : ℕ}

theorem BeforeMapping.directMap_toNat (h : BeforeMapping ram s) (hp : p ∈ ram) :
    (s.directMap p).toNat = s.gHhdmOffset.toNat + 4096 * p := by
  have := h.inside p hp
  rw [Kernel.directMap, BitVec.toNat_add, page_address_toNat (by omega)]
  omega

/-- A page of the direct map below 4 GiB, mapped where the direct map has it. -/
theorem BeforeMapping.low_direct (h : BeforeMapping ram s) (hp : p ∈ ram) {virt : Word}
    (hlow : (virt - s.gHhdmOffset).toNat < 2 ^ 32)
    (hpage : pageNumber (s.directMap p) = pageNumber virt) :
    frame (virt - s.gHhdmOffset) = p := by
  have hin := h.inside p hp
  have haligned := h.aligned
  have hhigh := h.higherHalf
  have hlt := virt.isLt
  rw [pageNumber, pageNumber, h.directMap_toNat hp] at hpage
  rw [BitVec.toNat_sub] at hlow
  rw [frame, BitVec.toNat_sub]
  omega

/-- The LAPIC and the I/O APIC are mapped where the direct map has them. -/
theorem BeforeMapping.apic_direct (h : BeforeMapping ram s) (hp : p ∈ ram) {k : ℕ} (hk : k < 2)
    (hpage : pageNumber (s.directMap p) = pageNumber (bootCall k s).virt) :
    frame (bootCall k s).physAddr = p := by
  obtain rfl | rfl : k = 0 ∨ k = 1 := by omega
  · have hphys : s.gHhdmOffset + 0xFEE00000 - s.gHhdmOffset = 0xFEE00000 := by
      rw [BitVec.add_comm, BitVec.add_sub_cancel]
    have hlow : (0xFEE00000 : Word).toNat < 2 ^ 32 := by decide
    rw [← hphys] at hlow
    have := h.low_direct hp hlow hpage
    rw [hphys] at this
    exact this
  · rcases h.ioapic with hzero | hlow
    · have hin := h.inside p hp
      have hhigh := h.higherHalf
      have hvirt : (bootCall 1 s).virt = 0 := hzero
      have h0 : (0 : Word).toNat = 0 := rfl
      rw [hvirt, pageNumber, pageNumber, h.directMap_toNat hp, h0] at hpage
      omega
    · exact h.low_direct hp hlow hpage

end Addresses

/-- The heap pages share their tables. -/
theorem heapPage_index {i : ℕ} (hi : i < heapPages) {level : ℕ} (h1 : 1 ≤ level) (h3 : level ≤ 3) :
    index (heapPage i) level = index (heapPage 0) level := by
  have hstart := heapVirtStart_toNat
  have h0 : 0 < heapPages := by decide
  rw [Fin.ext_iff]
  simp only [index]
  rw [heapPage_toNat hi, heapPage_toNat h0, hstart]
  unfold heapPages at hi
  obtain rfl | rfl | rfl : level = 1 ∨ level = 2 ∨ level = 3 := by omega
  all_goals omega

/-- The calls after the first two are for the heap. -/
theorem exists_heapCall {k : ℕ} (h2 : 2 ≤ k) (hk : k < bootCalls) : ∃ i < heapPages, k = i + 2 := by
  unfold bootCalls at hk
  exact ⟨k - 2, by omega, by omega⟩

/-- Different calls for heap pages map different pages. -/
theorem bootCall_virt_ne {i k : ℕ} {t : Kernel} (hi : i + 2 < k) (hk : k < bootCalls) :
    pageNumber (bootCall k t).virt ≠ pageNumber (heapPage i) := by
  obtain ⟨j, hj, rfl⟩ := exists_heapCall (by omega) hk
  have hstart := heapVirtStart_toNat
  change pageNumber (heapPage j) ≠ _
  rw [pageNumber, pageNumber, heapPage_toNat (by omega), heapPage_toNat (by omega), hstart]
  unfold heapPages at hj
  omega

section Run
variable {ram : Set ℕ} {s t : Kernel} {i k : ℕ}

/-- `t'` is `t` with some page locked, or `t` itself. -/
structure Locked (t t' : Kernel) : Prop where
  setup : t' = { t with mem := t'.mem }
  tree : PageTree t'
  pmm : PmmApart t'
  inUse : ∀ p, t'.InUse p ↔ t.InUse p
  walk : ∀ v, walk t'.mem t'.root v = walk t.mem t.root v
  free : ∀ p ∈ t'.freePages, p ∈ t.freePages
  noLarge : ∀ path, NoLarge t.mem t.root path → NoLarge t'.mem t'.root path
  supplied : ∀ n, Supplied t (n + 1) → Supplied t' n

/-- Writes to the page bitmap that lock a page leave the tables alone and unlock nothing. -/
theorem lock_keeps (ht : PageTree t) (hp : PmmApart t) {m : Memory}
    (hcases : m = t.mem ∨ ∃ N < 64 * t.bitmapLength.toNat, m = t.pmm.setBit N t.mem) :
    (∀ u, t.IsTable u → ∀ x, x / 4096 = u → m x = t.mem x) ∧
      ∀ q < 64 * t.bitmapLength.toNat, t.locked q = true →
        ({ t with mem := m } : Kernel).locked q = true := by
  constructor
  · intro u hu x hx
    rcases hcases with rfl | ⟨N, hN, rfl⟩
    · rfl
    · exact setBit_outside hp.fits _ hN (hx ▸ ht.apart u hu)
  · intro q hq h
    rcases hcases with rfl | ⟨N, hN, rfl⟩
    · exact h
    · refine (bit_setBit hp.fits t.mem hN hq).trans ?_
      change t.pmm.bit t.mem q = true at h
      rw [h, Bool.true_or]

theorem locked_of_mem (ht : PageTree t) (hp : PmmApart t) {m : Memory}
    (hcases : m = t.mem ∨ ∃ N < 64 * t.bitmapLength.toNat, m = t.pmm.setBit N t.mem) :
    Locked t { t with mem := m } := by
  obtain ⟨hmem, hlocked⟩ := lock_keeps ht hp hcases
  obtain ⟨htree, hpmm, htable, hlarge⟩ := ht.congr hp hmem hlocked
  refine ⟨rfl, htree, hpmm, fun p => ?_, (walk_congr hmem).2.2, fun p h => ?_, hlarge,
    fun n hs => ?_⟩
  · exact or_congr Iff.rfl (or_congr Iff.rfl (htable p))
  · rw [mem_freePages] at h ⊢
    refine ⟨h.1, ?_⟩
    by_contra hc
    have hsc := scanned_le t.bitmapLength
    have hlt : p < scanned t.bitmapLength := h.1
    rw [hlocked p (by omega) (by simpa using hc)] at h
    exact Bool.false_ne_true h.2.symm
  · rcases hcases with rfl | ⟨N, hN, rfl⟩
    · exact hs.mono (by omega)
    · have hs' : Supplied t (n + [N].length) := hs
      refine hs'.taken rfl fun q hq => ?_
      apply (bit_setBit hp.fits t.mem hN hq).trans
      simp only [List.mem_singleton]
      rfl

/-- Before a call at most the frame for the heap page is locked. -/
theorem bootCall_kernel (t : Kernel) (k : ℕ) : ∃ m, (bootCall k t).kernel = { t with mem := m } ∧
    (m = t.mem ∨ ∃ N < 64 * t.bitmapLength.toNat, m = t.pmm.setBit N t.mem) := by
  obtain _ | _ | i := k
  · exact ⟨t.mem, rfl, .inl rfl⟩
  · exact ⟨t.mem, rfl, .inl rfl⟩
  · have halloc := pmmAlloc2_eq t.pmm t.bitmapLength t.mem
    refine ⟨_, rfl, ?_⟩
    cases hf : t.pmm.firstClear t.mem (scanned t.bitmapLength) with
    | none =>
      rw [hf] at halloc
      exact .inl (congrArg Prod.snd halloc)
    | some N =>
      rw [hf] at halloc
      have hN := (WordArray.firstClear_eq_some.mp hf).1
      have hsc := scanned_le t.bitmapLength
      exact .inr ⟨N, by omega, congrArg Prod.snd halloc⟩

theorem bootCall_locked (ht : PageTree t) (hp : PmmApart t) (k : ℕ) :
    Locked t (bootCall k t).kernel := by
  obtain ⟨m, heq, hcases⟩ := bootCall_kernel t k
  rw [heq]
  exact locked_of_mem ht hp hcases

theorem bootCall_isTable (ht : PageTree t) (hp : PmmApart t) (k p : ℕ) :
    (bootCall k t).kernel.IsTable p ↔ t.IsTable p := by
  obtain ⟨m, heq, hcases⟩ := bootCall_kernel t k
  obtain ⟨hmem, hlocked⟩ := lock_keeps ht hp hcases
  rw [heq]
  exact (ht.congr hp hmem hlocked).2.2.1 p

theorem bootCall_stays_locked (ht : PageTree t) (hp : PmmApart t) (k : ℕ) {q : ℕ}
    (hq : q < 64 * t.bitmapLength.toNat) (h : t.locked q = true) :
    (bootCall k t).kernel.locked q = true := by
  obtain ⟨m, heq, hcases⟩ := bootCall_kernel t k
  rw [heq]
  exact (lock_keeps ht hp hcases).2 q hq h

theorem Locked.direct {t' : Kernel} (h : Locked t t') (p : ℕ) : t'.Direct p ↔ t.Direct p := by
  have hsame : t'.directMap p = t.directMap p := by
    rw [h.setup]
    rfl
  unfold Kernel.Direct translateAddr
  rw [hsame, h.walk]

theorem Locked.intact {t' : Kernel} (h : Locked t t') : t'.Intact ↔ t.Intact :=
  forall_congr' fun p => imp_congr (h.inUse p) (h.direct p)

/-- The state in which a call is made is reached as well. -/
theorem Reached.lock {t' : Kernel} (h : Reached ram s k t) (hl : Locked t t') :
    Reached ram s k t' where
  setup := by
    have := hl.setup
    rw [h.setup] at this
    exact this
  tree := hl.tree
  pmm := hl.pmm
  inUse p hp := h.inUse p ((hl.inUse p).mp hp)
  free p hp := h.free p (hl.free p hp)
  direct p hp hother := (hl.direct p).mpr (h.direct p hp hother)
  mapped hk := by
    obtain ⟨w, hw⟩ := h.mapped hk
    exact ⟨w, (hl.walk _).trans hw⟩

theorem Reached.start (h : BeforeMapping ram s) : Reached ram s 0 s :=
  ⟨rfl, h.tree, h.pmm, h.inUse, h.free, fun p hp _ => h.direct p hp, by simp⟩

theorem Reached.aligned (h : BeforeMapping ram s) (hr : Reached ram s k t) :
    t.gHhdmOffset.toNat % 4096 = 0 := by
  rw [hr.setup]
  exact h.aligned

theorem Reached.directMap_eq (hr : Reached ram s k t) (p : ℕ) : t.directMap p = s.directMap p := by
  rw [hr.setup]
  rfl

theorem Reached.apic_eq (hr : Reached ram s k t) (hk : k < 2) :
    (bootCall k t).virt = (bootCall k s).virt ∧
      (bootCall k t).physAddr = (bootCall k s).physAddr := by
  rw [hr.setup]
  obtain rfl | rfl : k = 0 ∨ k = 1 := by omega
  · exact ⟨rfl, rfl⟩
  · exact ⟨rfl, rfl⟩

/-- Once heap page 0 is mapped there is a table for every heap page. -/
theorem heapCall_missing (hl : Locked t (bootCall (i + 2) t).kernel) (hi : i < heapPages)
    (hmapped : ∃ w, walk t.mem t.root (heapPage 0) = some ⟨0, w⟩) :
    (firstSlot (bootCall (i + 2) t).kernel (bootCall (i + 2) t).virt).missing = 0 := by
  obtain ⟨w, hw⟩ := hmapped
  have hindices : indices (bootCall (i + 2) t).virt =
      [index (heapPage 0) 3, index (heapPage 0) 2, index (heapPage 0) 1] ++
        [index (heapPage i) 0] := by
    change indices (heapPage i) = _
    rw [indices, heapPage_index hi (by decide) (by decide), heapPage_index hi (by decide)
      (by decide), heapPage_index hi (by decide) (by decide)]
    rfl
  rw [firstSlot, hindices]
  exact firstStore_missing_of_walk ((hl.walk _).trans hw)

/-- Until the first heap page is mapped new tables come from memory that the direct map leads to,
and after it no call makes new tables. -/
theorem Reached.newTables_direct (hr : Reached ram s k t) (hk : k < bootCalls) :
    ∀ p ∈ (bootCall k t).newTables, (bootCall k t).kernel.Direct p := by
  have hl := bootCall_locked hr.tree hr.pmm k
  have hr' := hr.lock hl
  intro p hp
  by_cases hk2 : k ≤ 2
  · exact hr'.direct p (hr'.free p (List.mem_of_mem_take hp)) fun i hi => by omega
  · obtain ⟨i, hi, rfl⟩ := exists_heapCall (by omega) hk
    rw [MapCall.newTables, heapCall_missing hl hi (hr.mapped (by omega)), List.take_zero] at hp
    contradiction

/-- What a call leaves is reached. -/
theorem Reached.step (h : BeforeMapping ram s) (hr : Reached ram s k t)
    (hreg : (bootCall k t).Regular) : Reached ram s (k + 1) (bootCall k t).after := by
  have hr' := hr.lock (bootCall_locked hr.tree hr.pmm k)
  have hmaps := MapCall.maps hr'.tree hr'.pmm hreg
  have hfree (p : ℕ) (hp : p ∈ (bootCall k t).newTables) : p ∈ ram :=
    hr'.free p (List.mem_of_mem_take hp)
  refine ⟨?_, hmaps.tree, hmaps.pmm, fun p hp => ?_, fun p hp => ?_, fun p hp hother => ?_,
    fun hk => ?_⟩
  · have := hmaps.setup
    rw [hr'.setup] at this
    exact this
  · rcases (MapCall.after_inUse hr'.tree hr'.pmm hreg p).mp hp with hp | hp
    · exact hr'.inUse p hp
    · exact hfree p hp
  · rw [mem_freePages] at hp
    have hscanned : scanned (bootCall k t).after.bitmapLength =
        scanned (bootCall k t).kernel.bitmapLength := by rw [hmaps.setup]
    have hsc := scanned_le (bootCall k t).kernel.bitmapLength
    rw [hscanned, hmaps.locked p (by omega), Bool.or_eq_false_iff] at hp
    exact hr'.free p (mem_freePages.mpr ⟨hp.1, hp.2.1⟩)
  · rw [MapCall.after_direct hr'.tree hr'.pmm hreg (hr'.aligned h), hr'.directMap_eq]
    split_ifs with hpage
    · obtain ⟨i, rfl⟩ | hk : (∃ i, k = i + 2) ∨ k < 2 := by
        by_cases hk : k < 2
        · exact Or.inr hk
        · exact Or.inl ⟨k - 2, by omega⟩
      · exact absurd hpage (hother i (by omega))
      · obtain ⟨hvirt, hphys⟩ := hr.apic_eq hk
        rw [hvirt] at hpage
        rw [hphys]
        exact h.apic_direct hp hk hpage
    · exact hr'.direct p hp fun i hi => hother i (by omega)
  · refine hmaps.mapped fun hpage => ?_
    have hk2 : k ≠ 2 := by
      rintro rfl
      exact hpage rfl
    exact hr'.mapped (by omega)

/-- Every state of the sequence is reached. -/
theorem bootState_reached (h : BeforeMapping ram s) {n : ℕ}
    (hreg : ∀ k < n, (bootCall k (bootState s k)).Regular) {k : ℕ} (hk : k ≤ n) :
    Reached ram s k (bootState s k) := by
  induction k with
  | zero => exact .start h
  | succ k ih => exact (ih (by omega)).step h (hreg k (by omega))

/-- A reached state with four free pages for each call that remains, and without large pages. -/
structure Ready (ram : Set ℕ) (s : Kernel) (k : ℕ) (t : Kernel) : Prop extends
    Reached ram s k t where
  noLarge : ∀ path, NoLarge t.mem t.root path
  supplied : Supplied t (4 * (bootCalls - k))

theorem Ready.regular (hr : Ready ram s k t) (hk : k < bootCalls) : (bootCall k t).Regular := by
  have hl := bootCall_locked hr.tree hr.pmm k
  have hle := firstSlot_missing_le (bootCall k t).kernel (bootCall k t).virt
  exact ⟨hl.noLarge _ (hr.noLarge _), hl.supplied _ (hr.supplied.mono (by omega))⟩

theorem Ready.step (h : BeforeMapping ram s) (hr : Ready ram s k t) (hk : k < bootCalls) :
    Ready ram s (k + 1) (bootCall k t).after := by
  have hl := bootCall_locked hr.tree hr.pmm k
  have hr' := hr.lock hl
  have hmaps := MapCall.maps hr'.tree hr'.pmm (hr.regular hk)
  have hle := firstSlot_missing_le (bootCall k t).kernel (bootCall k t).virt
  have hnew : (bootCall k t).newTables.length ≤ 3 := (List.length_take_le _ _).trans hle
  have hcount : 4 * (bootCalls - k) = 4 * (bootCalls - (k + 1)) + 3 + 1 := by omega
  have hs := hr.supplied
  rw [hcount] at hs
  refine ⟨hr.toReached.step h (hr.regular hk), fun path => hmaps.noLarge path (hl.noLarge _
    (hr.noLarge _)), ((hl.supplied _ hs).mono (by omega)).taken ?_ hmaps.locked⟩
  rw [hmaps.setup]

/-- Four pages for each call and no large page make every call regular. -/
theorem bootState_ready (h : BeforeMapping ram s) (hsmall : ∀ path, NoLarge s.mem s.root path)
    (hs : Supplied s (4 * bootCalls)) (hk : k ≤ bootCalls) :
    Ready ram s k (bootState s k) := by
  induction k with
  | zero => exact ⟨.start h, hsmall, hs⟩
  | succ k ih => exact (ih (by omega)).step h hk

/-- A reached state in which the heap has its tables, with four free pages for each call that remains
of the first two. -/
structure Paved (ram : Set ℕ) (s : Kernel) (k : ℕ) (t : Kernel) : Prop extends
    Reached ram s k t where
  noLarge : ∀ path, NoLarge t.mem t.root path
  supplied : Supplied t (4 * (2 - k))
  paved : ∃ w, walk t.mem t.root (heapPage 0) = some ⟨0, w⟩

/-- There are the pages that a call needs for tables and those for the calls that follow. -/
theorem Paved.supplied_kernel (hr : Paved ram s k t) (hk : k < bootCalls) :
    Supplied (bootCall k t).kernel (4 * (2 - (k + 1)) +
      (firstSlot (bootCall k t).kernel (bootCall k t).virt).missing) := by
  have hl := bootCall_locked hr.tree hr.pmm k
  by_cases hk2 : k < 2
  · have hle := firstSlot_missing_le (bootCall k t).kernel (bootCall k t).virt
    have hcount : 4 * (2 - k) = 4 * (2 - (k + 1)) + 3 + 1 := by omega
    have hs := hr.supplied
    rw [hcount] at hs
    exact (hl.supplied _ hs).mono (by omega)
  · obtain ⟨i, hi, rfl⟩ := exists_heapCall (by omega) hk
    have hs := hr.supplied
    have hlen : (bootCall (i + 2) t).kernel.bitmapLength = t.bitmapLength := by rw [hl.setup]
    have hpos := hs.length_pos
    rw [heapCall_missing hl hi hr.paved, show 4 * (2 - (i + 2 + 1)) + 0 = 0 by omega]
    constructor
    · exact bootCall_stays_locked hr.tree hr.pmm _ (by omega) hs.zero
    · rw [hlen]
      exact hs.length_pos
    · rw [hlen]
      exact hs.length_le
    · exact ⟨∅, le_rfl, by simp⟩

theorem Paved.regular (hr : Paved ram s k t) (hk : k < bootCalls) : (bootCall k t).Regular := by
  have hl := bootCall_locked hr.tree hr.pmm k
  constructor
  · exact hl.noLarge _ (hr.noLarge _)
  · exact (hr.supplied_kernel hk).mono (Nat.le_add_left _ _)

theorem Paved.step (h : BeforeMapping ram s) (hr : Paved ram s k t) (hk : k < bootCalls) :
    Paved ram s (k + 1) (bootCall k t).after := by
  have hl := bootCall_locked hr.tree hr.pmm k
  have hr' := hr.lock hl
  have hmaps := MapCall.maps hr'.tree hr'.pmm (hr.regular hk)
  have hnew : (bootCall k t).newTables.length ≤
      (firstSlot (bootCall k t).kernel (bootCall k t).virt).missing := List.length_take_le _ _
  constructor
  · exact hr.toReached.step h (hr.regular hk)
  · exact fun path => hmaps.noLarge path (hl.noLarge _ (hr.noLarge _))
  · apply ((hr.supplied_kernel hk).mono (Nat.add_le_add_left hnew _)).taken ?_ hmaps.locked
    rw [hmaps.setup]
  · obtain ⟨w, hw⟩ := hr.paved
    exact hmaps.mapped fun _ => ⟨w, (hl.walk _).trans hw⟩

/-- With the tables of the heap in place eight free pages make every call regular, also those that
find no frame for their heap page. -/
theorem bootState_paved (h : BeforeMapping ram s) (hsmall : ∀ path, NoLarge s.mem s.root path)
    (hs : Supplied s 8) (hpaved : ∃ w, walk s.mem s.root (heapPage 0) = some ⟨0, w⟩)
    (hk : k ≤ bootCalls) : Paved ram s k (bootState s k) := by
  induction k with
  | zero => exact ⟨.start h, hsmall, hs, hpaved⟩
  | succ k ih => exact (ih (by omega)).step h hk

end Run

end LucidiOS.Boot
