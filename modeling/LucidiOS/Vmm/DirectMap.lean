import LucidiOS.Pmm.HeapBitmap
import LucidiOS.Vmm.Confinement

/-! What one call of `vmm_alloc` leaves of the direct map. The kernel reaches its bitmaps and its
page tables through it. -/
namespace LucidiOS
open ByteMemory Paging Pmm

/-- The direct-map address of page `p`. -/
def Kernel.directMap (s : Kernel) (p : ℕ) : Word := s.gHhdmOffset + BitVec.ofNat 64 p * 4096

/-- Page `p` holds the page bitmap, the heap bitmap or a page table. -/
def Kernel.InUse (s : Kernel) (p : ℕ) : Prop :=
  s.HoldsBitmap p ∨ s.HoldsHeapBitmap p ∨ s.IsTable p

/-- The direct-map address of page `p` leads to page `p`. -/
def Kernel.Direct (s : Kernel) (p : ℕ) : Prop :=
  translateAddr s.mem s.root (s.directMap p) = some (4096 * p)

/-- The direct map of the pages in use. -/
def Kernel.Intact (s : Kernel) : Prop := ∀ p, s.InUse p → s.Direct p

namespace Vmm

/-- The bitmaps stay where they are. -/
theorem bitmaps_congr {s s' : Kernel} (h : s' = { s with mem := s'.mem }) (p : ℕ) :
    (s'.HoldsBitmap p ↔ s.HoldsBitmap p) ∧ (s'.HoldsHeapBitmap p ↔ s.HoldsHeapBitmap p) := by
  rw [h]
  exact ⟨Iff.rfl, Iff.rfl⟩

section Congr
variable {s : Kernel} {m : Memory}

/-- Memory that differs outside the tables only has the same hierarchy. -/
theorem walk_congr (hmem : ∀ t, s.IsTable t → ∀ x, x / 4096 = t → m x = s.mem x) :
    (∀ p, p.length ≤ 3 → tableAt m s.root p = tableAt s.mem s.root p) ∧
    (∀ t, s.IsTable t → ∀ i, entry m t i = entry s.mem t i) ∧
    ∀ v, walk m s.root v = walk s.mem s.root v := by
  have hentry (t : ℕ) (ht : s.IsTable t) (i : Fin 512) : entry m t i = entry s.mem t i :=
    entry_congr (hmem t ht)
  refine ⟨fun p hp => ?_, hentry, fun v => ?_⟩
  · refine tableAt_congr fun q t i hq ht => hentry t ⟨q, ?_, ht⟩ i
    have := hq.length_le
    rw [List.length_append, List.length_singleton] at this
    omega
  · refine walkFrom_congr (indices v) [] (tableAt_nil _ _) fun q t i hq ht =>
      hentry t ⟨q, ?_, ht⟩ i
    have := hq.length_le
    simp only [List.length_append, List.nil_append, indices, List.length_cons,
      List.length_nil] at this
    omega

/-- Such memory keeps the hierarchy a tree, provided that no page is unlocked. -/
theorem PageTree.congr (ht : PageTree s) (hp : PmmApart s)
    (hmem : ∀ t, s.IsTable t → ∀ x, x / 4096 = t → m x = s.mem x)
    (hlocked : ∀ q < 64 * s.bitmapLength.toNat, s.locked q = true →
      ({ s with mem := m } : Kernel).locked q = true) :
    PageTree { s with mem := m } ∧ PmmApart { s with mem := m } ∧
      (∀ t, ({ s with mem := m } : Kernel).IsTable t ↔ s.IsTable t) ∧
      ∀ path, NoLarge s.mem s.root path → NoLarge m s.root path := by
  obtain ⟨htables, hentry, -⟩ := walk_congr hmem
  have htable (t : ℕ) : ({ s with mem := m } : Kernel).IsTable t ↔ s.IsTable t :=
    exists_congr fun p => and_congr_right fun hlen => by rw [← htables p hlen]; rfl
  refine ⟨⟨?_, ?_, ?_⟩, ⟨hp.fits, ?_⟩, htable, ?_⟩
  · intro p q t hlen hlen' hpt hqt
    exact ht.distinct p q t hlen hlen' ((htables p hlen) ▸ hpt) ((htables q hlen') ▸ hqt)
  · intro t h
    obtain ⟨hlt, hl⟩ := ht.locked t ((htable t).mp h)
    exact ⟨hlt, hlocked t hlt hl⟩
  · exact fun t h => ht.apart t ((htable t).mp h)
  · intro q hq hl
    apply hp.free q hq
    by_contra hc
    rw [hlocked q hq (by simpa using hc)] at hl
    contradiction
  · intro path hpath p i t hpre hlen htab hpresent
    rw [htables p (by omega)] at htab
    rw [hentry t ⟨p, by omega, htab⟩] at hpresent ⊢
    exact hpath p i t hpre hlen htab hpresent

end Congr

section Enough
variable {s : Kernel} {virt physAddr : Word} {flags : BitVec 8}

/-- A descent gets all the pages it asks for when the bitmap has one for each missing table. -/
theorem descend_enough (idxs : List Word) (p₀ path : List (Fin 512)) (i₀ : Fin 512) {e : Entered}
    {T : ℕ} (ht : PageTree e.kernel) (hp : PmmApart e.kernel)
    (hT : tableAt e.kernel.mem e.kernel.root p₀ = some T)
    (hptr : phys e.kernel.gHhdmOffset e.table = 4096 * T) (hlt : T < 2 ^ 40)
    (hpath : idxs.map BitVec.toNat = path.map Fin.val) (hlen : p₀.length + path.length ≤ 3)
    (hsmall : NoLarge e.kernel.mem e.kernel.root (p₀ ++ path ++ [i₀]))
    (hs : Supplied e.kernel (firstStore e.kernel.mem T (path ++ [i₀])).missing)
    (he : ∀ r ∈ e.results, r ≠ 0) : ∀ r ∈ (descend e idxs).results, r ≠ 0 := by
  induction idxs generalizing e T p₀ path with
  | nil => exact he
  | cons idx idxs ih =>
    obtain ⟨i, path, rfl, hidx, htail⟩ := indices_cons hpath
    have hcount : (idx :: idxs).length = (i :: path).length := by
      simpa using congrArg List.length hpath
    rw [List.cons_append, firstStore_cons _ _ _ (by simp)] at hs
    cases hpresent : present (entry e.kernel.mem T i) with
    | true =>
      simp only [List.length_cons] at hlen
      rw [if_pos hpresent] at hs
      rw [descend_cons, Entered.next_present hptr hlt hidx hpresent]
      refine ih (p₀ ++ [i]) path (e := ⟨_, e.kernel, e.results⟩) ht hp ?_ (phys_mask _ _)
        (frame_lt _) htail (by simp; omega) (by simpa using hsmall) hs he
      rw [tableAt_snoc, hT, Option.bind_some, child_eq_some]
      exact ⟨hpresent, hsmall p₀ i T ⟨path ++ [i₀], by simp⟩ (by omega) hT hpresent, rfl⟩
    | false =>
      rw [if_neg (by simp [hpresent])] at hs
      refine descend_supplied (idx :: idxs) p₀ (i :: path) [i₀] ht hp hT hptr hlt hpath hlen hsmall
        ?_ he
      rw [hcount, List.length_cons]
      simpa using hs

theorem vmmAlloc_enough (physAddr : Word) (flags : BitVec 8) (ht : PageTree s) (hp : PmmApart s)
    (hsmall : NoLarge s.mem s.root (indices virt))
    (hs : Supplied s (firstSlot s virt).missing) :
    ∀ r ∈ (vmmAlloc virt physAddr flags s).2, r ≠ 0 := by
  rw [(vmmAlloc_eq virt physAddr flags s).1]
  exact descend_enough (descentIndices virt) [] [index virt 3, index virt 2, index virt 1]
    (index virt 0) (e := topTable s) ht hp (tableAt_nil _ _) (phys_mask _ _) (frame_lt s.cr3)
    (descentIndices_toNat virt) (by simp) hsmall hs (by simp [topTable])

theorem map_pageOf (hp : PmmApart s) {l : List ℕ} (hl : ∀ N ∈ l, N ∈ s.freePages) :
    (l.map pageAddress).map pageOf = l := by
  rw [List.map_map]
  exact (List.map_congr_left fun N hN => pageOf_pageAddress hp (hl N hN)).trans (List.map_id l)

/-- The pages made into tables are the next free ones, as many as tables are missing. -/
theorem vmmAlloc_takes (ht : PageTree s) (hp : PmmApart s)
    (hsmall : NoLarge s.mem s.root (indices virt))
    (hs : Supplied s (firstSlot s virt).missing) :
    Maps s (vmmAlloc virt physAddr flags s).1 virt (pageEntry physAddr flags)
      (s.freePages.take (firstSlot s virt).missing) := by
  have hr := vmmAlloc_enough physAddr flags ht hp hsmall hs
  obtain ⟨new, -, hres, hmaps⟩ := vmmAlloc_maps ht hp hsmall hr
  have htable : s.IsTable (firstSlot s virt).table :=
    firstStore_table (p := []) hsmall (by simp [indices]) (by simp [indices]) (tableAt_nil _ _)
  have htaken : (vmmAlloc virt physAddr flags s).2 =
      (s.freePages.take (firstSlot s virt).missing).map pageAddress := by
    rcases vmmAlloc_first rfl hp (ht.apart _ htable) hr with ⟨h0, hnil, -⟩ | ⟨-, N, new, k, T', -,
      hfree, hres, hpages, -, -, hcount, -⟩
    · rw [hnil, h0, List.take_zero, List.map_nil]
    · have hne : N ≠ (firstSlot s virt).table := by
        rintro rfl
        rw [(ht.locked _ htable).2] at hfree
        contradiction
      rw [hres, hpages, ← hcount hne, show new.length + 1 = (N :: new).length from rfl,
        List.take_left]
  have hfresh (N : ℕ) (hN : N ∈ new) : N ∈ s.freePages := mem_freePages.mpr (hmaps.fresh N hN)
  have heq := congrArg (List.map pageOf) (hres.symm.trans htaken)
  rw [map_pageOf hp hfresh, map_pageOf hp fun N hN => List.mem_of_mem_take hN] at heq
  rw [← heq]
  exact hmaps

end Enough

/-- A call of `vmm_alloc`. -/
structure MapCall where
  virt : Word
  physAddr : Word
  flags : BitVec 8
  kernel : Kernel

namespace MapCall

/-- The state that the call leaves. -/
def after (c : MapCall) : Kernel := (vmmAlloc c.virt c.physAddr c.flags c.kernel).1

/-- The free pages that the call makes into tables. -/
def newTables (c : MapCall) : List ℕ := c.kernel.freePages.take (firstSlot c.kernel c.virt).missing

/-- The path of the call meets no large page, and there is a free page for each missing table. -/
structure Regular (c : MapCall) : Prop where
  small : NoLarge c.kernel.mem c.kernel.root (indices c.virt)
  supplied : Supplied c.kernel (firstSlot c.kernel c.virt).missing

/-- When the call maps the direct-map address of a page that is in use, or that it makes into a
table, it maps it to that page. -/
def Keeps (c : MapCall) : Prop :=
  ∀ p, c.kernel.InUse p ∨ p ∈ c.newTables →
    pageNumber (c.kernel.directMap p) = pageNumber c.virt → frame c.physAddr = p

section Call
variable {c : MapCall}

theorem maps (ht : PageTree c.kernel) (hp : PmmApart c.kernel) (hreg : c.Regular) :
    Maps c.kernel c.after c.virt (pageEntry c.physAddr c.flags) c.newTables :=
  vmmAlloc_takes ht hp hreg.small hreg.supplied

theorem after_inUse (ht : PageTree c.kernel) (hp : PmmApart c.kernel) (hreg : c.Regular) (p : ℕ) :
    c.after.InUse p ↔ c.kernel.InUse p ∨ p ∈ c.newTables := by
  have hmaps := maps ht hp hreg
  obtain ⟨hbitmap, hheap⟩ := bitmaps_congr hmaps.setup p
  unfold Kernel.InUse
  rw [hmaps.isTable_iff, hbitmap, hheap, or_assoc, or_assoc]

/-- The call redirects one page of the direct map at most. -/
theorem after_direct (ht : PageTree c.kernel) (hp : PmmApart c.kernel) (hreg : c.Regular)
    (halign : c.kernel.gHhdmOffset.toNat % 4096 = 0) (p : ℕ) :
    c.after.Direct p ↔ if pageNumber (c.kernel.directMap p) = pageNumber c.virt
      then frame c.physAddr = p else c.kernel.Direct p := by
  have hmaps := maps ht hp hreg
  have hsame : c.after.directMap p = c.kernel.directMap p := by rw [hmaps.setup]; rfl
  unfold Kernel.Direct translateAddr
  rw [hsame]
  split_ifs with h
  · have hoffset : (c.kernel.directMap p).toNat % 4096 = 0 := by
      have h4096 : (4096 : Word).toNat = 4096 := rfl
      rw [Kernel.directMap, BitVec.toNat_add, BitVec.toNat_mul, h4096]
      omega
    have hbytes : Leaf.bytes ⟨0, pageEntry c.physAddr c.flags⟩ = 4096 := rfl
    rw [hmaps.walk_page h, Option.map_some, Leaf.address, hbytes, hoffset, pageEntry_frame,
      Option.some.injEq]
    omega
  · rw [hmaps.walk_other _ h]

/-- A call leaves the direct map of the pages in use intact exactly when it keeps it. -/
theorem intact_iff (ht : PageTree c.kernel) (hp : PmmApart c.kernel) (hreg : c.Regular)
    (halign : c.kernel.gHhdmOffset.toNat % 4096 = 0) (hin : c.kernel.Intact)
    (hnew : ∀ p ∈ c.newTables, c.kernel.Direct p) : c.after.Intact ↔ c.Keeps := by
  have hdirect (p : ℕ) (h : c.kernel.InUse p ∨ p ∈ c.newTables) : c.kernel.Direct p :=
    h.elim (hin p) (hnew p)
  constructor
  · intro h p hp' hpage
    have := (after_direct ht hp hreg halign p).mp (h p ((after_inUse ht hp hreg p).mpr hp'))
    rwa [if_pos hpage] at this
  · intro h p hp'
    rw [after_inUse ht hp hreg] at hp'
    rw [after_direct ht hp hreg halign]
    split_ifs with hpage
    · exact h p hp' hpage
    · exact hdirect p hp'

end Call
end MapCall

end Vmm
end LucidiOS
