import LucidiOS.Vmm.Supply

/-! `vmm_alloc` maps one page and leaves every other translation alone. -/
namespace LucidiOS
open ByteMemory Paging Pmm

namespace Vmm

/-- `s'` is `s` with the page of `virt` mapped by the entry `w`, after the free pages `new` were
made into tables. -/
structure Maps (s s' : Kernel) (virt w : Word) (new : List ℕ) : Prop where
  setup : s' = { s with mem := s'.mem }
  tree : PageTree s'
  pmm : PmmApart s'
  fresh : ∀ N ∈ new, N < scanned s.bitmapLength ∧ s.locked N = false
  locked : ∀ q < 64 * s.bitmapLength.toNat, s'.locked q = (s.locked q || decide (q ∈ new))
  table : ∀ p t, p.length ≤ 3 → tableAt s.mem s.root p = some t →
    tableAt s'.mem s'.root p = some t
  tables : ∀ t, s'.IsTable t → s.IsTable t ∨ t ∈ new
  made : ∀ t ∈ new, s'.IsTable t
  walk_virt : walk s'.mem s'.root virt = some ⟨0, w⟩
  walk_other : ∀ v, pageNumber v ≠ pageNumber virt →
    walk s'.mem s'.root v = walk s.mem s.root v
  noLarge : ∀ path, NoLarge s.mem s.root path → NoLarge s'.mem s'.root path

section Maps
variable {s s' : Kernel} {virt w v : Word} {new : List ℕ}

/-- The whole page of `virt` is mapped. -/
theorem Maps.walk_page (h : Maps s s' virt w new) (hpage : pageNumber v = pageNumber virt) :
    walk s'.mem s'.root v = some ⟨0, w⟩ := by
  rw [walk, indices_eq_iff.mpr hpage]
  exact h.walk_virt

/-- An address that has a last-level entry, or lies in the page that is mapped, has one after. -/
theorem Maps.mapped (h : Maps s s' virt w new)
    (hold : pageNumber v ≠ pageNumber virt → ∃ u, walk s.mem s.root v = some ⟨0, u⟩) :
    ∃ u, walk s'.mem s'.root v = some ⟨0, u⟩ := by
  by_cases hpage : pageNumber v = pageNumber virt
  · exact ⟨w, h.walk_page hpage⟩
  · obtain ⟨u, hu⟩ := hold hpage
    exact ⟨u, (h.walk_other v hpage).trans hu⟩

theorem Maps.isTable_iff (h : Maps s s' virt w new) (t : ℕ) :
    s'.IsTable t ↔ s.IsTable t ∨ t ∈ new := by
  refine ⟨h.tables t, fun ht => ht.elim ?_ (h.made t)⟩
  rintro ⟨p, hlen, htab⟩
  exact ⟨p, hlen, h.table p t hlen htab⟩

/-- The tables are made of pages that were not locked. -/
theorem Maps.notMem_new (h : Maps s s' virt w new) {q : ℕ} (hq : s.locked q = true) : q ∉ new := by
  intro hc
  rw [(h.fresh q hc).2] at hq
  contradiction

end Maps

section Alloc
variable {s : Kernel} {virt physAddr : Word} {flags : BitVec 8}

/-- The descent ends at the last-level table of `virt`. -/
theorem vmmAlloc_descends (ht : PageTree s) (hp : PmmApart s)
    (hsmall : NoLarge s.mem s.root (indices virt))
    (hr : ∀ r ∈ (vmmAlloc virt physAddr flags s).2, r ≠ 0) :
    ∃ k T new, k = (descend (topTable s) (descentIndices virt)).kernel ∧
      new.length ≤ 3 ∧ (vmmAlloc virt physAddr flags s).2 = new.map pageAddress ∧
      Extends s k new ∧ tableAt k.mem k.root [index virt 3, index virt 2, index virt 1] = some T ∧
      (vmmAlloc virt physAddr flags s).1 =
        storeEntry k T (index virt 0) (pageEntry physAddr flags) := by
  obtain ⟨hres, hstore⟩ := vmmAlloc_eq virt physAddr flags s
  rw [hres] at hr ⊢
  obtain ⟨new, hlen, hnew, hext, T, hlt, hptr, htab⟩ := descend_extends (descentIndices virt) []
    [index virt 3, index virt 2, index virt 1] [index virt 0] (e := topTable s) ht hp
    (tableAt_nil _ _) (phys_mask _ _) (frame_lt s.cr3) (descentIndices_toNat virt) (by simp)
    hsmall hr
  refine ⟨_, T, new, rfl, hlen, hnew, hext, ?_, hstore T hptr hlt⟩
  rw [hext.root_eq]
  exact htab

/-- Where every level has a table or gets one, `vmm_alloc` maps its page and nothing else. -/
theorem vmmAlloc_maps (ht : PageTree s) (hp : PmmApart s)
    (hsmall : NoLarge s.mem s.root (indices virt))
    (hr : ∀ r ∈ (vmmAlloc virt physAddr flags s).2, r ≠ 0) :
    ∃ new : List ℕ, new.length ≤ 3 ∧ (vmmAlloc virt physAddr flags s).2 = new.map pageAddress ∧
      Maps s (vmmAlloc virt physAddr flags s).1 virt (pageEntry physAddr flags) new := by
  obtain ⟨k, T, new, -, hlen, hres, hext, htab, heq⟩ := vmmAlloc_descends ht hp hsmall hr
  obtain ⟨htree, hpmm, htables, hwalk, hlarge⟩ := storeEntry_spec hext.tree hext.pmm htab
    (by simp) (index virt 0) (pageEntry physAddr flags)
  have hapart := hext.tree.apart T ⟨_, by simp, htab⟩
  rw [heq]
  refine ⟨new, hlen, hres, ⟨?_, htree, hpmm, hext.fresh, ?_, ?_, ?_, ?_, ?_, ?_, ?_⟩⟩
  · rw [hext.setup]
    rfl
  · intro q hq
    rw [storeEntry_locked hext.pmm.fits hapart _ (hext.length_eq ▸ hq)]
    exact hext.locked q hq
  · intro p t hlen h
    exact (htables p hlen).trans (hext.table p t hlen h)
  · rintro t ⟨p, hlen, h⟩
    exact hext.tables t ⟨p, hlen, (htables p hlen) ▸ h⟩
  · intro t h
    obtain ⟨p, hlen, h⟩ := hext.made t h
    exact ⟨p, hlen, (htables p hlen).trans h⟩
  · have htab' := (htables _ (by simp)).trans htab
    change walkFrom (storeEntry k T (index virt 0) _).mem k.root
      ([index virt 3, index virt 2, index virt 1] ++ [index virt 0]) = _
    rw [walkFrom_append htab' (by simp), walkFrom, storeEntry, entry_store,
      if_pos (pageEntry_present _ _)]
  · intro v hv
    have hne : indices v ≠ [index virt 3, index virt 2, index virt 1] ++ [index virt 0] :=
      fun hc => hv (indices_eq_iff.mp hc)
    exact (hwalk v hne).trans (hext.walk v)
  · exact fun path h => hlarge path (hext.noLarge path h)

end Alloc

/-- On a hierarchy of small pages that are locked in the page bitmap, a `vmm_alloc` that gets the
pages it asks for maps the page of `virt`, changes no other translation, and leaves such a
hierarchy. -/
theorem vmmAlloc_correct (s : Kernel) (virt physAddr : Word) (flags : BitVec 8) (ht : PageTree s)
    (hp : PmmApart s) (hsmall : ∀ path, NoLarge s.mem s.root path)
    (hr : ∀ r ∈ (vmmAlloc virt physAddr flags s).2, r ≠ 0) :
    let s' := (vmmAlloc virt physAddr flags s).1
    walk s'.mem s'.root virt = some ⟨0, (physAddr &&& pteMask) ||| flags.setWidth 64 ||| 1⟩ ∧
    (∀ v, pageNumber v ≠ pageNumber virt → walk s'.mem s'.root v = walk s.mem s.root v) ∧
    PageTree s' ∧ PmmApart s' ∧ ∀ path, NoLarge s'.mem s'.root path := by
  obtain ⟨new, -, -, h⟩ := vmmAlloc_maps ht hp (hsmall _) hr
  exact ⟨h.walk_virt, h.walk_other, h.tree, h.pmm, fun path => h.noLarge path (hsmall path)⟩

/-- An empty top-level table in frame 1 and a page bitmap in frame 2 with pages 0 to 2 locked. -/
def emptyTables : Kernel where
  mem := ofWords fun k => if k = 1024 then 7 else 0
  cr3 := 0x1000
  gHhdmOffset := 0
  bitmapLength := 64
  bitmap := 0x2000
  heapBitmap := 0
  ioapicBase := 0

theorem emptyTables_fits : Fits emptyTables := by
  unfold Fits
  decide

theorem emptyTables_locked {p : ℕ} (hp : p < 4096) : emptyTables.locked p = decide (p < 3) := by
  have hbit := bit_ofWords (s := emptyTables) (f := fun k => if k = 1024 then 7 else 0) (k := 1024)
    emptyTables_fits rfl hp
  rw [Kernel.locked]
  apply hbit.trans
  by_cases h : p < 64
  · interval_cases p <;> rfl
  · rw [if_neg (by omega)]
    simp
    omega

theorem emptyTables_holdsBitmap (p : ℕ) : emptyTables.HoldsBitmap p ↔ p = 2 := by
  have hphys : emptyTables.bitmapPhys = 8192 := rfl
  have hlen : emptyTables.bitmapLength.toNat = 64 := rfl
  rw [Kernel.HoldsBitmap, hphys, hlen]
  omega

theorem emptyTables_entry (i : Fin 512) :
    present (entry emptyTables.mem emptyTables.root i) = false := by
  have hroot : emptyTables.root = 1 := by decide
  rw [hroot, emptyTables, entry_ofWords, if_neg (by omega)]
  rfl

theorem emptyTables_tree : PageTree emptyTables := by
  have hroot : emptyTables.root = 1 := by decide
  have htable (t : ℕ) (h : emptyTables.IsTable t) : t = 1 := by
    obtain ⟨p, -, h⟩ := h
    rw [(tableAt_of_empty emptyTables_entry h).2, hroot]
  constructor
  · intro p q t _ _ hp hq
    rw [(tableAt_of_empty emptyTables_entry hp).1, (tableAt_of_empty emptyTables_entry hq).1]
  · intro t h
    rw [htable t h]
    exact ⟨by decide, emptyTables_locked (by decide)⟩
  · intro t h
    rw [htable t h, emptyTables_holdsBitmap]
    decide

theorem emptyTables_pmm : PmmApart emptyTables := by
  refine ⟨emptyTables_fits, fun p hp hfree => ?_⟩
  have hlen : 64 * emptyTables.bitmapLength.toNat = 4096 := rfl
  rw [hlen] at hp
  rw [emptyTables_locked hp, decide_eq_false_iff_not] at hfree
  rw [emptyTables_holdsBitmap]
  omega

theorem emptyTables_noLarge (path : List (Fin 512)) :
    NoLarge emptyTables.mem emptyTables.root path := by
  intro p i t _ _ htab hpresent
  rw [(tableAt_of_empty emptyTables_entry htab).2, emptyTables_entry] at hpresent
  contradiction

theorem emptyTables_supplied : Supplied emptyTables 3 := by
  refine ⟨emptyTables_locked (by decide), by decide, by decide, {3, 4, 5}, by decide, fun p hp => ?_⟩
  have hp' : p = 3 ∨ p = 4 ∨ p = 5 := by simpa using hp
  rcases hp' with rfl | rfl | rfl <;> exact ⟨by decide, emptyTables_locked (by decide)⟩

theorem vmmAlloc_correct_first :
    walk (vmmAlloc 0x40000000 0x5000 3 emptyTables).1.mem
      (vmmAlloc 0x40000000 0x5000 3 emptyTables).1.root 0x40000000 = some ⟨0, 0x5003⟩ :=
  (vmmAlloc_correct emptyTables 0x40000000 0x5000 3 emptyTables_tree emptyTables_pmm
    emptyTables_noLarge (vmmAlloc_supplied _ _ emptyTables_tree emptyTables_pmm
      (emptyTables_noLarge _) emptyTables_supplied)).1

end Vmm
end LucidiOS
