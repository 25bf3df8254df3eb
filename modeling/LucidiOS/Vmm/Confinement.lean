import LucidiOS.Pmm.FrameOwnership
import LucidiOS.Vmm.Correctness
import LucidiOS.Vmm.FirstStore

/-! Which frames `vmm_alloc` writes to. The descent does not look at the PS bit, so it takes the
frame of a large page for a table. -/
namespace LucidiOS.Vmm
open ByteMemory Paging Pmm

/-- Apart from the page bitmap, only tables of the hierarchy and pages returned by `pmm_alloc2`
during the call change. -/
def Confined (s : Kernel) (virt physAddr : Word) (flags : BitVec 8) : Prop :=
  let after := vmmAlloc virt physAddr flags s
  ∀ x, after.1.mem x ≠ s.mem x →
    s.IsTable (x / 4096) ∨ (∃ r ∈ after.2, pageOf r = x / 4096) ∨ s.HoldsBitmap (x / 4096)

/-- The first slot that `vmm_alloc` stores to. -/
def firstSlot (s : Kernel) (virt : Word) : Slot := firstStore s.mem s.root (indices virt)

theorem firstSlot_missing_le (s : Kernel) (virt : Word) : (firstSlot s virt).missing ≤ 3 :=
  firstStore_missing_le s.mem s.root (indices virt)

/-- For a page that is mapped already no table is missing. -/
theorem firstSlot_missing_of_walk {s : Kernel} {virt w : Word}
    (hw : walk s.mem s.root virt = some ⟨0, w⟩) : (firstSlot s virt).missing = 0 := by
  have hindices : indices virt =
      [index virt 3, index virt 2, index virt 1] ++ [index virt 0] := rfl
  rw [walk, hindices] at hw
  rw [firstSlot, hindices]
  exact firstStore_missing_of_walk hw

/-- No large page is on the path of `virt`, or the slot that is reached through it happens to lie
in a table or in a page that the call is about to take, or holds the stored entry already. -/
def Harmless (s : Kernel) (virt physAddr : Word) (flags : BitVec 8) : Prop :=
  let slot := firstSlot s virt
  NoLarge s.mem s.root (indices virt) ∨ s.IsTable slot.table ∨
    slot.table ∈ s.freePages.take slot.missing ∨
    entry s.mem slot.table slot.index = pageEntry physAddr flags

section Descend
variable {s : Kernel} {N T : ℕ} {i : Fin 512}

/-- A page just linked leads at most to itself. -/
theorem linkTable_closed (hp : PmmApart s) (hN : N < scanned s.bitmapLength)
    (hfree : s.locked N = false) (hT : ¬s.HoldsBitmap T) : Closed (linkTable s N T i) [N] := by
  have hN' : N < 64 * s.bitmapLength.toNat := by
    have := scanned_le s.bitmapLength
    omega
  obtain ⟨hNlt, hNapart⟩ := hp.free N hN' hfree
  constructor
  · exact linkTable_apart hp hN' hfree hT
  · intro t ht
    rw [List.mem_singleton.mp ht]
    exact ⟨hN', by rw [linkTable_locked hp.fits hN' hNapart hT hN']; simp⟩
  · intro t ht
    rw [List.mem_singleton.mp ht]
    exact hNapart
  · intro t ht j hpresent
    rw [List.mem_singleton.mp ht] at hpresent ⊢
    by_cases hslot : N = T ∧ j = i
    · rw [hslot.2, hslot.1, linkTable_slot, ← hslot.1, (tableEntry_spec hNlt).1]
      exact List.mem_cons_self
    · rw [linkTable_new s (by tauto)] at hpresent
      contradiction

/-- A descent from the state `s` to `d` links the free page `N` in the slot, and all that it does
after that happens in this page and in the pages `new` that it takes then. -/
structure Links (s : Kernel) (results : List Word) (d : Entered) (slot : Slot) (N : ℕ)
    (new : List ℕ) : Prop where
  absent : present (entry s.mem slot.table slot.index) = false
  low : N < scanned s.bitmapLength
  free : s.locked N = false
  results : d.results = results ++ (N :: new).map pageAddress
  pages : s.freePages = N :: (linkTable s N slot.table slot.index).freePages
  grows : Grows (linkTable s N slot.table slot.index) d.kernel [N] new
  length_le : new.length + 1 ≤ slot.missing
  length_eq : N ≠ slot.table → new.length + 1 = slot.missing
  ends : ∃ T' ∈ N :: new, T' < 2 ^ 40 ∧ phys s.gHhdmOffset d.table = 4096 * T'

/-- Where the entry is absent the descent goes on in a page of its own. -/
theorem descend_links {e : Entered} {idx : Word} {idxs : List Word} {path : List (Fin 512)}
    (hp : PmmApart e.kernel) (hptr : phys e.kernel.gHhdmOffset e.table = 4096 * T)
    (hlt : T < 2 ^ 40) (hidx : idx.toNat = i) (hpath : idxs.map BitVec.toNat = path.map Fin.val)
    (hsep : ¬e.kernel.HoldsBitmap T) (habs : present (entry e.kernel.mem T i) = false)
    (hr : ∀ r ∈ (descend e (idx :: idxs)).results, r ≠ 0) :
    ∃ N new, Links e.kernel e.results (descend e (idx :: idxs)) ⟨T, i, idxs.length + 1⟩ N new := by
  rw [descend_cons] at hr ⊢
  obtain ⟨N, hN, hfree, hfirst, hNlt, hNptr, hnext⟩ := Entered.next_absent hp hptr hlt hidx habs
    fun r hmem => hr r (descend_results_mono _ _ hmem)
  have hN' : N < 64 * e.kernel.bitmapLength.toNat := by
    have := scanned_le e.kernel.bitmapLength
    omega
  have hNapart := (hp.free N hN' hfree).2
  rw [hnext] at hr ⊢
  obtain ⟨new, hres, hle, hcount, hgrows, hT'⟩ := descend_closed idxs path
    (e := ⟨_, linkTable e.kernel N T i, e.results ++ [pageAddress N]⟩) (R := [N]) (T := N)
    (linkTable_closed hp hN hfree hsep) (by simp) hNptr hNlt hpath hr
  refine ⟨N, new, habs, hN, hfree, ?_, ?_, hgrows, Nat.succ_le_succ hle, fun hne => ?_, hT'⟩
  · rw [hres, List.map_cons, List.append_assoc]
    rfl
  · exact freePages_cons hN hfree hfirst rfl
      fun q hq => linkTable_locked hp.fits hN' hNapart hsep hq
  · refine congrArg Nat.succ (hcount fun j => ?_)
    rw [linkTable_new e.kernel (Or.inl hne)]
    rfl

/-- The descent reaches the last level without a store, or it links a page in the first slot. -/
theorem descend_first (idxs : List Word) (path : List (Fin 512)) (i₀ : Fin 512) {e : Entered}
    {T : ℕ} {slot : Slot} (hslot : firstStore e.kernel.mem T (path ++ [i₀]) = slot)
    (hp : PmmApart e.kernel) (hptr : phys e.kernel.gHhdmOffset e.table = 4096 * T)
    (hlt : T < 2 ^ 40) (hpath : idxs.map BitVec.toNat = path.map Fin.val)
    (hsep : ¬e.kernel.HoldsBitmap slot.table) (hr : ∀ r ∈ (descend e idxs).results, r ≠ 0) :
    (slot.missing = 0 ∧ slot.index = i₀ ∧ slot.table < 2 ^ 40 ∧
      (descend e idxs).kernel = e.kernel ∧ (descend e idxs).results = e.results ∧
      phys e.kernel.gHhdmOffset (descend e idxs).table = 4096 * slot.table) ∨
    ∃ N new, Links e.kernel e.results (descend e idxs) slot N new := by
  induction idxs generalizing e T path with
  | nil =>
    have hnil : path = [] := by simpa using hpath.symm
    subst hnil hslot
    exact Or.inl ⟨rfl, rfl, hlt, rfl, rfl, hptr⟩
  | cons idx idxs ih =>
    obtain ⟨i, path, rfl, hidx, htail⟩ := indices_cons hpath
    rw [List.cons_append, firstStore_cons _ _ _ (by simp)] at hslot
    cases hpresent : present (entry e.kernel.mem T i) with
    | true =>
      rw [if_pos hpresent] at hslot
      rw [descend_cons, Entered.next_present hptr hlt hidx hpresent] at hr ⊢
      exact ih path
        (e := ⟨(entry e.kernel.mem T i &&& pteMask) + e.kernel.gHhdmOffset, e.kernel, e.results⟩)
        hslot hp (phys_mask _ _) (frame_lt _) htail hsep hr
    | false =>
      have hlen : (path ++ [i₀]).length = idxs.length + 1 := by
        have := congrArg List.length htail
        rw [List.length_map, List.length_map] at this
        rw [List.length_append, List.length_singleton, this]
      rw [if_neg (by simp [hpresent]), hlen] at hslot
      subst hslot
      exact Or.inr (descend_links hp hptr hlt hidx htail hsep hpresent hr)

end Descend

section Alloc
variable {s : Kernel} {virt physAddr : Word} {flags : BitVec 8}

/-- A call either stores the page's entry in the first slot, or links a page there, takes the pages
that are missing below and stores the entry in one of them. -/
theorem vmmAlloc_first {slot : Slot} (hslot : firstSlot s virt = slot) (hp : PmmApart s)
    (hsep : ¬s.HoldsBitmap slot.table) (hr : ∀ r ∈ (vmmAlloc virt physAddr flags s).2, r ≠ 0) :
    (slot.missing = 0 ∧ (vmmAlloc virt physAddr flags s).2 = [] ∧
      (vmmAlloc virt physAddr flags s).1 =
        storeEntry s slot.table slot.index (pageEntry physAddr flags)) ∨
    (present (entry s.mem slot.table slot.index) = false ∧
      ∃ N new k T', N < scanned s.bitmapLength ∧ s.locked N = false ∧
        (vmmAlloc virt physAddr flags s).2 = (N :: new).map pageAddress ∧
        s.freePages = N :: new ++ k.freePages ∧
        Grows (linkTable s N slot.table slot.index) k [N] new ∧
        new.length + 1 ≤ slot.missing ∧ (N ≠ slot.table → new.length + 1 = slot.missing) ∧
        T' ∈ N :: new ∧ (vmmAlloc virt physAddr flags s).1 =
          storeEntry k T' (index virt 0) (pageEntry physAddr flags)) := by
  obtain ⟨hres, hstore⟩ := vmmAlloc_eq virt physAddr flags s
  rw [hres] at hr ⊢
  rcases descend_first (descentIndices virt) [index virt 3, index virt 2, index virt 1]
    (index virt 0) (e := topTable s) hslot hp (phys_mask _ _) (frame_lt s.cr3)
    (descentIndices_toNat virt) hsep hr with h | h
  · obtain ⟨h0, hindex, hlt, hkernel, hresults, hptr⟩ := h
    refine Or.inl ⟨h0, hresults, ?_⟩
    rw [hstore slot.table hptr hlt, hkernel, hindex]
    rfl
  · obtain ⟨N, new, hlinks⟩ := h
    obtain ⟨T', hT', hlt, hptr⟩ := hlinks.ends
    refine Or.inr ⟨hlinks.absent, N, new, _, T', hlinks.low, hlinks.free, hlinks.results, ?_,
      hlinks.grows, hlinks.length_le, hlinks.length_eq, hT', hstore T' hptr hlt⟩
    rw [List.cons_append, ← hlinks.grows.pages]
    exact hlinks.pages

theorem pageOf_pageAddress (hp : PmmApart s) {N : ℕ} (h : N ∈ s.freePages) :
    pageOf (pageAddress N) = N := by
  rw [mem_freePages] at h
  have hsc := scanned_le s.bitmapLength
  have := (hp.free N (by omega) h.2).1
  rw [pageOf, pageAddress, page_address_toNat (by omega)]
  omega

/-- The pages that were returned are the first free ones. -/
theorem exists_pageOf_iff (hp : PmmApart s) {ps rest : List ℕ} (hpages : s.freePages = ps ++ rest)
    {p : ℕ} : (∃ r ∈ ps.map pageAddress, pageOf r = p) ↔ p ∈ ps := by
  have hof (q : ℕ) (hq : q ∈ ps) : pageOf (pageAddress q) = q :=
    pageOf_pageAddress hp (hpages ▸ List.mem_append_left _ hq)
  constructor
  · rintro ⟨r, hr, rfl⟩
    obtain ⟨q, hq, rfl⟩ := List.mem_map.mp hr
    rwa [hof q hq]
  · exact fun h => ⟨pageAddress p, List.mem_map_of_mem h, hof p h⟩

theorem confined_of_harmless (hp : PmmApart s) (hsep : ¬s.HoldsBitmap (firstSlot s virt).table)
    (hr : ∀ r ∈ (vmmAlloc virt physAddr flags s).2, r ≠ 0) (h : Harmless s virt physAddr flags) :
    Confined s virt physAddr flags := by
  have htable : NoLarge s.mem s.root (indices virt) → s.IsTable (firstSlot s virt).table := fun h =>
    firstStore_table (p := []) h (by simp [indices]) (by simp [indices]) (tableAt_nil _ _)
  unfold Harmless at h
  generalize hslot : firstSlot s virt = slot at hsep h htable
  intro x hx
  rcases vmmAlloc_first hslot hp hsep hr with ⟨h0, hres, heq⟩ | ⟨habs, N, new, k, T', hN, hfree,
    hres, hpages, hgrows, hle, hcount, hT', heq⟩
  · rw [heq] at hx
    have hxD : x / 4096 = slot.table := by
      by_contra hc
      exact hx (store_outside_frame _ _ _ hc)
    rcases h with h | h | h | h
    · exact Or.inl (hxD ▸ htable h)
    · exact Or.inl (hxD ▸ h)
    · simp [h0] at h
    · rw [storeEntry, ← h, entry, store64_load64] at hx
      exact absurd rfl hx
  · rw [hres, exists_pageOf_iff hp hpages]
    by_cases htaken : x / 4096 ∈ N :: new
    · exact Or.inr (Or.inl htaken)
    by_cases hbitmap : s.HoldsBitmap (x / 4096)
    · exact Or.inr (Or.inr hbitmap)
    have hxN : x / 4096 ≠ N := fun hc => htaken (hc ▸ List.mem_cons_self)
    have hN' : N < 64 * s.bitmapLength.toNat := by
      have := scanned_le s.bitmapLength
      omega
    -- outside the pages taken only the first slot is left
    have hxD : x / 4096 = slot.table := by
      by_contra hc
      apply hx
      rw [heq, storeEntry]
      refine (store_outside_frame _ _ _ fun hc => htaken (hc ▸ hT')).trans ?_
      rw [hgrows.outside x htaken hbitmap, linkTable_outside hp.fits hN' _ _ hxN hc hbitmap]
    rcases h with h | h | h | h
    · exact Or.inl (hxD ▸ htable h)
    · exact Or.inl (hxD ▸ h)
    · have hND : N ≠ slot.table := fun hc => hxN (hxD.trans hc.symm)
      rw [hpages, ← hcount hND, show new.length + 1 = (N :: new).length from rfl,
        List.take_left] at h
      exact absurd (hxD ▸ h) htaken
    · rw [h, pageEntry_present] at habs
      contradiction

/-- A slot that a confined call has changed lies in a table or in a page that was returned. -/
theorem Confined.entry_eq (h : Confined s virt physAddr flags) {T : ℕ} {i : Fin 512}
    (htable : ¬s.IsTable T) (hsep : ¬s.HoldsBitmap T)
    (htaken : ¬∃ r ∈ (vmmAlloc virt physAddr flags s).2, pageOf r = T) :
    entry (vmmAlloc virt physAddr flags s).1.mem T i = entry s.mem T i := by
  by_contra hdiff
  obtain ⟨j, hj, hbyte⟩ := exists_byte_ne hdiff
  have hframe : (4096 * T + 8 * i + j) / 4096 = T := by omega
  rcases h _ hbyte with hx | hx | hx
  · exact htable (hframe ▸ hx)
  · exact htaken (hframe ▸ hx)
  · exact hsep (hframe ▸ hx)

/-- A harmful store is seen in its slot. -/
theorem harmless_of_confined (hp : PmmApart s) (hsep : ¬s.HoldsBitmap (firstSlot s virt).table)
    (hr : ∀ r ∈ (vmmAlloc virt physAddr flags s).2, r ≠ 0) (h : Confined s virt physAddr flags) :
    Harmless s virt physAddr flags := by
  unfold Harmless
  generalize hslot : firstSlot s virt = slot at hsep ⊢
  by_contra hc
  simp only [not_or] at hc
  obtain ⟨-, hnotTable, hnotTaken, hne⟩ := hc
  rcases vmmAlloc_first hslot hp hsep hr with ⟨h0, hres, heq⟩ | ⟨habs, N, new, k, T', hN, hfree,
    hres, hpages, hgrows, hle, hcount, hT', heq⟩
  · have hsame := h.entry_eq (i := slot.index) hnotTable hsep (by simp [hres])
    rw [heq, storeEntry, entry_store] at hsame
    exact hne hsame.symm
  · have hnotNew : slot.table ∉ N :: new := by
      intro hmem
      apply hnotTaken
      rw [hpages, List.take_append, List.take_of_length_le (by simpa using hle)]
      exact List.mem_append_left _ hmem
    have hT : slot.table ≠ T' := fun hc => hnotNew (hc ▸ hT')
    have hkeep : entry k.mem slot.table slot.index = tableEntry N := by
      rw [← linkTable_slot s N slot.table slot.index]
      exact entry_congr fun x hx => hgrows.outside x (hx ▸ hnotNew) (hx ▸ hsep)
    have hNlt := (hp.free N (by have := scanned_le s.bitmapLength; omega) hfree).1
    have hsame := h.entry_eq (i := slot.index) hnotTable hsep
      (by rwa [hres, exists_pageOf_iff hp hpages])
    rw [heq, storeEntry, entry_store_apart _ _ (Or.inl hT), hkeep] at hsame
    rw [← hsame, (tableEntry_spec hNlt).2.1] at habs
    exact Bool.noConfusion habs

/-- A `vmm_alloc` that gets the pages it asks for writes to tables and to these pages only, exactly
when the path of its address has no large page or the store made through one is harmless. -/
theorem vmmAlloc_confined_iff (s : Kernel) (virt physAddr : Word) (flags : BitVec 8)
    (hp : PmmApart s) (hsep : ¬s.HoldsBitmap (firstSlot s virt).table)
    (hr : ∀ r ∈ (vmmAlloc virt physAddr flags s).2, r ≠ 0) :
    Confined s virt physAddr flags ↔ Harmless s virt physAddr flags :=
  ⟨harmless_of_confined hp hsep hr, confined_of_harmless hp hsep hr⟩

end Alloc

/-- Tables in frames 1, 3 and 4, and a 2 MiB page at frame 1024 for the addresses from 2 MiB on. The
page bitmap is in frame 2. -/
def largePage : Kernel where
  mem := ofWords fun k =>
    if k = 512 then 0x3003 else if k = 1536 then 0x4003 else if k = 2049 then 0x400083
    else if k = 1024 then 0x1F else if k = 1040 then 1 else 0
  cr3 := 0x1000
  gHhdmOffset := 0
  bitmapLength := 64
  bitmap := 0x2000
  heapBitmap := 0
  ioapicBase := 0

theorem largePage_child {t u : ℕ} {i : Fin 512} (ht : t = 1 ∨ t = 3 ∨ t = 4)
    (h : child largePage.mem t i = some u) : u = 3 ∨ u = 4 := by
  obtain ⟨hpresent, hlarge, hframe⟩ := child_eq_some.mp h
  have hi := i.isLt
  rw [largePage, entry_ofWords] at hpresent hlarge hframe
  split_ifs at hpresent hlarge hframe with h1 h2 h3 h4 h5
  · exact Or.inl hframe.symm
  · exact Or.inr hframe.symm
  · exact absurd hlarge (by decide)
  · omega
  · omega
  · exact absurd hpresent (by decide)

theorem largePage_table {t : ℕ} (h : largePage.IsTable t) : t = 1 ∨ t = 3 ∨ t = 4 := by
  obtain ⟨p, -, h⟩ := h
  induction p using List.reverseRecOn generalizing t with
  | nil => exact Or.inl (Option.some.inj h).symm
  | append_singleton p i ih =>
    rw [tableAt_snoc, Option.bind_eq_some_iff] at h
    obtain ⟨u, hu, hchild⟩ := h
    exact Or.inr (largePage_child (ih hu) hchild)

theorem largePage_pmm : PmmApart largePage := by
  have hfits : Fits largePage := by
    unfold Fits
    decide
  have htwo : largePage.locked 2 = true :=
    (bit_ofWords (s := largePage) (k := 1024) hfits rfl (by decide)).trans (by decide)
  refine ⟨hfits, fun p hp hfree => ?_⟩
  have hlen : largePage.bitmapLength.toNat = 64 := rfl
  have hphys : largePage.bitmapPhys = 8192 := rfl
  rw [hlen] at hp
  refine ⟨by omega, fun hb => ?_⟩
  rw [Kernel.HoldsBitmap, hphys, hlen] at hb
  obtain rfl : p = 2 := by omega
  rw [hfree] at htwo
  contradiction

theorem largePage_notTable : ¬largePage.IsTable 1024 := fun h => by
  have := largePage_table h
  omega

/-- The store through the large page is not harmless. -/
theorem vmmAlloc_confined_iff_large :
    ¬Harmless largePage 0x200000 0x5000 3 ∧ ¬Confined largePage 0x200000 0x5000 3 := by
  have hslot : firstSlot largePage 0x200000 = ⟨1024, 0, 0⟩ := rfl
  have hharm : ¬Harmless largePage 0x200000 0x5000 3 := by
    unfold Harmless
    rw [hslot]
    rintro (h | h | h | h)
    · -- the entry of the large page is on the path
      have := h [0, 0] 1 4 ⟨[0], by decide⟩ (by decide) (by decide) (by decide)
      exact absurd this (by decide)
    · exact largePage_notTable h
    · simp at h
    · exact absurd h (by decide)
  refine ⟨hharm, fun h => hharm ((vmmAlloc_confined_iff largePage 0x200000 0x5000 3 largePage_pmm
    ?_ ?_).mp h)⟩
  · rw [hslot]
    unfold Kernel.HoldsBitmap
    decide
  · have hresults : (vmmAlloc 0x200000 0x5000 3 largePage).2 = [] := by decide
    rw [hresults]
    exact fun _ hr => absurd hr List.not_mem_nil

/-- Mapping the first address of the large page stores the new entry over the first bytes of its
data. -/
theorem largePage_overwritten :
    ¬Confined largePage 0x200000 0x5000 3 ∧
    walk largePage.mem largePage.root 0x200000 = some ⟨1, 0x400083⟩ ∧
    (vmmAlloc 0x200000 0x5000 3 largePage).2 = [] ∧
    (vmmAlloc 0x200000 0x5000 3 largePage).1.mem 0x400000 = 3 ∧ largePage.mem 0x400000 = 0 := by
  have hafter : (vmmAlloc 0x200000 0x5000 3 largePage).1.mem 0x400000 = 3 := by decide
  have hbefore : largePage.mem 0x400000 = 0 := by decide
  have hresults : (vmmAlloc 0x200000 0x5000 3 largePage).2 = [] := by decide
  refine ⟨fun h => ?_, by decide, hresults, hafter, hbefore⟩
  rcases h 0x400000 (by rw [hafter, hbefore]; decide) with h | ⟨r, hr, -⟩ | h
  · exact largePage_notTable h
  · rw [hresults] at hr
    contradiction
  · unfold Kernel.HoldsBitmap at h
    revert h
    decide

end LucidiOS.Vmm
