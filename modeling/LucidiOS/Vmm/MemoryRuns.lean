import LucidiOS.Vmm.DirectMap

/-! The memory manager over whole runs: `pmm_alloc2`, `pmm_free_page` and `vmm_alloc` called in any
order, with stores to the frames held in between, act as one address space. -/
namespace LucidiOS.Vmm
open ByteMemory Paging Pmm

/-- What the memory manager is for: a page map, and frames that have one owner at a time and keep
the bytes stored in them. -/
structure PagedMemory where
  pages : ℕ → Option Leaf
  held : List ℕ
  bytes : Memory

namespace PagedMemory

/-- Frame `p` gets an owner, with the bytes it has in `m`. -/
def take (a : PagedMemory) (p : ℕ) (m : Memory) : PagedMemory :=
  { a with held := p :: a.held, bytes := fun x => if x / 4096 = p then m x else a.bytes x }

def drop (a : PagedMemory) (p : ℕ) : PagedMemory := { a with held := a.held.erase p }

@[simp] theorem drop_pages (a : PagedMemory) (p : ℕ) : (a.drop p).pages = a.pages := rfl

def map (a : PagedMemory) (virt : Word) (l : Leaf) : PagedMemory :=
  { a with pages := Function.update a.pages (pageNumber virt) (some l) }

@[simp] theorem map_pages (a : PagedMemory) (virt : Word) (l : Leaf) :
    (a.map virt l).pages (pageNumber virt) = some l := Function.update_self _ _ _

def store (a : PagedMemory) (x : ℕ) (b : BitVec 8) : PagedMemory :=
  { a with bytes := Function.update a.bytes x b }

/-- `pmm_alloc2` returned `r`. -/
def returned (a : PagedMemory) (r : Word) (m : Memory) : PagedMemory :=
  if r = 0 then a else a.take (pageOf r) m

/-- Nothing is held, and pages lead where the tables of `s` say. -/
def initial (s : Kernel) : PagedMemory where
  pages n := walk s.mem s.root (BitVec.ofNat 64 (4096 * n))
  held := []
  bytes := s.mem

end PagedMemory

/-- Every order of calls in which `vmm_alloc` gets the pages it asks for, and only frames that are
held are freed or stored to. -/
inductive MemoryRun (start : Kernel) : Kernel → PagedMemory → Prop
  | start : MemoryRun start start (.initial start)
  | alloc {s : Kernel} {a : PagedMemory} (run : MemoryRun start s a) :
      MemoryRun start { s with mem := (pmmAlloc2 s.pmm s.bitmapLength s.mem).2 }
        (a.returned (pmmAlloc2 s.pmm s.bitmapLength s.mem).1 s.mem)
  | free {s : Kernel} {a : PagedMemory} {p : ℕ} (run : MemoryRun start s a) (hp : p ∈ a.held) :
      MemoryRun start { s with mem := pmmFreePage s.pmm (BitVec.ofNat 64 p) s.mem } (a.drop p)
  | map {s : Kernel} {a : PagedMemory} {virt physAddr : Word} {flags : BitVec 8}
      (run : MemoryRun start s a) (hr : ∀ r ∈ (vmmAlloc virt physAddr flags s).2, r ≠ 0) :
      MemoryRun start (vmmAlloc virt physAddr flags s).1
        (a.map virt ⟨0, pageEntry physAddr flags⟩)
  | store {s : Kernel} {a : PagedMemory} {x : ℕ} {b : BitVec 8} (run : MemoryRun start s a)
      (hx : x / 4096 ∈ a.held) :
      MemoryRun start { s with mem := Function.update s.mem x b } (a.store x b)

/-- A tree of small pages, a page bitmap apart from it, and page 0 locked. -/
structure Sound (s : Kernel) : Prop where
  tree : PageTree s
  pmm : PmmApart s
  noLarge : ∀ path, NoLarge s.mem s.root path
  zero : s.locked 0 = true
  length_pos : 0 < s.bitmapLength.toNat

/-- Page `p` is not the memory manager's: not given out, no table and not in the page bitmap. -/
def Reserved (s : Kernel) (p : ℕ) : Prop :=
  (p < 64 * s.bitmapLength.toNat → s.locked p = true) ∧ ¬s.IsTable p ∧ ¬s.HoldsBitmap p

/-- The memory of `s` shows the address space `a`. Every locked page is accounted for. -/
structure Represents (start s : Kernel) (a : PagedMemory) : Prop where
  setup : s = { start with mem := s.mem }
  sound : Sound s
  translates : ∀ v, walk s.mem s.root v = a.pages (pageNumber v)
  distinct : a.held.Nodup
  owned : ∀ p ∈ a.held, p < 64 * s.bitmapLength.toNat ∧ start.locked p = false ∧
    ¬s.IsTable p ∧ ¬s.HoldsBitmap p
  contents : ∀ x, x / 4096 ∈ a.held → s.mem x = a.bytes x
  accounts : ∀ q < 64 * s.bitmapLength.toNat,
    s.locked q = true ↔ start.locked q = true ∨ q ∈ a.held ∨ s.IsTable q
  tables : ∀ t, s.IsTable t → start.IsTable t ∨ start.locked t = false
  reserved : ∀ x, Reserved start (x / 4096) → s.mem x = start.mem x

section Steps
variable {start s : Kernel} {a : PagedMemory} {m : Memory} {p : ℕ}

/-- A change of memory outside the tables keeps the hierarchy. -/
theorem Sound.congr (h : Sound s) (hmem : ∀ x, s.IsTable (x / 4096) → m x = s.mem x)
    (htable : ∀ t, s.IsTable t → ({ s with mem := m } : Kernel).locked t = true)
    (hfree : ∀ q < 64 * s.bitmapLength.toNat, ({ s with mem := m } : Kernel).locked q = false →
      q < 2 ^ 40 ∧ ¬s.HoldsBitmap q)
    (hzero : ({ s with mem := m } : Kernel).locked 0 = true) :
    Sound { s with mem := m } ∧ (∀ t, ({ s with mem := m } : Kernel).IsTable t ↔ s.IsTable t) ∧
      ∀ v, walk m s.root v = walk s.mem s.root v := by
  have hframe (t : ℕ) (ht : s.IsTable t) (x : ℕ) (hx : x / 4096 = t) : m x = s.mem x :=
    hmem x (hx ▸ ht)
  obtain ⟨htables, hentry, hwalk⟩ := walk_congr hframe
  have hiff (t : ℕ) : ({ s with mem := m } : Kernel).IsTable t ↔ s.IsTable t :=
    exists_congr fun p => and_congr_right fun hlen => by rw [← htables p hlen]; rfl
  refine ⟨⟨⟨?_, ?_, ?_⟩, ⟨h.pmm.fits, hfree⟩, ?_, hzero, h.length_pos⟩, hiff, hwalk⟩
  · intro p q t hlen hlen' hpt hqt
    exact h.tree.distinct p q t hlen hlen' ((htables p hlen) ▸ hpt) ((htables q hlen') ▸ hqt)
  · intro t ht
    rw [hiff] at ht
    exact ⟨(h.tree.locked t ht).1, htable t ht⟩
  · exact fun t ht => h.tree.apart t ((hiff t).mp ht)
  · intro path p i t hpre hlen htab hpresent
    change tableAt m s.root p = some t at htab
    rw [htables p (by omega)] at htab
    rw [hentry t ⟨p, by omega, htab⟩] at hpresent ⊢
    exact h.noLarge path p i t hpre hlen htab hpresent

/-- The translation of a page depends on its number only. -/
theorem initial_pages (s : Kernel) (v : Word) :
    walk s.mem s.root v = (PagedMemory.initial s).pages (pageNumber v) := by
  have hpage : pageNumber (BitVec.ofNat 64 (4096 * pageNumber v)) = pageNumber v := by
    unfold pageNumber
    rw [BitVec.toNat_ofNat]
    omega
  simp only [PagedMemory.initial, walk, indices_eq_iff.mpr hpage]

theorem represents_initial (h : Sound s) : Represents s s (.initial s) where
  setup := rfl
  sound := h
  translates := initial_pages s
  distinct := List.nodup_nil
  owned _ hp := absurd hp List.not_mem_nil
  contents _ hx := absurd hx List.not_mem_nil
  accounts q _ := ⟨Or.inl, fun hq => hq.elim id fun hq => hq.elim
    (fun hq => absurd hq List.not_mem_nil) fun hq => (h.tree.locked q hq).2⟩
  tables _ ht := Or.inl ht
  reserved _ _ := rfl

/-- `pmm_alloc2` refuses without a free page, and otherwise locks the first one. -/
theorem Sound.alloc (h : Sound s) :
    (pmmAlloc2 s.pmm s.bitmapLength s.mem = (0, s.mem) ∧
      ∀ q < scanned s.bitmapLength, s.locked q = true) ∨
    ∃ p < scanned s.bitmapLength, s.locked p = false ∧ pageAddress p ≠ 0 ∧
      pageOf (pageAddress p) = p ∧
      pmmAlloc2 s.pmm s.bitmapLength s.mem = (pageAddress p, s.pmm.setBit p s.mem) := by
  rw [pmmAlloc2_eq]
  cases hf : s.pmm.firstClear s.mem (scanned s.bitmapLength) with
  | none => exact Or.inl ⟨rfl, WordArray.firstClear_eq_none.mp hf⟩
  | some p =>
    obtain ⟨hp, hclear, -⟩ := WordArray.firstClear_eq_some.mp hf
    have hof := pageOf_pageAddress h.pmm (mem_freePages.mpr ⟨hp, hclear⟩)
    refine Or.inr ⟨p, hp, hclear, fun hzero => ?_, hof, rfl⟩
    -- only page 0 has the address 0
    rw [hzero] at hof
    have hlocked := h.zero
    rw [show (0 : ℕ) = p from hof, Kernel.locked, hclear] at hlocked
    contradiction

theorem Represents.setup_mem (h : Represents start s a) (m : Memory) :
    ({ s with mem := m } : Kernel) = { start with mem := m } := by rw [h.setup]

theorem Represents.length_eq (h : Represents start s a) :
    s.bitmapLength = start.bitmapLength := by rw [h.setup]

theorem Represents.holdsBitmap_eq (h : Represents start s a) (p : ℕ) :
    s.HoldsBitmap p ↔ start.HoldsBitmap p := by
  rw [h.setup]
  exact Iff.rfl

/-- A page locked at the start stays locked. -/
theorem Represents.stays (h : Represents start s a) {q : ℕ} (hq : q < 64 * s.bitmapLength.toNat)
    (hl : s.locked q = false) : start.locked q = false := by
  by_contra hc
  rw [(h.accounts q hq).mpr (Or.inl (by simpa using hc))] at hl
  contradiction

theorem Represents.reserved_apart (h : Represents start s a) (hp : Reserved start p) :
    ¬s.IsTable p ∧ ¬s.HoldsBitmap p ∧ p ∉ a.held := by
  have hfree (hlt : p < 64 * s.bitmapLength.toNat) : start.locked p ≠ false := by
    rw [hp.1 (h.length_eq ▸ hlt)]
    decide
  refine ⟨fun ht => ?_, (h.holdsBitmap_eq p).not.mpr hp.2.2, fun hheld => ?_⟩
  · rcases h.tables p ht with hs | hs
    · exact hp.2.1 hs
    · exact hfree (h.sound.tree.locked p ht).1 hs
  · exact hfree (h.owned p hheld).1 (h.owned p hheld).2.1

/-- Memory changes in the page bitmap and in held frames, so that the bitmap accounts for the frames
that are held then. -/
theorem Represents.update (hstart : Sound start) (h : Represents start s a) {held : List ℕ}
    {bytes : Memory} (hdistinct : held.Nodup)
    (hmem : ∀ x, ¬s.HoldsBitmap (x / 4096) → x / 4096 ∉ a.held → m x = s.mem x)
    (howned : ∀ q ∈ held, q < 64 * s.bitmapLength.toNat ∧ start.locked q = false ∧
      ¬s.IsTable q ∧ ¬s.HoldsBitmap q)
    (hcontents : ∀ x, x / 4096 ∈ held → m x = bytes x)
    (hlocked : ∀ q < 64 * s.bitmapLength.toNat, ({ s with mem := m } : Kernel).locked q = true ↔
      start.locked q = true ∨ q ∈ held ∨ s.IsTable q) :
    Represents start { s with mem := m } ⟨a.pages, held, bytes⟩ := by
  have hzero : ({ s with mem := m } : Kernel).locked 0 = true :=
    (hlocked 0 (by have := h.sound.length_pos; omega)).mpr (Or.inl hstart.zero)
  obtain ⟨hsound, htables, hwalk⟩ := h.sound.congr (m := m)
    (fun x hx => hmem x (h.sound.tree.apart _ hx) fun hc => (h.owned _ hc).2.2.1 hx)
    (fun t ht => (hlocked t (h.sound.tree.locked t ht).1).mpr (Or.inr (Or.inr ht)))
    (fun q hq hl => by
      have hfree : start.locked q = false := by
        by_contra hc
        rw [(hlocked q hq).mpr (Or.inl (by simpa using hc))] at hl
        contradiction
      rw [h.holdsBitmap_eq]
      exact hstart.pmm.free q (h.length_eq ▸ hq) hfree)
    hzero
  refine ⟨h.setup_mem m, hsound, fun v => (hwalk v).trans (h.translates v), hdistinct,
    fun q hq => ?_, hcontents, fun q hq => ?_, fun t ht => h.tables t ((htables t).mp ht),
    fun x hx => ?_⟩
  · obtain ⟨hlt, hfree, htable, hbitmap⟩ := howned q hq
    exact ⟨hlt, hfree, (htables q).not.mpr htable, hbitmap⟩
  · rw [htables q]
    exact hlocked q hq
  · obtain ⟨-, hbitmap, hheld⟩ := h.reserved_apart hx
    exact (hmem x hbitmap hheld).trans (h.reserved x hx)

theorem Represents.take (hstart : Sound start) (h : Represents start s a)
    (hp : p < scanned s.bitmapLength) (hfree : s.locked p = false) :
    Represents start { s with mem := s.pmm.setBit p s.mem } (a.take p s.mem) := by
  have hp' : p < 64 * s.bitmapLength.toNat := by
    have := scanned_le s.bitmapLength
    omega
  have hfit := h.sound.pmm.fits
  have hapart := (h.sound.pmm.free p hp' hfree).2
  have hout (x : ℕ) (hx : ¬s.HoldsBitmap (x / 4096)) : s.pmm.setBit p s.mem x = s.mem x :=
    setBit_outside hfit s.mem hp' hx
  have hnotTable : ¬s.IsTable p := fun ht => by
    rw [(h.sound.tree.locked p ht).2] at hfree
    contradiction
  have hnotHeld : p ∉ a.held := fun hc => by
    rw [(h.accounts p hp').mpr (Or.inr (Or.inl hc))] at hfree
    contradiction
  refine h.update hstart (List.nodup_cons.mpr ⟨hnotHeld, h.distinct⟩) (fun x hx _ => hout x hx)
    (fun q hq => ?_) (fun x hx => ?_) fun q hq => ?_
  · rcases List.mem_cons.mp hq with rfl | hq
    · exact ⟨hp', h.stays hp' hfree, hnotTable, hapart⟩
    · exact h.owned q hq
  · rcases List.mem_cons.mp hx with hxp | hx
    · rw [hout x (hxp ▸ hapart), if_pos hxp]
    · have hne : x / 4096 ≠ p := fun hc => hnotHeld (hc ▸ hx)
      rw [hout x (h.owned _ hx).2.2.2, if_neg hne]
      exact h.contents x hx
  · have hbit : ({ s with mem := s.pmm.setBit p s.mem } : Kernel).locked q =
        (s.locked q || decide (q = p)) := bit_setBit hfit s.mem hp' hq
    rw [hbit, Bool.or_eq_true, h.accounts q hq, decide_eq_true_eq, List.mem_cons, or_assoc]
    exact or_congr_right (or_comm.trans or_assoc.symm)

theorem Represents.alloc (hstart : Sound start) (h : Represents start s a) :
    Represents start { s with mem := (pmmAlloc2 s.pmm s.bitmapLength s.mem).2 }
      (a.returned (pmmAlloc2 s.pmm s.bitmapLength s.mem).1 s.mem) := by
  rcases h.sound.alloc with ⟨heq, -⟩ | ⟨p, hp, hfree, hne, hof, heq⟩
  · rw [heq, PagedMemory.returned, if_pos rfl]
    exact h
  · rw [heq, PagedMemory.returned, if_neg hne, hof]
    exact h.take hstart hp hfree

theorem Represents.free (hstart : Sound start) (h : Represents start s a) (hp : p ∈ a.held) :
    Represents start { s with mem := pmmFreePage s.pmm (BitVec.ofNat 64 p) s.mem } (a.drop p) := by
  obtain ⟨hp', hfree, hnotTable, hapart⟩ := h.owned p hp
  have hfit := h.sound.pmm.fits
  have hlow : p < 2 ^ 40 := (hstart.pmm.free p (h.length_eq ▸ hp') hfree).1
  have hnat : (BitVec.ofNat 64 p).toNat = p := Nat.mod_eq_of_lt (by omega)
  have hout (x : ℕ) (hx : ¬s.HoldsBitmap (x / 4096)) : s.pmm.clearBit p s.mem x = s.mem x :=
    clearBit_outside hfit s.mem hp' hx
  rw [pmmFreePage_eq, hnat]
  refine h.update hstart (h.distinct.erase p) (fun x hx _ => hout x hx)
    (fun q hq => h.owned q (List.mem_of_mem_erase hq)) (fun x hx => ?_) fun q hq => ?_
  · have hheld := List.mem_of_mem_erase hx
    exact (hout x (h.owned _ hheld).2.2.2).trans (h.contents x hheld)
  · have hbit : ({ s with mem := s.pmm.clearBit p s.mem } : Kernel).locked q =
        (s.locked q && !decide (q = p)) :=
      WordArray.bit_clearBit (pointerArray_lawful hfit) s.mem hp' hq
    rw [hbit, Bool.and_eq_true, h.accounts q hq, Bool.not_eq_true', decide_eq_false_iff_not,
      h.distinct.mem_erase_iff]
    by_cases hqp : q = p
    · subst hqp
      simp [hfree, hnotTable]
    · simp [hqp]

theorem Represents.store (hstart : Sound start) (h : Represents start s a) {x : ℕ} (b : BitVec 8)
    (hx : x / 4096 ∈ a.held) :
    Represents start { s with mem := Function.update s.mem x b } (a.store x b) := by
  have hnotBitmap := (h.owned _ hx).2.2.2
  have hout (y : ℕ) (hy : y / 4096 ≠ x / 4096) : Function.update s.mem x b y = s.mem y :=
    Function.update_of_ne (fun hc => hy (by rw [hc])) _ _
  refine h.update hstart h.distinct (fun y _ hy => hout y fun hc => hy (hc ▸ hx)) h.owned
    (fun y hy => ?_) fun q hq => ?_
  · rw [Function.update_apply, Function.update_apply, h.contents y hy]
  · have hlocked : ({ s with mem := Function.update s.mem x b } : Kernel).locked q = s.locked q :=
      bit_congr h.sound.pmm.fits (fun y hy => hout y fun hc => hnotBitmap (hc ▸ hy)) hq
    rw [hlocked]
    exact h.accounts q hq

section Map
variable {virt physAddr : Word} {flags : BitVec 8}

/-- Besides the page bitmap, `vmm_alloc` writes to tables and to free pages only. -/
theorem Sound.map (h : Sound s) (hr : ∀ r ∈ (vmmAlloc virt physAddr flags s).2, r ≠ 0) :
    ∃ new, Maps s (vmmAlloc virt physAddr flags s).1 virt (pageEntry physAddr flags) new ∧
      ∀ x, ¬s.IsTable (x / 4096) → x / 4096 ∉ new → ¬s.HoldsBitmap (x / 4096) →
        (vmmAlloc virt physAddr flags s).1.mem x = s.mem x := by
  obtain ⟨new, -, hres, hmaps⟩ := vmmAlloc_maps h.tree h.pmm (h.noLarge _) hr
  have htable : s.IsTable (firstSlot s virt).table :=
    firstStore_table (p := []) (h.noLarge _) (by simp [indices]) (by simp [indices])
      (tableAt_nil _ _)
  have hconfined := confined_of_harmless h.pmm (h.tree.apart _ htable) hr (Or.inl (h.noLarge _))
  refine ⟨new, hmaps, fun x h1 h2 h3 => ?_⟩
  by_contra hx
  rcases hconfined x hx with hx | ⟨r, hr, hx⟩ | hx
  · exact h1 hx
  · rw [hres] at hr
    obtain ⟨N, hN, rfl⟩ := List.mem_map.mp hr
    rw [pageOf_pageAddress h.pmm (mem_freePages.mpr (hmaps.fresh N hN))] at hx
    exact h2 (hx ▸ hN)
  · exact h3 hx

theorem Sound.of_maps {s' : Kernel} {w : Word} {new : List ℕ} (h : Sound s)
    (hmaps : Maps s s' virt w new) : Sound s' := by
  have hlen : s'.bitmapLength = s.bitmapLength := by rw [hmaps.setup]
  have hpos := h.length_pos
  refine ⟨hmaps.tree, hmaps.pmm, fun path => hmaps.noLarge path (h.noLarge path), ?_, hlen ▸ hpos⟩
  rw [hmaps.locked 0 (by omega), h.zero, Bool.true_or]

theorem Represents.map (h : Represents start s a)
    (hr : ∀ r ∈ (vmmAlloc virt physAddr flags s).2, r ≠ 0) :
    Represents start (vmmAlloc virt physAddr flags s).1
      (a.map virt ⟨0, pageEntry physAddr flags⟩) := by
  obtain ⟨new, hmaps, hout⟩ := h.sound.map hr
  generalize (vmmAlloc virt physAddr flags s).1 = s' at hmaps hout ⊢
  have hlen : s'.bitmapLength = s.bitmapLength := by rw [hmaps.setup]
  have hnew (N : ℕ) (hN : N ∈ new) : N < 64 * s.bitmapLength.toNat := by
    have hsc := scanned_le s.bitmapLength
    have := (hmaps.fresh N hN).1
    omega
  have hheld (q : ℕ) (hq : q ∈ a.held) : q ∉ new :=
    hmaps.notMem_new ((h.accounts q (h.owned q hq).1).mpr (Or.inr (Or.inl hq)))
  refine ⟨?_, h.sound.of_maps hmaps, fun v => ?_, h.distinct, fun q hq => ?_, fun x hx => ?_,
    fun q hq => ?_, fun t ht => ?_, fun x hx => ?_⟩
  · have := hmaps.setup
    rw [h.setup] at this
    exact this
  · change _ = Function.update a.pages (pageNumber virt) _ (pageNumber v)
    by_cases hv : pageNumber v = pageNumber virt
    · rw [hv, Function.update_self, hmaps.walk_page hv]
    · rw [Function.update_of_ne hv, hmaps.walk_other v hv, h.translates v]
  · obtain ⟨hlt, hfree, htable, hapart⟩ := h.owned q hq
    refine ⟨hlen ▸ hlt, hfree, fun hc => ((hmaps.isTable_iff q).mp hc).elim htable (hheld q hq), ?_⟩
    rw [hmaps.setup]
    exact hapart
  · obtain ⟨-, -, htable, hapart⟩ := h.owned _ hx
    rw [hout x htable (hheld _ hx) hapart]
    exact h.contents x hx
  · rw [hlen] at hq
    rw [hmaps.locked q hq, Bool.or_eq_true, h.accounts q hq, decide_eq_true_eq, hmaps.isTable_iff,
      or_assoc, or_assoc]
    rfl
  · rcases (hmaps.isTable_iff t).mp ht with ht | ht
    · exact h.tables t ht
    · exact Or.inr (h.stays (hnew t ht) (hmaps.fresh t ht).2)
  · obtain ⟨htable, hbitmap, -⟩ := h.reserved_apart hx
    rw [← h.reserved x hx]
    refine hout x htable (fun hN => ?_) hbitmap
    have hs := h.stays (hnew _ hN) (hmaps.fresh _ hN).2
    rw [hx.1 (h.length_eq ▸ hnew _ hN)] at hs
    contradiction

end Map
end Steps

/-- Over every run the memory manager shows one address space: each page translates by its last
mapping, held frames belong to one owner and keep the owner's bytes, exactly the pages that are
locked at the start, held or tables are locked, and memory that is not the manager's is unchanged. -/
theorem memoryRun_represents {start s : Kernel} {a : PagedMemory} (hstart : Sound start)
    (run : MemoryRun start s a) : Represents start s a := by
  induction run with
  | start => exact represents_initial hstart
  | alloc _ ih => exact ih.alloc hstart
  | free _ hp ih => exact ih.free hstart hp
  | map _ hr ih => exact ih.map hr
  | store _ hx ih => exact ih.store hstart _ hx

theorem emptyTables_sound : Sound emptyTables :=
  ⟨emptyTables_tree, emptyTables_pmm, emptyTables_noLarge, emptyTables_locked (by decide),
    by decide⟩

/-- Two pages are taken, and one byte of the second is written. -/
theorem exists_twoHeld : ∃ s a, MemoryRun emptyTables s a ∧ a.held = [4, 3] ∧ a.bytes 0x4000 = 0xAB ∧
    Supplied s 3 := by
  let k : Kernel := { emptyTables with
    mem := (pmmAlloc2 emptyTables.pmm emptyTables.bitmapLength emptyTables.mem).2 }
  let k' : Kernel := { k with mem := (pmmAlloc2 k.pmm k.bitmapLength k.mem).2 }
  have h3 : (pmmAlloc2 emptyTables.pmm emptyTables.bitmapLength emptyTables.mem).1 = 0x3000 := by
    decide +kernel
  have h4 : (pmmAlloc2 k.pmm k.bitmapLength k.mem).1 = 0x4000 := by decide +kernel
  have hrun : MemoryRun emptyTables k' _ := .alloc (.alloc .start)
  change MemoryRun emptyTables k' ((PagedMemory.returned _ _ _).returned
    (pmmAlloc2 k.pmm k.bitmapLength k.mem).1 _) at hrun
  rw [h3, h4] at hrun
  refine ⟨_, _, hrun.store (x := 0x4000) (b := 0xAB) (by decide), rfl, ?_, ?_⟩
  · simp only [PagedMemory.store, Function.update_self]
  · exact ⟨by decide +kernel, by decide, by decide, {5, 6, 7}, by decide, by decide +kernel⟩

/-- One of the two is mapped and the other one freed. -/
theorem memoryRun_represents_mapped : ∃ s a, MemoryRun emptyTables s a ∧
    Represents emptyTables s a ∧ a.held = [4] ∧ s.mem 0x4000 = 0xAB ∧
    walk s.mem s.root 0x40000000 = some ⟨0, pageEntry 0x4000 3⟩ := by
  obtain ⟨s, a, run, hheld, hbyte, hs⟩ := exists_twoHeld
  have hsound := (memoryRun_represents emptyTables_sound run).sound
  have hpages : ∀ r ∈ (vmmAlloc 0x40000000 0x4000 3 s).2, r ≠ 0 :=
    vmmAlloc_supplied _ _ hsound.tree hsound.pmm (hsound.noLarge _) hs
  have hfreed := (run.map hpages).free (p := 3) (by simp [PagedMemory.map, hheld])
  have hrep := memoryRun_represents emptyTables_sound hfreed
  have hdrop : a.held.erase 3 = [4] := by
    rw [hheld]
    decide
  refine ⟨_, _, hfreed, hrep, hdrop, ?_, ?_⟩
  · refine (hrep.contents 0x4000 ?_).trans hbyte
    change 4 ∈ a.held.erase 3
    rw [hdrop]
    exact List.mem_singleton_self 4
  · exact (hrep.translates 0x40000000).trans (by simp)

end LucidiOS.Vmm
