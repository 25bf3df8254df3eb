import LucidiOS.Paging.Entries
import LucidiOS.Pmm.Storage

/-! `vmm_alloc`, and the effect of its single steps on frames. -/
namespace LucidiOS
open ByteMemory Paging Pmm

/-- The frame of the top-level table. -/
def Kernel.root (s : Kernel) : ℕ := frame s.cr3

namespace Vmm

def pteMask : Word := 0x000FFFFFFFFFF000

def ptePresent : Word := 1

def pteWritable : Word := 2

/-- A table entered by `vmm_alloc`, with the state so far and the results of the calls of
`pmm_alloc2` made to get there. -/
structure Entered where
  table : Word
  kernel : Kernel
  results : List Word

/-- The three equal steps of `vmm_alloc`: follow an entry, after giving it a cleared table when it
is not present. -/
def nextTable (tableVirt index : Word) (s : Kernel) : Entered :=
  let table := pointerArray s.gHhdmOffset tableVirt
  let i := index.toNat
  if table.get s.mem i &&& ptePresent = 0 then
    let alloc := pmmAlloc2 s.pmm s.bitmapLength s.mem
    let newTable := alloc.1
    let mem := memset s.gHhdmOffset (newTable + s.gHhdmOffset) 0 4096 alloc.2
    let mem := table.set mem i (newTable ||| ptePresent ||| pteWritable)
    ⟨(table.get mem i &&& pteMask) + s.gHhdmOffset, { s with mem }, [newTable]⟩
  else ⟨(table.get s.mem i &&& pteMask) + s.gHhdmOffset, s, []⟩

/-- The state after `vmm_alloc`, and the results of its calls of `pmm_alloc2`. -/
def vmmAlloc (virt physAddr : Word) (flags : BitVec 8) (s : Kernel) : Kernel × List Word :=
  let pml4Phys := s.cr3 &&& 0x000FFFFFFFFFF000
  let pml4Virt := pml4Phys + s.gHhdmOffset
  let pml4Index := (virt >>> 39) &&& 0x1FF
  let pdptIndex := (virt >>> 30) &&& 0x1FF
  let pdIndex := (virt >>> 21) &&& 0x1FF
  let ptIndex := (virt >>> 12) &&& 0x1FF
  let pdpt := nextTable pml4Virt pml4Index s
  let pd := nextTable pdpt.table pdptIndex pdpt.kernel
  let pt := nextTable pd.table pdIndex pd.kernel
  let mem := (pointerArray s.gHhdmOffset pt.table).set pt.kernel.mem ptIndex.toNat
    ((physAddr &&& pteMask) ||| flags.setWidth 64 ||| 1)
  ({ pt.kernel with mem }, pdpt.results ++ pd.results ++ pt.results)

theorem nextTable_globals (tableVirt index : Word) (s : Kernel) :
    SameGlobals s (nextTable tableVirt index s).kernel := by
  unfold nextTable
  dsimp only
  split_ifs <;> rfl

/-- `vmm_alloc` changes memory only. -/
theorem vmmAlloc_globals (virt physAddr : Word) (flags : BitVec 8) (s : Kernel) :
    SameGlobals s (vmmAlloc virt physAddr flags s).1 :=
  (nextTable_globals _ _ _).trans ((nextTable_globals _ _ _).trans
    ((nextTable_globals _ _ _).trans (SameGlobals.set_mem _ _)))

/-- The entry that names a new table. -/
def tableEntry (N : ℕ) : Word := BitVec.ofNat 64 N * 4096 ||| ptePresent ||| pteWritable

/-- The entry that maps a page. -/
def pageEntry (physAddr : Word) (flags : BitVec 8) : Word :=
  (physAddr &&& pteMask) ||| flags.setWidth 64 ||| 1

/-- Page `N` taken from the page bitmap, cleared and entered in slot `i` of table `T`. -/
def linkTable (s : Kernel) (N T : ℕ) (i : Fin 512) : Kernel :=
  let mem := fill (s.pmm.setBit N s.mem) (4096 * N) 4096 0
  { s with mem := store64 mem (4096 * T + 8 * i) (tableEntry N) }

/-- The address of page `N`. -/
def pageAddress (N : ℕ) : Word := BitVec.ofNat 64 N * 4096

/-- `w` stored in slot `i` of table `T`. -/
def storeEntry (s : Kernel) (T : ℕ) (i : Fin 512) (w : Word) : Kernel :=
  { s with mem := store64 s.mem (4096 * T + 8 * i) w }

/-- The page bitmap is apart from the pages it gives out, and these have physical addresses. -/
structure PmmApart (s : Kernel) : Prop where
  fits : Fits s
  free : ∀ p < 64 * s.bitmapLength.toNat, s.locked p = false → p < 2 ^ 40 ∧ ¬s.HoldsBitmap p

section Entry

private theorem flags_low (f : Word) (hf : f.toNat < 4096) {N : ℕ} (hN : N < 2 ^ 40) :
    frame (BitVec.ofNat 64 N * 4096 ||| f) = N ∧
      ∀ k < 12, (BitVec.ofNat 64 N * 4096 ||| f).getLsbD k = f.getLsbD k := by
  have haddr := page_address_toNat (show N < 2 ^ 52 by omega)
  have hmod : (BitVec.ofNat 64 N * 4096 : Word).toNat % 4096 = 0 := by omega
  refine ⟨?_, fun k hk => getLsbD_or_low hmod hk⟩
  rw [frame_or hmod (by omega) hf, haddr]
  omega

private theorem tableEntry_eq (N : ℕ) : tableEntry N = BitVec.ofNat 64 N * 4096 ||| 3 := by
  rw [tableEntry, BitVec.or_assoc]
  rfl

theorem tableEntry_spec {N : ℕ} (hN : N < 2 ^ 40) :
    frame (tableEntry N) = N ∧ present (tableEntry N) = true ∧ large (tableEntry N) = false := by
  obtain ⟨h1, h2⟩ := flags_low 3 (by decide) hN
  rw [tableEntry_eq]
  exact ⟨h1, (h2 0 (by decide)).trans rfl, (h2 7 (by decide)).trans rfl⟩

theorem tableEntry_toNat {N : ℕ} (hN : N < 2 ^ 40) : (tableEntry N).toNat = 4096 * N + 3 := by
  have hor : 4096 * N + 3 = 4096 * N ||| 3 := Nat.two_pow_add_eq_or_of_lt (i := 12) (by decide) N
  rw [tableEntry_eq, BitVec.toNat_or, page_address_toNat (by omega), hor]
  rfl

theorem pageEntry_present (physAddr : Word) (flags : BitVec 8) :
    present (pageEntry physAddr flags) = true := by
  simp [present, pageEntry]

theorem pageEntry_frame (physAddr : Word) (flags : BitVec 8) :
    frame (pageEntry physAddr flags) = frame physAddr := by
  have hmask := mask_toNat physAddr
  have hlt := frame_lt physAddr
  have hflags : (flags.setWidth 64 ||| 1 : Word).toNat < 4096 := by
    rw [BitVec.toNat_or, BitVec.toNat_setWidth]
    have h1 : (1 : Word).toNat = 1 := rfl
    rw [h1]
    have hsmall : flags.toNat % 2 ^ 64 < 2 ^ 12 := by
      have := flags.isLt
      omega
    exact Nat.or_lt_two_pow hsmall (by decide)
  rw [pageEntry, BitVec.or_assoc, pteMask, frame_or (by omega) (by omega) hflags, hmask]
  omega

end Entry

section Pointers
variable {s : Kernel} {hhdm tableVirt idx : Word} {T : ℕ} {i : Fin 512}

/-- A pointer to a frame sees the entries of the table in it. -/
theorem pointerArray_entry (h : phys hhdm tableVirt = 4096 * T) (hT : T < 2 ^ 40)
    (m : Memory) (i : Fin 512) (w : Word) :
    (pointerArray hhdm tableVirt).get m i = entry m T i ∧
      (pointerArray hhdm tableVirt).set m i w = store64 m (4096 * T + 8 * i) w := by
  have := i.isLt
  simp only [pointerArray]
  rw [phys_add (by omega), h]
  exact ⟨rfl, rfl⟩

theorem phys_mask (hhdm e : Word) : phys hhdm ((e &&& pteMask) + hhdm) = 4096 * frame e := by
  rw [phys_add_self, pteMask, mask_toNat]

theorem nextTable_present (h : phys s.gHhdmOffset tableVirt = 4096 * T) (hT : T < 2 ^ 40)
    (hi : idx.toNat = i) (hpresent : present (entry s.mem T i) = true) :
    nextTable tableVirt idx s =
      ⟨(entry s.mem T i &&& pteMask) + s.gHhdmOffset, s, []⟩ := by
  obtain ⟨hget, -⟩ := pointerArray_entry h hT s.mem i 0
  rw [nextTable, hi]
  simp only [hget]
  exact if_neg ((present_iff _).mp hpresent)

/-- Without a present entry the first free page becomes the next table. -/
theorem nextTable_absent (hpmm : PmmApart s) (h : phys s.gHhdmOffset tableVirt = 4096 * T)
    (hT : T < 2 ^ 40) (hi : idx.toNat = i) (habs : present (entry s.mem T i) = false)
    (hr : ∀ r ∈ (nextTable tableVirt idx s).results, r ≠ 0) :
    ∃ N < scanned s.bitmapLength, s.locked N = false ∧ (∀ q < N, s.locked q = true) ∧
      nextTable tableVirt idx s = ⟨(tableEntry N &&& pteMask) + s.gHhdmOffset,
        linkTable s N T i, [pageAddress N]⟩ := by
  have hzero : entry s.mem T i &&& ptePresent = 0 := by
    by_contra hc
    rw [(present_iff _).mpr hc] at habs
    contradiction
  obtain ⟨hget, -⟩ := pointerArray_entry h hT s.mem i 0
  have hcond : (pointerArray s.gHhdmOffset tableVirt).get s.mem idx.toNat &&& ptePresent = 0 := by
    rw [hi, hget, hzero]
  rw [nextTable] at hr ⊢
  simp only [if_pos hcond] at hr ⊢
  obtain ⟨N, hN, hclear, hset, heq⟩ := pmmAlloc2_ne_zero (hr _ (List.mem_singleton.mpr rfl))
  have hlt := (hpmm.free N (by have := scanned_le s.bitmapLength; omega) hclear).1
  have haddr := page_address_toNat (show N < 2 ^ 52 by omega)
  have hbound : phys s.gHhdmOffset (BitVec.ofNat 64 N * 4096 + s.gHhdmOffset) + 4096 ≤ 2 ^ 64 := by
    rw [phys_add_self, haddr]
    omega
  refine ⟨N, hN, hclear, hset, ?_⟩
  have hc : BitVec.setWidth 8 (0 : BitVec 32) = 0 := rfl
  simp only [heq, hi, memset_eq_fill hbound, phys_add_self, haddr, hc,
    (pointerArray_entry h hT _ i _).2]
  rw [(pointerArray_entry h hT _ i 0).1, entry_store]
  rfl

/-- `nextTable` once more, keeping the results so far. -/
def Entered.next (e : Entered) (idx : Word) : Entered :=
  { nextTable e.table idx e.kernel with
    results := e.results ++ (nextTable e.table idx e.kernel).results }

theorem Entered.next_present {e : Entered} (h : phys e.kernel.gHhdmOffset e.table = 4096 * T)
    (hT : T < 2 ^ 40) (hi : idx.toNat = i) (hpresent : present (entry e.kernel.mem T i) = true) :
    e.next idx =
      ⟨(entry e.kernel.mem T i &&& pteMask) + e.kernel.gHhdmOffset, e.kernel, e.results⟩ := by
  rw [Entered.next, nextTable_present h hT hi hpresent]
  simp

theorem Entered.next_absent {e : Entered} (hpmm : PmmApart e.kernel)
    (h : phys e.kernel.gHhdmOffset e.table = 4096 * T) (hT : T < 2 ^ 40) (hi : idx.toNat = i)
    (habs : present (entry e.kernel.mem T i) = false) (hr : ∀ r ∈ (e.next idx).results, r ≠ 0) :
    ∃ N < scanned e.kernel.bitmapLength, e.kernel.locked N = false ∧
      (∀ q < N, e.kernel.locked q = true) ∧ N < 2 ^ 40 ∧
      phys e.kernel.gHhdmOffset ((tableEntry N &&& pteMask) + e.kernel.gHhdmOffset) = 4096 * N ∧
      e.next idx = ⟨(tableEntry N &&& pteMask) + e.kernel.gHhdmOffset,
        linkTable e.kernel N T i, e.results ++ [pageAddress N]⟩ := by
  obtain ⟨N, hN, hfree, hfirst, heq⟩ := nextTable_absent hpmm h hT hi habs
    fun r hmem => hr r (List.mem_append_right _ hmem)
  have hNlt := (hpmm.free N (by have := scanned_le e.kernel.bitmapLength; omega) hfree).1
  refine ⟨N, hN, hfree, hfirst, hNlt, ?_, ?_⟩
  · rw [phys_mask, (tableEntry_spec hNlt).1]
  · rw [Entered.next, heq]

def descend (e : Entered) (idxs : List Word) : Entered := idxs.foldl Entered.next e

@[simp] theorem descend_nil (e : Entered) : descend e [] = e := rfl

theorem descend_cons (e : Entered) (idx : Word) (idxs : List Word) :
    descend e (idx :: idxs) = descend (e.next idx) idxs := rfl

theorem descend_results_mono (idxs : List Word) (e : Entered) {r : Word} (hr : r ∈ e.results) :
    r ∈ (descend e idxs).results := by
  induction idxs generalizing e with
  | nil => exact hr
  | cons idx idxs ih => exact ih _ (List.mem_append_left _ hr)

/-- The indices by which `vmm_alloc` descends. -/
def descentIndices (virt : Word) : List Word :=
  [(virt >>> 39) &&& 0x1FF, (virt >>> 30) &&& 0x1FF, (virt >>> 21) &&& 0x1FF]

theorem descentIndices_toNat (virt : Word) : (descentIndices virt).map BitVec.toNat =
    [index virt 3, index virt 2, index virt 1].map Fin.val := by
  have hi3 : ((virt >>> 39) &&& 0x1FF).toNat = index virt 3 := index_toNat virt 3
  have hi2 : ((virt >>> 30) &&& 0x1FF).toNat = index virt 2 := index_toNat virt 2
  have hi1 : ((virt >>> 21) &&& 0x1FF).toNat = index virt 1 := index_toNat virt 1
  simp only [descentIndices, List.map_cons, List.map_nil, hi3, hi2, hi1]

/-- The first index of a descent and those that remain. -/
theorem indices_cons {idx : Word} {idxs : List Word} {path : List (Fin 512)}
    (h : (idx :: idxs).map BitVec.toNat = path.map Fin.val) :
    ∃ i rest, path = i :: rest ∧ idx.toNat = i ∧ idxs.map BitVec.toNat = rest.map Fin.val := by
  rw [List.map_cons] at h
  obtain ⟨i, rest, hpath, hi, hrest⟩ := List.map_eq_cons_iff.mp h.symm
  exact ⟨i, rest, hpath, hi.symm, hrest.symm⟩

def topTable (s : Kernel) : Entered := ⟨(s.cr3 &&& pteMask) + s.gHhdmOffset, s, []⟩

/-- `vmm_alloc` descends through three tables and stores the page's entry in the one it reaches. -/
theorem vmmAlloc_eq (virt physAddr : Word) (flags : BitVec 8) (s : Kernel) :
    (vmmAlloc virt physAddr flags s).2 = (descend (topTable s) (descentIndices virt)).results ∧
    ∀ T, phys s.gHhdmOffset (descend (topTable s) (descentIndices virt)).table = 4096 * T →
      T < 2 ^ 40 → (vmmAlloc virt physAddr flags s).1 =
        storeEntry (descend (topTable s) (descentIndices virt)).kernel T (index virt 0)
          (pageEntry physAddr flags) := by
  have hi : ((virt >>> 12) &&& 0x1FF).toNat = index virt 0 := index_toNat virt 0
  have hdescend : vmmAlloc virt physAddr flags s =
      let d := descend (topTable s) (descentIndices virt)
      let table := pointerArray s.gHhdmOffset d.table
      ({ d.kernel with
        mem := table.set d.kernel.mem ((virt >>> 12) &&& 0x1FF).toNat (pageEntry physAddr flags) },
        d.results) := by
    simp only [vmmAlloc, descend, descentIndices, topTable, Entered.next, List.foldl_cons,
      List.foldl_nil, List.nil_append, pageEntry, pteMask]
  rw [hdescend]
  generalize descend (topTable s) (descentIndices virt) = d
  dsimp only
  refine ⟨rfl, fun T hT hlt => ?_⟩
  rw [hi, (pointerArray_entry hT hlt _ _ _).2, storeEntry]

end Pointers

section Frames
variable {s : Kernel} {N T t : ℕ} {i j : Fin 512}

theorem linkTable_mem (s : Kernel) (N T : ℕ) (i : Fin 512) : (linkTable s N T i).mem =
    store64 (fill (s.pmm.setBit N s.mem) (4096 * N) 4096 0) (4096 * T + 8 * i) (tableEntry N) := rfl

@[simp] theorem linkTable_pmm (s : Kernel) (N T : ℕ) (i : Fin 512) :
    (linkTable s N T i).pmm = s.pmm := by rw [Kernel.pmm, Kernel.pmm, linkTable]

@[simp] theorem storeEntry_pmm (s : Kernel) (T : ℕ) (i : Fin 512) (w : Word) :
    (storeEntry s T i w).pmm = s.pmm := by rw [Kernel.pmm, Kernel.pmm, storeEntry]

/-- Bytes apart from the new table, the slot's table and the page bitmap are left alone. -/
theorem linkTable_outside (hfit : Fits s) (hN : N < 64 * s.bitmapLength.toNat) (T : ℕ)
    (i : Fin 512) {x : ℕ} (h1 : x / 4096 ≠ N) (h2 : x / 4096 ≠ T)
    (h3 : ¬s.HoldsBitmap (x / 4096)) : (linkTable s N T i).mem x = s.mem x := by
  rw [linkTable_mem, store_outside_frame _ i _ h2, fill_outside_frame _ 0 h1,
    setBit_outside hfit _ hN h3]

theorem linkTable_entry (hfit : Fits s) (hN : N < 64 * s.bitmapLength.toNat) (h1 : t ≠ N)
    (h2 : t ≠ T ∨ j ≠ i) (h3 : ¬s.HoldsBitmap t) :
    entry (linkTable s N T i).mem t j = entry s.mem t j := by
  rw [linkTable_mem, entry_store_apart _ _ h2, entry_fill_apart _ 0 h1]
  exact entry_congr fun x hx => setBit_outside hfit _ hN (hx ▸ h3)

theorem linkTable_slot (s : Kernel) (N T : ℕ) (i : Fin 512) :
    entry (linkTable s N T i).mem T i = tableEntry N := entry_store _ T i _

theorem linkTable_new (s : Kernel) (h : N ≠ T ∨ j ≠ i) :
    entry (linkTable s N T i).mem N j = 0 := by
  rw [linkTable_mem, entry_store_apart _ _ h, entry_fill_zero]

theorem linkTable_locked (hfit : Fits s) (hN : N < 64 * s.bitmapLength.toNat)
    (hN' : ¬s.HoldsBitmap N) (hT : ¬s.HoldsBitmap T) {q : ℕ} (hq : q < 64 * s.bitmapLength.toNat) :
    (linkTable s N T i).locked q = (s.locked q || decide (q = N)) := by
  rw [Kernel.locked, Kernel.locked, linkTable_pmm, ← bit_setBit hfit s.mem hN hq]
  refine bit_congr hfit (fun x hx => ?_) hq
  have hxT : x / 4096 ≠ T := fun hc => hT (hc ▸ hx)
  have hxN : x / 4096 ≠ N := fun hc => hN' (hc ▸ hx)
  rw [linkTable_mem, store_outside_frame _ i _ hxT, fill_outside_frame _ 0 hxN]

theorem linkTable_apart (hp : PmmApart s) (hN : N < 64 * s.bitmapLength.toNat)
    (hfree : s.locked N = false) (hT : ¬s.HoldsBitmap T) : PmmApart (linkTable s N T i) := by
  refine ⟨hp.fits, fun q hq hl => ?_⟩
  rw [linkTable_locked hp.fits hN (hp.free N hN hfree).2 hT hq, Bool.or_eq_false_iff] at hl
  exact hp.free q hq hl.1

theorem storeEntry_locked (hfit : Fits s) (hT : ¬s.HoldsBitmap T) (w : Word) {q : ℕ}
    (hq : q < 64 * s.bitmapLength.toNat) : (storeEntry s T i w).locked q = s.locked q := by
  rw [Kernel.locked, Kernel.locked, storeEntry_pmm]
  refine bit_congr hfit (fun x hx => ?_) hq
  have hxT : x / 4096 ≠ T := fun hc => hT (hc ▸ hx)
  exact store_outside_frame _ i w hxT

end Frames
end Vmm
end LucidiOS
