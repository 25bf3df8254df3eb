import LucidiOS.Pmm.BootBitmap
import LucidiOS.Pmm.Completeness

/-! The storage of the heap bitmap. `heap_bitmap_pointer` takes one page and clears sixteen. -/
namespace LucidiOS
open ByteMemory Pmm

def Kernel.heapBitmapPhys (s : Kernel) : ℕ := phys s.gHhdmOffset s.heapBitmap

/-- Page `p` holds some of the 8192 words of the heap bitmap. -/
def Kernel.HoldsHeapBitmap (s : Kernel) (p : ℕ) : Prop :=
  4096 * p < s.heapBitmapPhys + 8192 * 8 ∧ s.heapBitmapPhys < 4096 * p + 4096

namespace Pmm
variable {map : List MemmapEntry}

/-- The results of `n` successive calls of `pmm_alloc2`. -/
def pmmAllocs {σ : Type*} (bitmap : WordArray σ) (bitmapLength : Word) : ℕ → σ → List Word
  | 0, _ => []
  | n + 1, s =>
      let alloc := pmmAlloc2 bitmap bitmapLength s
      alloc.1 :: pmmAllocs bitmap bitmapLength n alloc.2

/-- The heap bitmap has pages of its own. -/
structure HeapBitmapReserved (map : List MemmapEntry) (s : Kernel) : Prop where
  usable : ∀ p, s.HoldsHeapBitmap p → InUsable map p
  apart : ∀ p, s.HoldsHeapBitmap p → ¬s.HoldsBitmap p
  locked : ∀ p, s.HoldsHeapBitmap p → s.locked p = true
  later : ∀ n, ∀ r ∈ pmmAllocs s.pmm s.bitmapLength n s.mem, r ≠ 0 → ¬s.HoldsHeapBitmap (pageOf r)

/-- The page that `heap_bitmap_pointer` obtains; 0 when it gets none. -/
def heapBitmapFrame (map : List MemmapEntry) (s : Kernel) : Word :=
  (pmmAlloc2 (buildBitmap map s).pmm (buildBitmap map s).bitmapLength (buildBitmap map s).mem).1

theorem heapBitmapPointer_mem (s : Kernel) : (heapBitmapPointer s).mem =
    memset s.gHhdmOffset (heapBitmapPointer s).heapBitmap 0 (8192 * 8)
      (pmmAlloc2 s.pmm s.bitmapLength s.mem).2 := by
  simp only [heapBitmapPointer]

@[simp] theorem initBitmapPmm_pmm (map : List MemmapEntry) (s : Kernel) :
    (initBitmapPmm map s).pmm = (buildBitmap map s).pmm := by
  simp only [Kernel.pmm, initBitmapPmm, heapBitmapPointer]

@[simp] theorem initBitmapPmm_holdsBitmap (map : List MemmapEntry) (s : Kernel) (p : ℕ) :
    (initBitmapPmm map s).HoldsBitmap p ↔ (buildBitmap map s).HoldsBitmap p := by
  simp only [Kernel.HoldsBitmap, Kernel.bitmapPhys, initBitmapPmm, heapBitmapPointer]

theorem initBitmapPmm_bitmapLength (map : List MemmapEntry) (s : Kernel) :
    (initBitmapPmm map s).bitmapLength = (buildBitmap map s).bitmapLength := by
  simp only [initBitmapPmm, heapBitmapPointer]

theorem buildBitmap_bitmapLength (map : List MemmapEntry) (s : Kernel) :
    (buildBitmap map s).bitmapLength = getBitmapLength map pageToQword := by
  rw [buildBitmap, bitmapPointer]
  cases map.find? _ with
  | none => rfl
  | some e => rfl

theorem bitmapPointer_kept (map : List MemmapEntry) (s : Kernel) :
    (bitmapPointer map s).gHhdmOffset = s.gHhdmOffset ∧ (bitmapPointer map s).cr3 = s.cr3 ∧
      (bitmapPointer map s).ioapicBase = s.ioapicBase := by
  rw [bitmapPointer]
  cases map.find? _ with
  | none => exact ⟨rfl, rfl, rfl⟩
  | some e => exact ⟨rfl, rfl, rfl⟩

theorem buildBitmap_kept (map : List MemmapEntry) (s : Kernel) :
    (buildBitmap map s).gHhdmOffset = s.gHhdmOffset ∧ (buildBitmap map s).cr3 = s.cr3 ∧
      (buildBitmap map s).ioapicBase = s.ioapicBase :=
  bitmapPointer_kept map { s with bitmapLength := getBitmapLength map pageToQword }

theorem initBitmapPmm_kept (map : List MemmapEntry) (s : Kernel) :
    (initBitmapPmm map s).gHhdmOffset = s.gHhdmOffset ∧ (initBitmapPmm map s).cr3 = s.cr3 ∧
      (initBitmapPmm map s).ioapicBase = s.ioapicBase := by
  rw [initBitmapPmm, heapBitmapPointer]
  exact buildBitmap_kept map s

theorem initBitmapPmm_heapBitmapPhys (map : List MemmapEntry) (s : Kernel) :
    (initBitmapPmm map s).heapBitmapPhys =
      phys (buildBitmap map s).gHhdmOffset (initBitmapPmm map s).heapBitmap := by
  simp only [Kernel.heapBitmapPhys, initBitmapPmm, heapBitmapPointer]

theorem heapBitmapFrame_spec (hm : LimineMap map) (hroom : HasRoom map) (s : Kernel)
    (hgot : heapBitmapFrame map s ≠ 0) :
    ∃ f < scanned (buildBitmap map s).bitmapLength, (buildBitmap map s).locked f = false ∧
      (∀ q < f, (buildBitmap map s).locked q = true) ∧
      (initBitmapPmm map s).heapBitmapPhys = 4096 * f ∧
      (initBitmapPmm map s).mem = memset (buildBitmap map s).gHhdmOffset
        (initBitmapPmm map s).heapBitmap 0 (8192 * 8)
        ((buildBitmap map s).pmm.setBit f (buildBitmap map s).mem) := by
  obtain ⟨f, hf, hclear, hset, heq⟩ := pmmAlloc2_ne_zero hgot
  have hL := getBitmapLength_le map
  have hsc := scanned_le (buildBitmap map s).bitmapLength
  rw [← (buildBitmap_placed hm hroom s).length_eq] at hL
  refine ⟨f, hf, hclear, hset, ?_, ?_⟩
  · rw [Kernel.heapBitmapPhys, initBitmapPmm, heapBitmapPointer]
    dsimp only
    rw [phys_add_self, heq, page_address_toNat (by omega)]
  · rw [initBitmapPmm, heapBitmapPointer_mem, heq]

/-- Clearing storage apart from the page bitmap changes none of its bits. -/
theorem bit_fill_apart {s : Kernel} {a n p : ℕ} (m : Memory) (hfit : Fits s)
    (hapart : ∀ x, a ≤ x → x < a + n → ¬s.HoldsBitmap (x / 4096))
    (hp : p < 64 * s.bitmapLength.toNat) :
    s.pmm.bit (fill m a n 0) p = s.pmm.bit m p := by
  refine bit_congr hfit (fun x hx => fill_outside m 0 ?_) hp
  by_contra hc
  exact hapart x (by omega) (by omega) hx

/-- No page of the storage from frame `f` on belongs to the page bitmap. -/
theorem heapBitmap_apart {s : Kernel} {f : ℕ}
    (hphys : (initBitmapPmm map s).heapBitmapPhys = 4096 * f)
    (hapart : ∀ q, (initBitmapPmm map s).HoldsHeapBitmap q → ¬(initBitmapPmm map s).HoldsBitmap q)
    (x : ℕ) (h1 : 4096 * f ≤ x) (h2 : x < 4096 * f + 8192 * 8) :
    ¬(buildBitmap map s).HoldsBitmap (x / 4096) := by
  rw [← initBitmapPmm_holdsBitmap]
  apply hapart
  unfold Kernel.HoldsHeapBitmap
  omega

/-- When the cleared storage does not meet the page bitmap, allocating the heap bitmap locks its
first page and no other. -/
theorem initBitmapPmm_locked (hm : LimineMap map) (hroom : HasRoom map) {s : Kernel} {f p : ℕ}
    (hphys : (initBitmapPmm map s).heapBitmapPhys = 4096 * f)
    (hmem : (initBitmapPmm map s).mem = memset (buildBitmap map s).gHhdmOffset
      (initBitmapPmm map s).heapBitmap 0 (8192 * 8)
      ((buildBitmap map s).pmm.setBit f (buildBitmap map s).mem))
    (hwrap : 4096 * f + 8192 * 8 ≤ 2 ^ 64)
    (hapart : ∀ q, (initBitmapPmm map s).HoldsHeapBitmap q → ¬(initBitmapPmm map s).HoldsBitmap q)
    (hf : f < 64 * (buildBitmap map s).bitmapLength.toNat)
    (hp : p < 64 * (buildBitmap map s).bitmapLength.toNat) :
    (initBitmapPmm map s).locked p = ((buildBitmap map s).locked p || decide (p = f)) := by
  have hplaced := buildBitmap_placed hm hroom s
  have hfit := hplaced.fits hm
  have hbase := initBitmapPmm_heapBitmapPhys map s
  rw [hphys] at hbase
  have hbound : phys (buildBitmap map s).gHhdmOffset (initBitmapPmm map s).heapBitmap + 8192 * 8 ≤
      2 ^ 64 := by omega
  have hkeep := bit_fill_apart ((buildBitmap map s).pmm.setBit f (buildBitmap map s).mem)
    (by unfold Fits; omega) (heapBitmap_apart hphys hapart) hp
  have hc : BitVec.setWidth 8 (0 : BitVec 32) = 0 := rfl
  rw [Kernel.locked, initBitmapPmm_pmm, hmem, memset_eq_fill hbound, ← hbase, hc, hkeep,
    WordArray.bit_setBit (hplaced.lawful hm) _ hf hp, Kernel.locked]

/-- `heap_bitmap_pointer` locks one page at most, and clears sixteen from the page it got, or from
page 0. -/
theorem initBitmapPmm_cleared (map : List MemmapEntry) (s : Kernel) :
    ∃ (f : ℕ) (m : Memory), (initBitmapPmm map s).heapBitmapPhys = 4096 * f ∧
      (m = (buildBitmap map s).mem ∨ (f < 64 * (buildBitmap map s).bitmapLength.toNat ∧
        m = (buildBitmap map s).pmm.setBit f (buildBitmap map s).mem)) ∧
      (initBitmapPmm map s).mem = fill m (4096 * f) (8192 * 8) 0 := by
  have hL := getBitmapLength_le map
  rw [← buildBitmap_bitmapLength map s] at hL
  have hsc := scanned_le (buildBitmap map s).bitmapLength
  have hphys := initBitmapPmm_heapBitmapPhys map s
  have hc : BitVec.setWidth 8 (0 : BitVec 32) = 0 := rfl
  have hcleared (f : ℕ) (m : Memory) (hf : f < 2 ^ 47)
      (heq : pmmAlloc2 (buildBitmap map s).pmm (buildBitmap map s).bitmapLength
        (buildBitmap map s).mem = (BitVec.ofNat 64 f * 4096, m)) :
      (initBitmapPmm map s).heapBitmapPhys = 4096 * f ∧
        (initBitmapPmm map s).mem = fill m (4096 * f) (8192 * 8) 0 := by
    have hbase : (initBitmapPmm map s).heapBitmapPhys = 4096 * f := by
      rw [hphys, initBitmapPmm, heapBitmapPointer]
      simp only
      rw [phys_add_self, heq, page_address_toNat (by omega)]
    have hbound : phys (buildBitmap map s).gHhdmOffset (initBitmapPmm map s).heapBitmap + 8192 * 8 ≤
        2 ^ 64 := by omega
    refine ⟨hbase, ?_⟩
    change (heapBitmapPointer (buildBitmap map s)).mem = _
    rw [heapBitmapPointer_mem, heq]
    change memset _ (initBitmapPmm map s).heapBitmap _ _ _ = _
    rw [memset_eq_fill hbound, ← hphys, hbase, hc]
  have halloc := pmmAlloc2_eq (buildBitmap map s).pmm (buildBitmap map s).bitmapLength
    (buildBitmap map s).mem
  cases hfirst : (buildBitmap map s).pmm.firstClear (buildBitmap map s).mem
      (scanned (buildBitmap map s).bitmapLength) with
  | none =>
    rw [hfirst] at halloc
    obtain ⟨hbase, hmem⟩ := hcleared 0 _ (by decide) halloc
    exact ⟨0, _, hbase, .inl rfl, hmem⟩
  | some f =>
    rw [hfirst] at halloc
    have hf := (WordArray.firstClear_eq_some.mp hfirst).1
    obtain ⟨hbase, hmem⟩ := hcleared f _ (by omega) halloc
    exact ⟨f, _, hbase, .inr ⟨by omega, rfl⟩, hmem⟩

/-- `init_bitmap_pmm` writes to the pages of its two bitmaps only. -/
theorem initBitmapPmm_outside (hm : LimineMap map) (hroom : HasRoom map) {s : Kernel} {x : ℕ}
    (hbitmap : ¬(initBitmapPmm map s).HoldsBitmap (x / 4096))
    (hheap : ¬(initBitmapPmm map s).HoldsHeapBitmap (x / 4096)) :
    (initBitmapPmm map s).mem x = s.mem x := by
  have hfit := (buildBitmap_placed hm hroom s).fits hm
  obtain ⟨f, m, hbase, hlock, hmem⟩ := initBitmapPmm_cleared map s
  rw [initBitmapPmm_holdsBitmap] at hbitmap
  have hx : x < 4096 * f ∨ 4096 * f + 8192 * 8 ≤ x := by
    unfold Kernel.HoldsHeapBitmap at hheap
    omega
  rw [hmem, fill_outside _ _ hx]
  rcases hlock with rfl | ⟨hf, rfl⟩
  · exact buildBitmap_outside hm hroom s hbitmap
  · rw [setBit_outside (by unfold Fits; omega) _ hf hbitmap, buildBitmap_outside hm hroom s hbitmap]

/-- Clearing the heap bitmap unlocks no page if it does not meet the page bitmap. -/
theorem initBitmapPmm_stays_locked (hm : LimineMap map) (hroom : HasRoom map) {s : Kernel} {p : ℕ}
    (hapart : ∀ q, (initBitmapPmm map s).HoldsHeapBitmap q → ¬(initBitmapPmm map s).HoldsBitmap q)
    (hp : p < 64 * (buildBitmap map s).bitmapLength.toNat)
    (hlocked : (buildBitmap map s).locked p = true) : (initBitmapPmm map s).locked p = true := by
  have hplaced := buildBitmap_placed hm hroom s
  have hfit := hplaced.fits hm
  obtain ⟨f, m, hbase, hlock, hmem⟩ := initBitmapPmm_cleared map s
  have hkeep := bit_fill_apart m (by unfold Fits; omega) (heapBitmap_apart hbase hapart) hp
  rw [Kernel.locked, initBitmapPmm_pmm, hmem, hkeep]
  rcases hlock with rfl | ⟨hf, rfl⟩
  · exact hlocked
  · rw [WordArray.bit_setBit (hplaced.lawful hm) _ hf hp]
    change ((buildBitmap map s).locked p || _) = true
    rw [hlocked, Bool.true_or]

/-- When the pages of the heap bitmap are usable and apart from the page bitmap, the second of
them is still free after boot. -/
theorem heapBitmap_second_page (hm : LimineMap map) (hroom : HasRoom map) (s : Kernel)
    (hgot : heapBitmapFrame map s ≠ 0)
    (husable : ∀ p, (initBitmapPmm map s).HoldsHeapBitmap p → InUsable map p)
    (hapart : ∀ p, (initBitmapPmm map s).HoldsHeapBitmap p →
      ¬(initBitmapPmm map s).HoldsBitmap p) :
    ∃ p, (initBitmapPmm map s).HoldsHeapBitmap p ∧ (initBitmapPmm map s).locked p = false := by
  obtain ⟨f, -, -, -, hphys, hmem⟩ := heapBitmapFrame_spec hm hroom s hgot
  have hholds (p : ℕ) (h1 : f ≤ p) (h2 : p < f + 16) : (initBitmapPmm map s).HoldsHeapBitmap p := by
    unfold Kernel.HoldsHeapBitmap
    rw [hphys]
    omega
  have hwrap : 4096 * f + 8192 * 8 ≤ 2 ^ 64 := by
    obtain ⟨e, he, -, -, hend⟩ := husable _ (hholds (f + 15) (by omega) (by omega))
    have := hm.no_overflow e he
    omega
  have hsecond := hholds (f + 1) (by omega) (by omega)
  have hlt : f + 1 < 64 * (buildBitmap map s).bitmapLength.toNat := by
    rw [(buildBitmap_placed hm hroom s).length_eq]
    exact (husable _ hsecond).lt hm
  have hfree := (buildBitmap_locked hm hroom s hlt).mpr
    ⟨husable _ hsecond, by omega, by rw [← initBitmapPmm_holdsBitmap]; exact hapart _ hsecond⟩
  refine ⟨f + 1, hsecond, ?_⟩
  rw [initBitmapPmm_locked hm hroom hphys hmem hwrap hapart (by omega) hlt, hfree]
  simp

/-- On no memory map does `init_bitmap_pmm` reserve the storage of the heap bitmap. -/
theorem heapBitmap_never_reserved (hm : LimineMap map) (hroom : HasRoom map) (s : Kernel)
    (hgot : heapBitmapFrame map s ≠ 0) : ¬HeapBitmapReserved map (initBitmapPmm map s) := by
  intro h
  obtain ⟨p, hholds, hfree⟩ := heapBitmap_second_page hm hroom s hgot h.usable h.apart
  rw [h.locked p hholds] at hfree
  contradiction

section Map128M
variable (hhdm : Word)

theorem map128M_bitmap : (buildBitmap map128M (bootKernel hhdm)).bitmapLength = 512 ∧
    (buildBitmap map128M (bootKernel hhdm)).bitmapPhys = 4096 := by
  have hlen : getBitmapLength map128M pageToQword = 512 := by decide
  have hfind : (map128M.find? fun e => isEntryType limineMemmapUsable e &&
      decide ((512 : Word) * 8 ≤ e.length)) = some ⟨0x1000, 0x9E000, 0⟩ := by decide
  simp only [buildBitmap, bitmapPointer, bootKernel, hlen, hfind, Kernel.bitmapPhys, phys_add_self]
  decide

/-- Below 636 KiB everything but page 0 and the page of the bitmap is free. -/
theorem map128M_locked {p : ℕ} (hp : p < 159) :
    (buildBitmap map128M (bootKernel hhdm)).locked p = decide (p < 2) := by
  obtain ⟨hlen, hphys⟩ := map128M_bitmap hhdm
  have h512 : (512 : Word).toNat = 512 := rfl
  have hholds : (buildBitmap map128M (bootKernel hhdm)).HoldsBitmap p ↔ p = 1 := by
    unfold Kernel.HoldsBitmap
    rw [hphys, hlen, h512]
    omega
  have husable (h : 1 ≤ p) : InUsable map128M p :=
    ⟨⟨0x1000, 0x9E000, 0⟩, List.mem_cons_self, by decide, by change 4096 ≤ _; omega,
      by change _ ≤ 4096 + 647168; omega⟩
  apply buildBitmap_locked_eq map128M_limine map128M_hasRoom
  · rw [hlen]
    omega
  · rw [hholds]
    constructor
    · omega
    · intro h
      exact ⟨husable (by omega), by omega, by omega⟩

theorem map128M_heapBitmapFrame : heapBitmapFrame map128M (bootKernel hhdm) ≠ 0 := by
  have h0 := map128M_locked hhdm (show 0 < 159 by decide)
  have h2 := map128M_locked hhdm (show 2 < 159 by decide)
  obtain ⟨hlen, -⟩ := map128M_bitmap hhdm
  refine (pmmAlloc2_ne_zero_iff h0 ?_).mpr ⟨2, ?_, h2⟩
  · rw [hlen]; decide
  · rw [hlen]; decide

/-- On a machine with 128 MiB the heap bitmap covers pages 2 to 17, of which only page 2 is
locked: the next `pmm_alloc2` returns page 3, in the middle of the heap bitmap. -/
theorem map128M_heapBitmap_shared :
    ¬HeapBitmapReserved map128M (initBitmapPmm map128M (bootKernel hhdm)) ∧
    (initBitmapPmm map128M (bootKernel hhdm)).HoldsHeapBitmap 3 ∧
    (pmmAlloc2 (initBitmapPmm map128M (bootKernel hhdm)).pmm
      (initBitmapPmm map128M (bootKernel hhdm)).bitmapLength
      (initBitmapPmm map128M (bootKernel hhdm)).mem).1 = 0x3000 := by
  obtain ⟨f, hf, hclear, hset, hphys, hmem⟩ := heapBitmapFrame_spec map128M_limine map128M_hasRoom
    (bootKernel hhdm) (map128M_heapBitmapFrame hhdm)
  obtain ⟨hlen, hbase⟩ := map128M_bitmap hhdm
  have h512 : (512 : Word).toNat = 512 := rfl
  have hf2 : f = 2 := by
    have h0 := map128M_locked hhdm (show 0 < 159 by decide)
    have h1 := map128M_locked hhdm (show 1 < 159 by decide)
    have h2 := map128M_locked hhdm (show 2 < 159 by decide)
    by_contra hc
    rcases (by omega : f = 0 ∨ f = 1 ∨ 2 < f) with rfl | rfl | hlt
    · exact Bool.false_ne_true (hclear.symm.trans h0)
    · exact Bool.false_ne_true (hclear.symm.trans h1)
    · exact Bool.false_ne_true (h2.symm.trans (hset 2 hlt))
  subst hf2
  have hapart : ∀ q, (initBitmapPmm map128M (bootKernel hhdm)).HoldsHeapBitmap q →
      ¬(initBitmapPmm map128M (bootKernel hhdm)).HoldsBitmap q := by
    intro q hq hb
    rw [initBitmapPmm_holdsBitmap] at hb
    unfold Kernel.HoldsHeapBitmap at hq
    unfold Kernel.HoldsBitmap at hb
    rw [hphys] at hq
    rw [hbase, hlen, h512] at hb
    omega
  have hlocked (p : ℕ) (hp : p < 159) :
      (initBitmapPmm map128M (bootKernel hhdm)).locked p = decide (p < 3) := by
    rw [initBitmapPmm_locked map128M_limine map128M_hasRoom hphys hmem (by decide) hapart
      (by rw [hlen]; decide) (by rw [hlen]; omega), map128M_locked hhdm hp, ← Bool.decide_or]
    exact decide_eq_decide.mpr (by omega)
  have hthree : (initBitmapPmm map128M (bootKernel hhdm)).HoldsHeapBitmap 3 := by
    unfold Kernel.HoldsHeapBitmap
    rw [hphys]
    decide
  refine ⟨fun h => ?_, hthree, ?_⟩
  · exact Bool.false_ne_true ((hlocked 3 (by decide)).symm.trans (h.locked 3 hthree))
  · have hscan : 3 < scanned (initBitmapPmm map128M (bootKernel hhdm)).bitmapLength := by
      rw [initBitmapPmm_bitmapLength, hlen]
      decide
    have hlow : ∀ q < 3, (initBitmapPmm map128M (bootKernel hhdm)).locked q = true := by
      intro q hq
      rw [hlocked q (by omega), decide_eq_true hq]
    rw [pmmAlloc2_of_first hscan (hlocked 3 (by decide)) hlow]
    rfl

end Map128M

theorem heapBitmap_never_reserved_map128M :
    ¬HeapBitmapReserved map128M (initBitmapPmm map128M (bootKernel 0xFFFF800000000000)) :=
  heapBitmap_never_reserved map128M_limine map128M_hasRoom _
    (map128M_heapBitmapFrame 0xFFFF800000000000)

/-- With the direct map at the higher half the heap bitmap shares page 3. -/
theorem heapBitmap_overlap :
    ¬HeapBitmapReserved map128M (initBitmapPmm map128M (bootKernel 0xFFFF800000000000)) ∧
    (initBitmapPmm map128M (bootKernel 0xFFFF800000000000)).HoldsHeapBitmap 3 ∧
    (pmmAlloc2 (initBitmapPmm map128M (bootKernel 0xFFFF800000000000)).pmm
      (initBitmapPmm map128M (bootKernel 0xFFFF800000000000)).bitmapLength
      (initBitmapPmm map128M (bootKernel 0xFFFF800000000000)).mem).1 = 0x3000 :=
  map128M_heapBitmap_shared 0xFFFF800000000000

end Pmm
end LucidiOS
