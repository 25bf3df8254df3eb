import LucidiOS.Pmm.MemoryMap
import LucidiOS.Pmm.Storage

/-! The page bitmap that `init_bitmap_pmm` builds. -/
namespace LucidiOS
open ByteMemory Pmm

namespace Pmm
variable {σ : Type*} {map : List MemmapEntry}

theorem setUseableRam_eq (map : List MemmapEntry) (A : WordArray σ) (s : σ) :
    setUseableRam map A s =
      ((freedPages map).map BitVec.toNat).foldl (fun s p => A.clearBit p s) s := by
  simp only [setUseableRam, pmmFreePage_eq, List.foldl_map]

theorem protectBitmapSpace_eq (hhdm ptr L : Word) (A : WordArray σ) (s : σ) :
    protectBitmapSpace hhdm ptr L A s =
      ((protectedPages hhdm ptr L).map BitVec.toNat).foldl (fun s p => A.setBit p s) s := by
  simp only [protectBitmapSpace, pmmLockPage_eq, List.foldl_map]

theorem mem_entryPages {e : MemmapEntry} {p : ℕ}
    (hend : e.base.toNat + e.length.toNat ≤ 2 ^ 64 - 4096) (hbase : e.base.toNat % 4096 = 0)
    (hlen : e.length.toNat % 4096 = 0) :
    p ∈ (entryPages e).map BitVec.toNat ↔
      e.base.toNat ≤ 4096 * p ∧ 4096 * p + 4096 ≤ e.base.toNat + e.length.toNat := by
  have h4096 : (4096 : Word).toNat = 4096 := rfl
  have hval : ∀ j < e.length.toNat / 4096,
      (e.base / 4096 + BitVec.ofNat 64 j).toNat = e.base.toNat / 4096 + j := by
    intro j hj
    rw [BitVec.toNat_add, BitVec.toNat_udiv, h4096, BitVec.toNat_ofNat]
    omega
  simp only [entryPages, List.map_map, List.mem_map, List.mem_range, Function.comp_apply,
    BitVec.toNat_udiv, h4096]
  constructor
  · rintro ⟨j, hj, rfl⟩
    rw [hval j hj]
    omega
  · intro h
    refine ⟨p - e.base.toNat / 4096, by omega, ?_⟩
    rw [hval _ (by omega)]
    omega

/-- `set_useable_ram` frees the pages of the usable entries and no others. -/
theorem mem_freedPages (h : LimineMap map) {p : ℕ} :
    p ∈ (freedPages map).map BitVec.toNat ↔ InUsable map p := by
  simp only [freedPages, List.map_flatMap, List.mem_flatMap, InUsable]
  constructor
  · rintro ⟨e, he, hp⟩
    split_ifs at hp with hu
    · obtain ⟨hb, hl⟩ := h.aligned e he hu
      exact ⟨e, he, hu, (mem_entryPages (h.no_overflow e he) hb hl).mp hp⟩
    · simp at hp
  · rintro ⟨e, he, hu, hp⟩
    obtain ⟨hb, hl⟩ := h.aligned e he hu
    exact ⟨e, he, by rw [if_pos hu]; exact (mem_entryPages (h.no_overflow e he) hb hl).mpr hp⟩

/-- `protect_bitmap_space` locks the pages that hold the bitmap. -/
theorem mem_protectedPages {hhdm ptr L : Word} {p : ℕ} (hL : L.toNat ≤ 2 ^ 46)
    (hpos : 0 < L.toNat) (halign : phys hhdm ptr % 4096 = 0)
    (hfit : phys hhdm ptr + 8 * L.toNat ≤ 2 ^ 64) :
    p ∈ (protectedPages hhdm ptr L).map BitVec.toNat ↔
      4096 * p < phys hhdm ptr + 8 * L.toNat ∧ phys hhdm ptr < 4096 * p + 4096 := by
  have h4096 : (4096 : Word).toNat = 4096 := rfl
  have h8 : (8 : Word).toNat = 8 := rfl
  have h1 : (1 : Word).toNat = 1 := rfl
  have hcount : ((L * 8 + 4096 - 1) / 4096).toNat = (8 * L.toNat + 4095) / 4096 := by
    rw [BitVec.toNat_udiv, h4096, BitVec.toNat_sub, BitVec.toNat_add, BitVec.toNat_mul, h4096, h8,
      h1]
    omega
  have hval : ∀ i < (8 * L.toNat + 4095) / 4096,
      ((ptr - hhdm) / 4096 + BitVec.ofNat 64 i).toNat = phys hhdm ptr / 4096 + i := by
    intro i hi
    rw [BitVec.toNat_add, BitVec.toNat_udiv, h4096, BitVec.toNat_ofNat]
    change (phys hhdm ptr / 4096 + i % 2 ^ 64) % 2 ^ 64 = _
    have := phys_lt hhdm ptr
    omega
  simp only [protectedPages, List.map_map, List.mem_map, List.mem_range, Function.comp_apply,
    hcount]
  constructor
  · rintro ⟨i, hi, rfl⟩
    rw [hval i hi]
    omega
  · intro h
    refine ⟨p - phys hhdm ptr / 4096, by omega, ?_⟩
    rw [hval _ (by omega)]
    omega

theorem bit_allBitmap1 {A : WordArray σ} {L : Word} (h : A.Lawful L.toNat) (s : σ) {p : ℕ}
    (hp : p < 64 * L.toNat) : A.bit (allBitmap1 L A s) p = true := by
  have hrow : p / 64 < L.toNat := by omega
  rw [WordArray.bit, allBitmap1, WordArray.get_foldl_set h _ _ le_rfl s hrow, if_pos hrow,
    BitVec.getLsbD_not]
  simp [Nat.mod_lt]

/-- The bits that the writes of `init_bitmap_pmm` leave in any array. -/
theorem bit_boot {A : WordArray σ} {hhdm ptr L : Word} (h : A.Lawful L.toNat)
    (hpos : 0 < L.toNat) (hfreed : ∀ q ∈ (freedPages map).map BitVec.toNat, q < 64 * L.toNat)
    (hprot : ∀ q ∈ (protectedPages hhdm ptr L).map BitVec.toNat, q < 64 * L.toNat) (s : σ) {p : ℕ}
    (hp : p < 64 * L.toNat) :
    A.bit (pmmLockPage A 0 (protectBitmapSpace hhdm ptr L A
      (setUseableRam map A (allBitmap1 L A s)))) p = false ↔
      p ∈ (freedPages map).map BitVec.toNat ∧ p ≠ 0 ∧
        p ∉ (protectedPages hhdm ptr L).map BitVec.toNat := by
  have hzero : (0 : Word).toNat = 0 := rfl
  rw [pmmLockPage_eq, hzero, WordArray.bit_setBit h _ (show 0 < 64 * L.toNat by omega) hp, protectBitmapSpace_eq,
    WordArray.bit_foldl_setBit h _ _ hprot hp, setUseableRam_eq,
    WordArray.bit_foldl_clearBit h _ _ hfreed hp, bit_allBitmap1 h _ hp]
  simp only [Bool.true_and, Bool.or_eq_false_iff, Bool.not_eq_false', decide_eq_true_eq,
    decide_eq_false_iff_not]
  tauto

/-- Some usable entry has room for the bitmap. -/
def HasRoom (map : List MemmapEntry) : Prop :=
  ∃ e ∈ map, isEntryType limineMemmapUsable e = true ∧
    8 * (getBitmapLength map pageToQword).toNat ≤ e.length.toNat

theorem bitmapPointer_spec (hroom : HasRoom map) (s : Kernel)
    (hs : s.bitmapLength = getBitmapLength map pageToQword) :
    ∃ e ∈ map, isEntryType limineMemmapUsable e = true ∧
      8 * s.bitmapLength.toNat ≤ e.length.toNat ∧
      bitmapPointer map s = { s with bitmap := e.base + s.gHhdmOffset } := by
  have hL := getBitmapLength_le map
  have h8 : (8 : Word).toNat = 8 := rfl
  have hbytes : (s.bitmapLength * 8).toNat = 8 * s.bitmapLength.toNat := by
    rw [BitVec.toNat_mul, h8, hs]
    omega
  obtain ⟨e₀, he₀, hu₀, hlen₀⟩ := hroom
  have hle (e : MemmapEntry) :
      s.bitmapLength * 8 ≤ e.length ↔ 8 * s.bitmapLength.toNat ≤ e.length.toNat := by
    rw [BitVec.le_def, hbytes]
  cases hf : map.find? fun e => isEntryType limineMemmapUsable e &&
      decide (s.bitmapLength * 8 ≤ e.length) with
  | none =>
    have := List.find?_eq_none.mp hf e₀ he₀
    rw [← hs] at hlen₀
    simp only [hu₀, Bool.true_and, decide_eq_true_eq, hle] at this
    exact absurd hlen₀ this
  | some e =>
    have hmem := List.mem_of_find?_eq_some hf
    have hp := List.find?_some hf
    simp only [Bool.and_eq_true, decide_eq_true_eq, hle] at hp
    exact ⟨e, hmem, hp.1, hp.2, by simp only [bitmapPointer, hf]⟩

/-- Where the bitmap lies once `bitmap_pointer` has found room for it. -/
structure BitmapPlaced (map : List MemmapEntry) (s : Kernel) : Prop where
  length_eq : s.bitmapLength = getBitmapLength map pageToQword
  length_pos : 0 < s.bitmapLength.toNat
  aligned : s.bitmapPhys % 4096 = 0
  inEntry : ∃ e ∈ map, isEntryType limineMemmapUsable e = true ∧
    e.base.toNat = s.bitmapPhys ∧ 8 * s.bitmapLength.toNat ≤ e.length.toNat

theorem BitmapPlaced.fits {s : Kernel} (h : BitmapPlaced map s) (hm : LimineMap map) :
    s.bitmapPhys + 8 * s.bitmapLength.toNat ≤ 2 ^ 64 - 4096 := by
  obtain ⟨e, he, -, hbase, hlen⟩ := h.inEntry
  have := hm.no_overflow e he
  omega

theorem BitmapPlaced.lawful {s : Kernel} (h : BitmapPlaced map s) (hm : LimineMap map) :
    s.pmm.Lawful s.bitmapLength.toNat :=
  pointerArray_lawful (by have := h.fits hm; unfold Kernel.bitmapPhys at this; omega)

/-- The pages that hold the bitmap are usable pages. -/
theorem BitmapPlaced.inUsable {s : Kernel} (h : BitmapPlaced map s) (hm : LimineMap map) {p : ℕ}
    (hp : s.HoldsBitmap p) : InUsable map p := by
  obtain ⟨e, he, hu, hbase, hlen⟩ := h.inEntry
  obtain ⟨hb, hl⟩ := hm.aligned e he hu
  have := h.aligned
  unfold Kernel.HoldsBitmap at hp
  exact ⟨e, he, hu, by omega, by omega⟩

theorem InUsable.lt (hm : LimineMap map) {p : ℕ} (hp : InUsable map p) :
    p < 64 * (getBitmapLength map pageToQword).toNat := by
  obtain ⟨e, he, -, h1, h2⟩ := hp
  have := hm.end_le he
  omega

theorem bitmapPointer_placed (hm : LimineMap map) (hroom : HasRoom map) (s : Kernel)
    (hs : s.bitmapLength = getBitmapLength map pageToQword) :
    BitmapPlaced map (bitmapPointer map s) := by
  obtain ⟨e, he, hu, hlen, heq⟩ := bitmapPointer_spec hroom s hs
  have hphys : (bitmapPointer map s).bitmapPhys = e.base.toNat := by
    rw [heq, Kernel.bitmapPhys, phys_add_self]
  have hpos : 0 < e.length.toNat := by
    have := hm.length_pos e he
    rw [Ne, ← BitVec.toNat_inj] at this
    simp at this
    omega
  constructor
  · rw [heq]; exact hs
  · have := hm.end_le he
    rw [heq]
    simp only [hs]
    omega
  · rw [hphys]; exact (hm.aligned e he hu).1
  · exact ⟨e, he, hu, hphys.symm, by rw [heq]; exact hlen⟩

theorem buildBitmap_placed (hm : LimineMap map) (hroom : HasRoom map) (s : Kernel) :
    BitmapPlaced map (buildBitmap map s) := by
  have h := bitmapPointer_placed hm hroom
    { s with bitmapLength := getBitmapLength map pageToQword } rfl
  exact ⟨h.length_eq, h.length_pos, h.aligned, h.inEntry⟩

/-- What is protected are the pages of the bitmap. -/
theorem buildBitmap_protected (hm : LimineMap map) (hroom : HasRoom map) (s : Kernel) {q : ℕ} :
    q ∈ (protectedPages (buildBitmap map s).gHhdmOffset (buildBitmap map s).bitmap
      (buildBitmap map s).bitmapLength).map BitVec.toNat ↔ (buildBitmap map s).HoldsBitmap q := by
  have hplaced := buildBitmap_placed hm hroom s
  have hfits := hplaced.fits hm
  have hL := getBitmapLength_le map
  rw [← hplaced.length_eq] at hL
  exact mem_protectedPages hL hplaced.length_pos hplaced.aligned
    (show (buildBitmap map s).bitmapPhys + _ ≤ _ by omega)

/-- The pages passed to `pmm_free_page` and `pmm_lock_page` lie in the bitmap. -/
theorem buildBitmap_indices (hm : LimineMap map) (hroom : HasRoom map) (s : Kernel) :
    (∀ q ∈ (freedPages map).map BitVec.toNat,
      q < 64 * (buildBitmap map s).bitmapLength.toNat) ∧
    ∀ q ∈ (protectedPages (buildBitmap map s).gHhdmOffset (buildBitmap map s).bitmap
      (buildBitmap map s).bitmapLength).map BitVec.toNat,
      ((buildBitmap map s).HoldsBitmap q ∧
        q < 64 * (buildBitmap map s).bitmapLength.toNat) := by
  have hplaced := buildBitmap_placed hm hroom s
  constructor
  · intro q hq
    rw [hplaced.length_eq]
    exact ((mem_freedPages hm).mp hq).lt hm
  · intro q hq
    have hholds := (buildBitmap_protected hm hroom s).mp hq
    refine ⟨hholds, ?_⟩
    rw [hplaced.length_eq]
    exact (hplaced.inUsable hm hholds).lt hm

/-- Before the heap bitmap is allocated, the free pages are the usable ones other than page 0 and
the pages of the bitmap itself. -/
theorem buildBitmap_locked (hm : LimineMap map) (hroom : HasRoom map) (s : Kernel) {p : ℕ}
    (hp : p < 64 * (buildBitmap map s).bitmapLength.toNat) :
    (buildBitmap map s).locked p = false ↔
      InUsable map p ∧ p ≠ 0 ∧ ¬(buildBitmap map s).HoldsBitmap p := by
  have hplaced := buildBitmap_placed hm hroom s
  obtain ⟨hfreed, hprot⟩ := buildBitmap_indices hm hroom s
  have hboot := bit_boot (hplaced.lawful hm) hplaced.length_pos hfreed
    (fun q hq => (hprot q hq).2)
    (bitmapPointer map { s with bitmapLength := getBitmapLength map pageToQword }).mem hp
  rw [mem_freedPages hm, buildBitmap_protected hm hroom s] at hboot
  exact hboot

theorem buildBitmap_locked_eq (hm : LimineMap map) (hroom : HasRoom map) (s : Kernel) {p : ℕ}
    {P : Prop} [Decidable P] (hp : p < 64 * (buildBitmap map s).bitmapLength.toNat)
    (hP : InUsable map p ∧ p ≠ 0 ∧ ¬(buildBitmap map s).HoldsBitmap p ↔ ¬P) :
    (buildBitmap map s).locked p = decide P := by
  have hiff := (buildBitmap_locked hm hroom s hp).trans hP
  by_cases h : P
  · rw [decide_eq_true h, ← Bool.not_eq_false, hiff]
    exact not_not_intro h
  · rw [decide_eq_false h, hiff]
    exact h

/-- Building the bitmap writes to its own pages only. -/
theorem buildBitmap_outside (hm : LimineMap map) (hroom : HasRoom map) (s : Kernel) {x : ℕ}
    (hx : ¬(buildBitmap map s).HoldsBitmap (x / 4096)) : (buildBitmap map s).mem x = s.mem x := by
  have hplaced := buildBitmap_placed hm hroom s
  have hfit : Fits (buildBitmap map s) := by
    have := hplaced.fits hm
    unfold Fits
    omega
  obtain ⟨hfreed, hprot⟩ := buildBitmap_indices hm hroom s
  obtain ⟨e, -, -, -, hpointer⟩ := bitmapPointer_spec hroom
    { s with bitmapLength := getBitmapLength map pageToQword } rfl
  have hmem : (bitmapPointer map { s with bitmapLength := getBitmapLength map pageToQword }).mem =
      s.mem := by rw [hpointer]
  rw [← hmem]
  have hzero : (0 : Word).toNat < 64 * (buildBitmap map s).bitmapLength.toNat := by
    have := hplaced.length_pos
    change 0 < _
    omega
  have hbuilt : (buildBitmap map s).mem =
      pmmLockPage (buildBitmap map s).pmm 0 (protectBitmapSpace (buildBitmap map s).gHhdmOffset
        (buildBitmap map s).bitmap (buildBitmap map s).bitmapLength (buildBitmap map s).pmm
        (setUseableRam map (buildBitmap map s).pmm (allBitmap1 (buildBitmap map s).bitmapLength
          (buildBitmap map s).pmm (bitmapPointer map
            { s with bitmapLength := getBitmapLength map pageToQword }).mem))) := rfl
  rw [hbuilt, pmmLockPage_eq, setBit_outside hfit _ hzero hx, protectBitmapSpace_eq,
    foldl_outside fun m q hq => setBit_outside hfit m (hprot q hq).2 hx, setUseableRam_eq,
    foldl_outside fun m q hq => clearBit_outside hfit m (hfreed q hq) hx, allBitmap1,
    foldl_outside fun m i hi => set_outside hfit m (List.mem_range.mp hi) _ hx]

/-- The bitmap handed to `heap_bitmap_pointer` is exact, and every page index passed to
`pmm_free_page` and `pmm_lock_page` on the way lies in it. -/
theorem buildBitmap_exact (hm : LimineMap map) (hroom : HasRoom map) (s : Kernel) :
    (∀ p < 64 * (buildBitmap map s).bitmapLength.toNat,
      ((buildBitmap map s).locked p = false ↔
        InUsable map p ∧ p ≠ 0 ∧ ¬(buildBitmap map s).HoldsBitmap p)) ∧
    ∀ i ∈ freedPages map ++ protectedPages (buildBitmap map s).gHhdmOffset
      (buildBitmap map s).bitmap (buildBitmap map s).bitmapLength ++ [0],
      i.toNat < 64 * (buildBitmap map s).bitmapLength.toNat := by
  obtain ⟨hfreed, hprot⟩ := buildBitmap_indices hm hroom s
  have hpos := (buildBitmap_placed hm hroom s).length_pos
  refine ⟨fun p hp => buildBitmap_locked hm hroom s hp, fun i hi => ?_⟩
  rw [List.append_assoc, List.mem_append, List.mem_append, List.mem_singleton] at hi
  rcases hi with hi | hi | rfl
  · exact hfreed _ (List.mem_map_of_mem hi)
  · exact (hprot _ (List.mem_map_of_mem hi)).2
  · change 0 < _
    omega

/-- A kernel at its entry point, with the direct map at `hhdm`. -/
def bootKernel (hhdm : Word) : Kernel := ⟨fun _ => 0, 0, hhdm, 0, 0, 0, 0⟩

theorem map128M_hasRoom : HasRoom map128M := ⟨_, List.mem_cons_self, by decide, by decide⟩

theorem buildBitmap_exact_map128M :
    (∀ p < 64 * (buildBitmap map128M (bootKernel 0xFFFF800000000000)).bitmapLength.toNat,
      ((buildBitmap map128M (bootKernel 0xFFFF800000000000)).locked p = false ↔
        InUsable map128M p ∧ p ≠ 0 ∧
          ¬(buildBitmap map128M (bootKernel 0xFFFF800000000000)).HoldsBitmap p)) ∧
    0 < 64 * (buildBitmap map128M (bootKernel 0xFFFF800000000000)).bitmapLength.toNat := by
  obtain ⟨hexact, hindices⟩ := buildBitmap_exact map128M_limine map128M_hasRoom
    (bootKernel 0xFFFF800000000000)
  exact ⟨hexact, hindices 0 (List.mem_append_right _ List.mem_cons_self)⟩

end Pmm
end LucidiOS
