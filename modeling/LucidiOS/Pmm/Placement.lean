import LucidiOS.Pmm.HeapBitmap

/-! Where the page bitmap is placed, and what is written when no entry has room for it. -/
namespace WordArray
variable {σ : Type*}

/-- An array together with the list of its elements written, the last one first. -/
def recorded (A : WordArray σ) : WordArray (σ × List ℕ) where
  get s i := A.get s.1 i
  set s i w := (A.set s.1 i w, i :: s.2)

end WordArray

namespace LucidiOS.Pmm
open ByteMemory

/-- The writes of `init_bitmap_pmm` to the page bitmap, up to those of its call of `pmm_alloc2`:
the memory that they leave, and the words written. -/
def recordedBoot (map : List MemmapEntry) (s : Kernel) : Memory × List ℕ :=
  let s := { s with bitmapLength := getBitmapLength map pageToQword }
  let s := bitmapPointer map s
  let bitmap := s.pmm.recorded
  let r := allBitmap1 s.bitmapLength bitmap (s.mem, [])
  let r := setUseableRam map bitmap r
  let r := protectBitmapSpace s.gHhdmOffset s.bitmap s.bitmapLength bitmap r
  let r := pmmLockPage bitmap 0 r
  (pmmAlloc2 bitmap s.bitmapLength r).2

/-- The indices of the bitmap words that `init_bitmap_pmm` writes. -/
def bitmapWrites (map : List MemmapEntry) (s : Kernel) : List ℕ := (recordedBoot map s).2

/-- The words of the bitmap are written only if it lies inside a usable entry, and not at all if no
usable entry is large enough. -/
structure PlacementSafe (map : List MemmapEntry) (s : Kernel) : Prop where
  inside : bitmapWrites map s ≠ [] → ∃ e ∈ map, isEntryType limineMemmapUsable e = true ∧
    e.base.toNat ≤ (buildBitmap map s).bitmapPhys ∧
    (buildBitmap map s).bitmapPhys + 8 * (buildBitmap map s).bitmapLength.toNat ≤
      e.base.toNat + e.length.toNat
  missing : (∀ e ∈ map, isEntryType limineMemmapUsable e = true →
    e.length.toNat < 8 * (buildBitmap map s).bitmapLength.toNat) → bitmapWrites map s = []

section Recorded
variable {σ : Type*} (A : WordArray σ) (s : σ × List ℕ)

theorem allBitmap1_recorded (L : Word) :
    (allBitmap1 L A.recorded s).1 = allBitmap1 L A s.1 :=
  (List.foldl_hom Prod.fst fun _ _ => rfl).symm

theorem setUseableRam_recorded (map : List MemmapEntry) :
    (setUseableRam map A.recorded s).1 = setUseableRam map A s.1 :=
  (List.foldl_hom Prod.fst fun _ _ => rfl).symm

theorem protectBitmapSpace_recorded (hhdm ptr L : Word) :
    (protectBitmapSpace hhdm ptr L A.recorded s).1 = protectBitmapSpace hhdm ptr L A s.1 :=
  (List.foldl_hom Prod.fst fun _ _ => rfl).symm

theorem pmmAlloc2_recorded (L : Word) :
    (pmmAlloc2 A.recorded L s).2.1 = (pmmAlloc2 A L s.1).2 ∧
      s.2 <:+ (pmmAlloc2 A.recorded L s).2.2 := by
  have hscan : pmmScan A.recorded L s = pmmScan A L s.1 := rfl
  unfold pmmAlloc2
  rw [hscan]
  cases pmmScan A L s.1 with
  | none => exact ⟨rfl, List.suffix_refl _⟩
  | some ij => exact ⟨rfl, List.suffix_cons _ _⟩

theorem recorded_ne_nil (L p : Word) :
    (pmmAlloc2 A.recorded L (pmmLockPage A.recorded p s)).2.2 ≠ [] := by
  intro hnil
  have hsuffix := (pmmAlloc2_recorded A (pmmLockPage A.recorded p s) L).2
  rw [hnil, List.suffix_nil] at hsuffix
  exact absurd hsuffix (List.cons_ne_nil _ _)

end Recorded

section Placement
variable {map : List MemmapEntry}

/-- The recorded writes are the ones of `init_bitmap_pmm`. -/
theorem recordedBoot_mem (map : List MemmapEntry) (s : Kernel) :
    (recordedBoot map s).1 = (pmmAlloc2 (buildBitmap map s).pmm (buildBitmap map s).bitmapLength
      (buildBitmap map s).mem).2 := by
  have hlock (A : WordArray Memory) (r : Memory × List ℕ) :
      (pmmLockPage A.recorded 0 r).1 = pmmLockPage A 0 r.1 := rfl
  simp only [recordedBoot]
  rw [(pmmAlloc2_recorded _ _ _).1, hlock, protectBitmapSpace_recorded, setUseableRam_recorded,
    allBitmap1_recorded]
  rfl

/-- Page 0 is locked in any case. -/
theorem bitmapWrites_ne_nil (map : List MemmapEntry) (s : Kernel) : bitmapWrites map s ≠ [] := by
  rw [bitmapWrites, recordedBoot]
  exact recorded_ne_nil _ _ _ _

/-- `bitmap_pointer` puts the bitmap at the start of an entry that has room for it. -/
theorem buildBitmap_inEntry (hroom : HasRoom map) (s : Kernel) :
    ∃ e ∈ map, isEntryType limineMemmapUsable e = true ∧
      (buildBitmap map s).bitmapPhys = e.base.toNat ∧
      8 * (buildBitmap map s).bitmapLength.toNat ≤ e.length.toNat := by
  obtain ⟨e, he, hu, hlen, heq⟩ := bitmapPointer_spec hroom
    { s with bitmapLength := getBitmapLength map pageToQword } rfl
  have hlength : (buildBitmap map s).bitmapLength = getBitmapLength map pageToQword :=
    congrArg Kernel.bitmapLength heq
  have hphys : (buildBitmap map s).bitmapPhys = (bitmapPointer map
    { s with bitmapLength := getBitmapLength map pageToQword }).bitmapPhys := rfl
  refine ⟨e, he, hu, ?_, by rw [hlength]; exact hlen⟩
  rw [hphys, heq, Kernel.bitmapPhys, phys_add_self]

/-- The placement is safe exactly when some usable entry has room for the bitmap. -/
theorem placementSafe_iff (map : List MemmapEntry) (s : Kernel) :
    PlacementSafe map s ↔ HasRoom map := by
  constructor
  · intro h
    by_contra hroom
    refine bitmapWrites_ne_nil map s (h.missing fun e he hu => ?_)
    by_contra hlen
    have hlength : (buildBitmap map s).bitmapLength = getBitmapLength map pageToQword := by
      simp only [buildBitmap]
      rw [bitmapPointer]
      cases map.find? _ <;> rfl
    rw [hlength] at hlen
    exact hroom ⟨e, he, hu, by omega⟩
  · intro hroom
    obtain ⟨e, he, hu, hphys, hlen⟩ := buildBitmap_inEntry hroom s
    refine ⟨fun _ => ⟨e, he, hu, by omega, by omega⟩, fun hnone => ?_⟩
    have := hnone e he hu
    omega

end Placement

/-- Little memory below a reserved page at 16 TiB. -/
def sparseMap : List MemmapEntry := [⟨0x1000, 0x9E000, 0⟩, ⟨0x100000000000, 0x1000, 1⟩]

theorem sparseMap_limine : LimineMap sparseMap where
  length_pos := by decide
  no_overflow := by decide
  aligned := by decide
  no_overlap := by
    simp only [sparseMap, List.pairwise_cons, List.mem_singleton, forall_eq, List.not_mem_nil,
      false_imp_iff, implies_true, List.Pairwise.nil, and_true]
    exact fun _ => Or.inl (by decide)

/-- The bitmap of 512 MiB stays at the null pointer, and is written there. -/
theorem sparseMap_written_at_null :
    LimineMap sparseMap ∧
      (∀ e ∈ sparseMap, isEntryType limineMemmapUsable e = true →
        e.length.toNat < 8 * (getBitmapLength sparseMap pageToQword).toNat) ∧
      (buildBitmap sparseMap (bootKernel 0xFFFF800000000000)).bitmap = 0 ∧
      bitmapWrites sparseMap (bootKernel 0xFFFF800000000000) ≠ [] ∧
      ¬PlacementSafe sparseMap (bootKernel 0xFFFF800000000000) := by
  have hsmall : ∀ e ∈ sparseMap, isEntryType limineMemmapUsable e = true →
      e.length.toNat < 8 * (getBitmapLength sparseMap pageToQword).toNat := by decide
  have hwrites := bitmapWrites_ne_nil sparseMap (bootKernel 0xFFFF800000000000)
  refine ⟨sparseMap_limine, hsmall, rfl, hwrites, fun h => hwrites (h.missing ?_)⟩
  exact hsmall

end LucidiOS.Pmm
