import LucidiOS.Apic.VectorClosure

/-! The redirection entry that `set_IRQ` programs. -/
namespace LucidiOS.Apic

/-- The register with the lower half of a redirection entry. -/
def entryLow (n : ℕ) : BitVec 32 := BitVec.ofNat 32 (0x10 + 2 * n)

def entryHigh (n : ℕ) : BitVec 32 := BitVec.ofNat 32 (0x10 + 2 * n + 1)

/-- The id of the local APIC that an entry names in physical mode, in its upper half. -/
def destination (w : BitVec 32) : BitVec 8 := w.extractLsb' 24 8

/-- Entry `n` delivers a vector to the first local APIC: fixed, physical, active high, by edge and
not masked. The registers of the other entries are as they were. -/
structure Programs (n : ℕ) (vector : BitVec 8) (d d' : IoApic) : Prop where
  vector : (d'.reg (entryLow n)).setWidth 8 = vector
  delivery : deliveryMode (d'.reg (entryLow n)) = fixed
  physical : (d'.reg (entryLow n)).getLsbD 11 = false
  activeHigh : (d'.reg (entryLow n)).getLsbD 13 = false
  edge : (d'.reg (entryLow n)).getLsbD 15 = false
  unmasked : masked (d'.reg (entryLow n)) = false
  destination : destination (d'.reg (entryHigh n)) = 0
  others : ∀ r, r ≠ entryLow n → r ≠ entryHigh n → d'.reg r = d.reg r

theorem ioapicRedtbl_low {n : Word} (hn : 0x10 + 2 * n.toNat + 1 ≤ 0xFF) :
    (ioapicRedtbl n).setWidth 32 = entryLow n.toNat := by
  have h16 : (0x10 : Word).toNat = 0x10 := rfl
  have h2 : (2 : Word).toNat = 2 := rfl
  apply BitVec.eq_of_toNat_eq
  rw [BitVec.toNat_setWidth, ioapicRedtbl, BitVec.toNat_add, BitVec.toNat_mul, h16, h2, entryLow,
    BitVec.toNat_ofNat]
  omega

theorem entryHigh_ne {n : ℕ} (hn : 0x10 + 2 * n + 1 ≤ 0xFF) : entryHigh n ≠ entryLow n := by
  intro heq
  have := congrArg BitVec.toNat heq
  rw [entryHigh, entryLow, BitVec.toNat_ofNat, BitVec.toNat_ofNat] at this
  omega

/-- A vector alone is an entry that delivers it with all other fields 0. -/
theorem vector_fields (vector : BitVec 8) :
    (vector.setWidth 32).setWidth 8 = vector ∧ deliveryMode (vector.setWidth 32) = fixed ∧
      ∀ k, 8 ≤ k → (vector.setWidth 32 : BitVec 32).getLsbD k = false := by
  have hhigh (k : ℕ) (hk : 8 ≤ k) : (vector.setWidth 32 : BitVec 32).getLsbD k = false := by
    rw [BitVec.getLsbD_setWidth, BitVec.getLsbD_of_ge vector k hk, Bool.and_false]
  refine ⟨?_, (deliveryMode_eq_iff _ _).mpr ⟨?_, ?_, ?_⟩, hhigh⟩
  · rw [BitVec.setWidth_setWidth_of_le vector (by decide), BitVec.setWidth_eq]
  · exact hhigh 8 (by decide)
  · exact hhigh 9 (by decide)
  · exact hhigh 10 (by decide)

/-- `set_IRQ` programs its entry if and only if the firmware has left the entry's destination 0. -/
theorem setIRQ_programs_iff (base n : Word) (vector : BitVec 8) (d : IoApic)
    (hn : 0x10 + 2 * n.toNat + 1 ≤ 0xFF) :
    Programs n.toNat vector d (setIRQ (ioApicAt base) base n vector d) ↔
      destination (d.reg (entryHigh n.toNat)) = 0 := by
  have hreg : (setIRQ (ioApicAt base) base n vector d).reg =
      Function.update d.reg (entryLow n.toNat) (vector.setWidth 32) := by
    rw [setIRQ_eq, ioapicRedtbl_low hn]
  have hlow : (setIRQ (ioApicAt base) base n vector d).reg (entryLow n.toNat) =
      vector.setWidth 32 := by
    rw [hreg, Function.update_self]
  have hhigh : (setIRQ (ioApicAt base) base n vector d).reg (entryHigh n.toNat) =
      d.reg (entryHigh n.toNat) := by
    rw [hreg, Function.update_of_ne (entryHigh_ne hn)]
  obtain ⟨hvector, hmode, hzero⟩ := vector_fields vector
  constructor
  · intro h
    have hdest := h.destination
    rwa [hhigh] at hdest
  · intro hdest
    constructor
    · rw [hlow, hvector]
    · rw [hlow, hmode]
    · rw [hlow, hzero 11 (by decide)]
    · rw [hlow, hzero 13 (by decide)]
    · rw [hlow, hzero 15 (by decide)]
    · rw [hlow, masked, hzero 16 (by decide)]
    · rw [hhigh, hdest]
    · intro r hr _
      rw [hreg, Function.update_of_ne hr]

/-- Every entry masked, and entry 1 for the local APIC with the given id. -/
def firmwareIoApic (id : BitVec 8) : IoApic where
  select := 0
  reg r := if r = 0x13 then id.setWidth 32 <<< 24 else 0x10000

theorem setIRQ_programs_iff_keyboard :
    Programs 1 0x32 (firmwareIoApic 0)
      (setIRQ (ioApicAt 0xFFFF8000FEC00000) 0xFFFF8000FEC00000 1 0x32 (firmwareIoApic 0)) :=
  (setIRQ_programs_iff 0xFFFF8000FEC00000 1 0x32 (firmwareIoApic 0) (by decide)).mpr (by decide)

/-- The keyboard interrupt still goes to the local APIC that the firmware chose. -/
theorem setIRQ_keeps_destination :
    destination ((setIRQ (ioApicAt 0xFFFF8000FEC00000) 0xFFFF8000FEC00000 1 0x32
        (firmwareIoApic 1)).reg (entryHigh 1)) = 1 ∧
      ¬Programs 1 0x32 (firmwareIoApic 1)
        (setIRQ (ioApicAt 0xFFFF8000FEC00000) 0xFFFF8000FEC00000 1 0x32 (firmwareIoApic 1)) := by
  have hdest : destination ((setIRQ (ioApicAt 0xFFFF8000FEC00000) 0xFFFF8000FEC00000 1 0x32
      (firmwareIoApic 1)).reg (entryHigh 1)) = 1 := by decide
  refine ⟨hdest, fun h => ?_⟩
  have hzero := h.destination
  rw [hdest] at hzero
  exact absurd hzero (by decide)

end LucidiOS.Apic
