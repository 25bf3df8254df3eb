import LucidiOS.Control.RecordSearch
import LucidiOS.Kernel.State

/-! ACPI tables as the kernel reads them: `findAPIC` and `madt_parsing`. -/
namespace LucidiOS
open ByteMemory

def Kernel.read8 (s : Kernel) (p : Word) : BitVec 8 := s.mem (phys s.gHhdmOffset p)

def Kernel.read32 (s : Kernel) (p : Word) : BitVec 32 :=
  s.read8 (p + 3) ++ s.read8 (p + 2) ++ s.read8 (p + 1) ++ s.read8 p

namespace Acpi

/-- `sizeof(acpi_header_t)`. -/
def acpiHeaderSize : Word := 36

/-- The field `length` of an `acpi_header_t`. -/
def headerLength (s : Kernel) (h : Word) : BitVec 32 := s.read32 (h + 4)

/-- The field `rsdt_Address` of an `rsdp_t`. -/
def rsdtAddress (s : Kernel) (rsdp : Word) : BitVec 32 := s.read32 (rsdp + 16)

/-- `pointerToOtherSDT[i]` of an `rsdt_t`. -/
def pointerToOtherSDT (s : Kernel) (rsdt : Word) (i : ℕ) : BitVec 32 :=
  s.read32 (rsdt + acpiHeaderSize + BitVec.ofNat 64 (4 * i))

def memcmp (s : Kernel) : Word → List (BitVec 8) → ℤ
  | _, [] => 0
  | p, c :: cs =>
      if s.read8 p ≠ c then if s.read8 p < c then -1 else 1
      else memcmp s (p + 1) cs

/-- "APIC". -/
def apicSignature : List (BitVec 8) := [0x41, 0x50, 0x49, 0x43]

/-- The loop of `findAPIC` over `n` slots from `i` on: its result, and the slots it reads. -/
def findAPICFrom (s : Kernel) (rsdt : Word) : ℕ → ℕ → Word × List ℕ
  | 0, _ => (0, [])
  | n + 1, i =>
      let physAddr := pointerToOtherSDT s rsdt i
      let h := physAddr.setWidth 64 + s.gHhdmOffset
      if memcmp s h apicSignature = 0 then (h, [i])
      else
        let rest := findAPICFrom s rsdt n (i + 1)
        (rest.1, i :: rest.2)

def findAPIC (s : Kernel) (rsdt : Word) : Word × List ℕ :=
  let entries := ((headerLength s rsdt).setWidth 64 - acpiHeaderSize) / 4
  findAPICFrom s rsdt entries.toNat 0

/-- What one turn of the loop of `madt_parsing` does, and the bytes of the table that it reads. -/
structure EntryVisit where
  next : Word ⊕ Option Word
  reads : List Word

def madtEntry (s : Kernel) (endPtr ptr : Word) : EntryVisit :=
  if ptr < endPtr then
    let type := s.read8 ptr
    let length := s.read8 (ptr + 1)
    if type = 1 then
      ⟨.inr (some ((s.read32 (ptr + 4)).setWidth 64 + s.gHhdmOffset)),
        [ptr, ptr + 1, ptr + 4, ptr + 5, ptr + 6, ptr + 7]⟩
    else ⟨.inl (ptr + length.setWidth 64), [ptr, ptr + 1]⟩
  else ⟨.inr none, []⟩

def madtEnd (s : Kernel) (theMadt : Word) : Word :=
  theMadt + (headerLength s theMadt).setWidth 64

def madtLoop (s : Kernel) (theMadt ptr : Word) : Word ⊕ Option Word :=
  (madtEntry s (madtEnd s theMadt) ptr).next

/-- The entries begin after the header and two fields. -/
def madtStart (theMadt : Word) : Word := theMadt + 44

/-- `apic_rsdt` and `the_madt`. -/
def apicRsdt (s : Kernel) (rsdpPointer : Word) : Word :=
  (rsdtAddress s rsdpPointer).setWidth 64 + s.gHhdmOffset

def theMadt (s : Kernel) (rsdpPointer : Word) : Word := (findAPIC s (apicRsdt s rsdpPointer)).1

/-- The state after `madt_parsing`, if its loop ends within `n` turns. -/
def madtParsing (rsdpPointer : Word) (n : ℕ) (s : Kernel) : Option Kernel :=
  let madt := theMadt s rsdpPointer
  if madt = 0 then some s
  else (Loop.run (madtLoop s madt) n (madtStart madt)).map fun
    | some base => { s with ioapicBase := base }
    | none => s

/-- The entries of a MADT by their offsets in the table. -/
def entries (s : Kernel) (madt : Word) : RecordStream where
  start := 44
  limit := (headerLength s madt).toNat
  size o := (s.read8 (madt + BitVec.ofNat 64 (o + 1))).toNat
  hit o := s.read8 (madt + BitVec.ofNat 64 o) == 1

/-- The address field of the entry at an offset. -/
def ioapicAddress (s : Kernel) (madt : Word) (o : ℕ) : BitVec 32 :=
  s.read32 (madt + BitVec.ofNat 64 (o + 4))

/-- The entries of the table that `findAPIC` finds. -/
def madtEntries (s : Kernel) (rsdpPointer : Word) : RecordStream :=
  entries s (theMadt s rsdpPointer)

/-- The value of `ioapic_base` that the entry at an offset gives. -/
def ioapicBaseAt (s : Kernel) (madt : Word) (o : ℕ) : Word :=
  (ioapicAddress s madt o).setWidth 64 + s.gHhdmOffset

/-- The direct map of the first 16 GiB does not wrap around. -/
def LowDirectMap (s : Kernel) : Prop := s.gHhdmOffset.toNat + 2 ^ 34 ≤ 2 ^ 64

section Rsdt
variable {s : Kernel} {rsdt : Word}

theorem findAPICFrom_slots (n i : ℕ) : ∀ j ∈ (findAPICFrom s rsdt n i).2, j < i + n := by
  induction n generalizing i with
  | zero => simp [findAPICFrom]
  | succ n ih =>
    intro j hj
    rw [findAPICFrom] at hj
    split_ifs at hj with h
    · rw [List.mem_singleton] at hj
      omega
    · rcases List.mem_cons.mp hj with rfl | hj
      · omega
      · have := ih (i + 1) j hj
        omega

theorem findAPICFrom_first (n i : ℕ) : i ∈ (findAPICFrom s rsdt (n + 1) i).2 := by
  rw [findAPICFrom]
  split_ifs with h <;> simp

/-- The table found is at a 32-bit address of the direct map. -/
theorem findAPICFrom_table (n i : ℕ) : (findAPICFrom s rsdt n i).1 = 0 ∨
    ∃ a : BitVec 32, (findAPICFrom s rsdt n i).1 = a.setWidth 64 + s.gHhdmOffset := by
  induction n generalizing i with
  | zero => exact .inl rfl
  | succ n ih =>
    rw [findAPICFrom]
    split_ifs with h
    · exact .inr ⟨_, rfl⟩
    · exact ih (i + 1)

/-- A table of at least the size of its header has as many slots as fit in it. -/
theorem entries_toNat {w : BitVec 32} (h : 36 ≤ w.toNat) :
    ((w.setWidth 64 - acpiHeaderSize) / 4).toNat = (w.toNat - 36) / 4 := by
  have hw := w.isLt
  have h36 : acpiHeaderSize.toNat = 36 := rfl
  have h4 : (4 : Word).toNat = 4 := rfl
  rw [BitVec.toNat_udiv, BitVec.toNat_sub, BitVec.toNat_setWidth, h36, h4]
  congr 1
  omega

/-- Below that the subtraction wraps around. -/
theorem entries_pos {w : BitVec 32} (h : w.toNat < 36) :
    0 < ((w.setWidth 64 - acpiHeaderSize) / 4).toNat := by
  have h36 : acpiHeaderSize.toNat = 36 := rfl
  have h4 : (4 : Word).toNat = 4 := rfl
  rw [BitVec.toNat_udiv, BitVec.toNat_sub, BitVec.toNat_setWidth, h36, h4]
  omega

/-- `findAPIC` keeps to the slots of its table exactly when the table has a full header. -/
theorem findAPIC_slots_iff :
    (∀ i ∈ (findAPIC s rsdt).2, 36 + 4 * i + 4 ≤ (headerLength s rsdt).toNat) ↔
      36 ≤ (headerLength s rsdt).toNat := by
  constructor
  · intro h
    by_contra hshort
    obtain ⟨n, hn⟩ := Nat.exists_eq_succ_of_ne_zero
      (entries_pos (show (headerLength s rsdt).toNat < 36 by omega)).ne'
    have hfirst : 0 ∈ (findAPIC s rsdt).2 := by
      rw [findAPIC, hn]
      exact findAPICFrom_first n 0
    have := h 0 hfirst
    omega
  · intro h i hi
    rw [findAPIC, entries_toNat h] at hi
    have := findAPICFrom_slots _ _ i hi
    omega

end Rsdt

section Entry
variable {s : Kernel} {endPtr ptr : Word}

theorem madtEntry_past (h : ¬ptr < endPtr) : madtEntry s endPtr ptr = ⟨.inr none, []⟩ := if_neg h

theorem madtEntry_ioapic (h : ptr < endPtr) (htype : s.read8 ptr = 1) :
    madtEntry s endPtr ptr = ⟨.inr (some ((s.read32 (ptr + 4)).setWidth 64 + s.gHhdmOffset)),
      [ptr, ptr + 1, ptr + 4, ptr + 5, ptr + 6, ptr + 7]⟩ := by
  rw [madtEntry, if_pos h]
  exact if_pos htype

theorem madtEntry_other (h : ptr < endPtr) (htype : s.read8 ptr ≠ 1) :
    madtEntry s endPtr ptr =
      ⟨.inl (ptr + (s.read8 (ptr + 1)).setWidth 64), [ptr, ptr + 1]⟩ := by
  rw [madtEntry, if_pos h]
  exact if_neg htype

theorem madtLoop_eq_some {madt base : Word} (h : madtLoop s madt ptr = .inr (some base)) :
    ptr < madtEnd s madt ∧ s.read8 ptr = 1 ∧
      (s.read32 (ptr + 4)).setWidth 64 + s.gHhdmOffset = base := by
  by_cases hlt : ptr < madtEnd s madt
  · by_cases htype : s.read8 ptr = 1
    · rw [madtLoop, madtEntry_ioapic hlt htype, Sum.inr.injEq, Option.some.injEq] at h
      exact ⟨hlt, htype, h⟩
    · rw [madtLoop, madtEntry_other hlt htype] at h
      exact absurd h (by simp)
  · rw [madtLoop, madtEntry_past hlt] at h
    exact absurd h (by simp)

end Entry

section Madt
variable {s : Kernel} {madt : Word}

theorem theMadt_fits (hlow : LowDirectMap s) {rsdpPointer : Word}
    (h : theMadt s rsdpPointer ≠ 0) : (theMadt s rsdpPointer).toNat + 2 ^ 33 ≤ 2 ^ 64 := by
  have htable : theMadt s rsdpPointer = 0 ∨
      ∃ a : BitVec 32, theMadt s rsdpPointer = a.setWidth 64 + s.gHhdmOffset :=
    findAPICFrom_table _ 0
  rcases htable with h0 | ⟨a, hsum⟩
  · exact absurd h0 h
  · have := a.isLt
    unfold LowDirectMap at hlow
    rw [hsum, BitVec.toNat_add, BitVec.toNat_setWidth]
    omega

/-- A pointer of the walk and its offset in the table. -/
def PointsTo (madt ptr : Word) (o : ℕ) : Prop :=
  ptr = madt + BitVec.ofNat 64 o ∧ o < 2 ^ 32 + 2 ^ 8

theorem PointsTo.hit {ptr : Word} {o : ℕ} (h : PointsTo madt ptr o) :
    (entries s madt).hit o = (s.read8 ptr == 1) := by
  rw [h.1]
  rfl

theorem PointsTo.add {ptr : Word} {o : ℕ} (h : PointsTo madt ptr o) (k : ℕ) :
    ptr + BitVec.ofNat 64 k = madt + BitVec.ofNat 64 (o + k) := by
  rw [h.1, BitVec.add_assoc, BitVec.ofNat_add]

variable (hmadt : madt.toNat + 2 ^ 33 ≤ 2 ^ 64)
include hmadt

theorem PointsTo.toNat {ptr : Word} {o : ℕ} (h : PointsTo madt ptr o) :
    ptr.toNat = madt.toNat + o := by
  have := h.2
  rw [h.1, BitVec.toNat_add, BitVec.toNat_ofNat]
  omega

theorem madtEnd_toNat : (madtEnd s madt).toNat = madt.toNat + (headerLength s madt).toNat := by
  have := (headerLength s madt).isLt
  rw [madtEnd, BitVec.toNat_add, BitVec.toNat_setWidth]
  omega

theorem PointsTo.lt_end {ptr : Word} {o : ℕ} (h : PointsTo madt ptr o) :
    ptr < madtEnd s madt ↔ o < (entries s madt).limit := by
  rw [BitVec.lt_def, h.toNat hmadt, madtEnd_toNat hmadt]
  simp only [entries]
  omega

/-- The pointer loop is the search for the first entry of type 1. -/
theorem madtLoop_simulates : Loop.Simulates (madtLoop s madt) (entries s madt).searchStep
    (PointsTo madt) fun r o => r = o.map (ioapicBaseAt s madt) := by
  intro ptr o h
  have hlimit : (entries s madt).limit < 2 ^ 32 := (headerLength s madt).isLt
  unfold madtLoop RecordStream.searchStep
  by_cases hlt : o < (entries s madt).limit
  · rw [if_pos hlt]
    by_cases htype : s.read8 ptr = 1
    · have hhit : (entries s madt).hit o = true := by rw [h.hit, htype, beq_self_eq_true]
      rw [madtEntry_ioapic ((h.lt_end hmadt).mpr hlt) htype, if_pos hhit]
      refine .inr ?_
      rw [Option.map_some, ioapicBaseAt, ioapicAddress, ← h.add 4]
      rfl
    · have hhit : (entries s madt).hit o = false := by rwa [h.hit, beq_eq_false_iff_ne]
      have hbyte : (s.read8 (ptr + 1)).toNat = (entries s madt).size o := by
        rw [show (1 : Word) = BitVec.ofNat 64 1 from rfl, h.add 1]
        rfl
      have hsmall := (s.read8 (ptr + 1)).isLt
      rw [madtEntry_other ((h.lt_end hmadt).mpr hlt) htype, hhit]
      refine .inl ⟨?_, by omega⟩
      rw [← hbyte, ← h.add]
      congr 1
      apply BitVec.eq_of_toNat_eq
      rw [BitVec.toNat_setWidth, BitVec.toNat_ofNat]
  · rw [madtEntry_past fun hc => hlt ((h.lt_end hmadt).mp hc), if_neg hlt]
    exact .inr rfl

/-- A turn of the loop that goes on passes over one entry. -/
theorem PointsTo.step {ptr q : Word} {o : ℕ} (h : PointsTo madt ptr o)
    (hstep : madtLoop s madt ptr = .inl q) :
    o < (entries s madt).limit ∧ (entries s madt).hit o = false ∧
      PointsTo madt q (o + (entries s madt).size o) := by
  have hlift := madtLoop_simulates hmadt (s := s) ptr o h
  rw [hstep] at hlift
  cases hs : (entries s madt).searchStep o with
  | inr _ =>
    rw [hs] at hlift
    exact absurd hlift Sum.not_liftRel_inl_inr
  | inl o' =>
    obtain ⟨hlt, hhit, rfl⟩ := RecordStream.searchStep_eq_inl.mp hs
    rw [hs, Sum.liftRel_inl_inl] at hlift
    exact ⟨hlt, hhit, hlift⟩

omit hmadt in
theorem madtStart_points : PointsTo madt (madtStart madt) (entries s madt).start :=
  ⟨rfl, show 44 < 2 ^ 32 + 2 ^ 8 by decide⟩

/-- The loop reads entries exactly where the search reaches them. -/
theorem visits_iff {ptr : Word} : Loop.Visits (madtLoop s madt) (madtStart madt) ptr ↔
    ∃ o, PointsTo madt ptr o ∧ (entries s madt).Reached o := by
  have hsim := madtLoop_simulates hmadt (s := s)
  constructor
  · intro h
    obtain ⟨o, ho, hp⟩ := hsim.visits madtStart_points h
    exact ⟨o, hp, RecordStream.visits_iff.mp ho⟩
  · rintro ⟨o, hp, ho⟩
    obtain ⟨q, hq, hqo⟩ := hsim.symm.visits madtStart_points (RecordStream.visits_iff.mpr ho)
    rwa [hp.1, ← hqo.1]

/-- The loop finds what the search finds. -/
theorem run_madtLoop (n : ℕ) : Loop.run (madtLoop s madt) n (madtStart madt) =
    (Loop.run (entries s madt).searchStep n (entries s madt).start).map
      (Option.map (ioapicBaseAt s madt)) :=
  (madtLoop_simulates hmadt).run_eq_map madtStart_points n

end Madt
end Acpi
end LucidiOS
