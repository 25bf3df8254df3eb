import LucidiOS.Acpi.Walks

/-! What `madt_parsing` finds in tables that are well formed. -/
namespace LucidiOS.Acpi
open ByteMemory

/-- The signature of a table. -/
def signature (s : Kernel) (h : Word) : List (BitVec 8) :=
  (List.range 4).map fun i => s.read8 (h + BitVec.ofNat 64 i)

/-- The table that a slot of an RSDT lists. -/
def listedTable (s : Kernel) (rsdt : Word) (i : ℕ) : Word :=
  (pointerToOtherSDT s rsdt i).setWidth 64 + s.gHhdmOffset

/-- The tables listed in an RSDT, one for each four bytes after the header. -/
def listedTables (s : Kernel) (rsdt : Word) : List Word :=
  (List.range (((headerLength s rsdt).toNat - 36) / 4)).map (listedTable s rsdt)

/-- The first listed table that is a MADT. -/
def firstMadt (s : Kernel) (rsdt : Word) : Option Word :=
  (listedTables s rsdt).find? fun h => signature s h = apicSignature

/-- Entries of at least two bytes at the given offsets fill a MADT. -/
structure MadtTiled (s : Kernel) (madt : Word) (os : List ℕ) : Prop where
  tiles : (entries s madt).Tiles 44 os
  size : ∀ o ∈ os, 2 ≤ (entries s madt).size o

/-- The kernel with the I/O APIC of the first entry of type 1. -/
def withFirstIoapic (s : Kernel) (madt : Word) (os : List ℕ) : Kernel :=
  match os.find? (entries s madt).hit with
  | some o => { s with ioapicBase := s.gHhdmOffset + (ioapicAddress s madt o).setWidth 64 }
  | none => s

section Signature
variable {s : Kernel}

/-- `memcmp` is 0 for equal bytes only. -/
theorem memcmp_eq_zero (p : Word) (cs : List (BitVec 8)) :
    memcmp s p cs = 0 ↔
      (List.range cs.length).map (fun i => s.read8 (p + BitVec.ofNat 64 i)) = cs := by
  induction cs generalizing p with
  | nil => exact iff_of_true rfl rfl
  | cons c cs ih =>
    have hnext (i : ℕ) : p + BitVec.ofNat 64 (i + 1) = p + 1 + BitVec.ofNat 64 i := by
      rw [BitVec.add_assoc, Nat.add_comm, BitVec.ofNat_add]
      rfl
    have hfirst : p + BitVec.ofNat 64 0 = p := BitVec.add_zero p
    rw [List.length_cons, List.range_succ_eq_map, List.map_cons, List.map_map, List.cons.injEq,
      hfirst]
    simp only [Function.comp_def, Nat.succ_eq_add_one, hnext, ← ih]
    rw [memcmp]
    split_ifs with hne hlt
    · simp [hne]
    · simp [hne]
    · simp [not_not.mp hne]

theorem memcmp_signature (h : Word) :
    memcmp s h apicSignature = 0 ↔ signature s h = apicSignature := memcmp_eq_zero h apicSignature

end Signature

section Rsdt
variable {s : Kernel} {rsdt : Word}

/-- The loop of `findAPIC` is a search through the slots. -/
theorem findAPICFrom_eq (n i : ℕ) : (findAPICFrom s rsdt n i).1 =
    (((List.range' i n).map (listedTable s rsdt)).find? fun h =>
      signature s h = apicSignature).getD 0 := by
  induction n generalizing i with
  | zero => rfl
  | succ n ih =>
    rw [findAPICFrom, List.range'_succ, List.map_cons, List.find?_cons]
    split_ifs with hcmp
    · have hsig : signature s (listedTable s rsdt i) = apicSignature := (memcmp_signature _).mp hcmp
      simp only [hsig, decide_true, Option.getD_some]
      rfl
    · have hsig : signature s (listedTable s rsdt i) ≠ apicSignature :=
        fun hc => hcmp ((memcmp_signature _).mpr hc)
      simp only [hsig, decide_false]
      exact ih (i + 1)

/-- `findAPIC` finds the first MADT of an RSDT that has a full header. -/
theorem findAPIC_eq (h : 36 ≤ (headerLength s rsdt).toNat) :
    (findAPIC s rsdt).1 = (firstMadt s rsdt).getD 0 := by
  rw [findAPIC, entries_toNat h, findAPICFrom_eq, ← List.range_eq_range']
  rfl

/-- No listed table is at a null pointer. -/
theorem firstMadt_ne_zero (hlow : LowDirectMap s) (hhigh : s.gHhdmOffset ≠ 0) {madt : Word}
    (h : firstMadt s rsdt = some madt) : madt ≠ 0 := by
  obtain ⟨i, -, rfl⟩ := List.mem_map.mp (List.mem_of_find?_eq_some h)
  have hslot := (pointerToOtherSDT s rsdt i).isLt
  have hpos : 0 < s.gHhdmOffset.toNat := Nat.pos_of_ne_zero fun hc =>
    hhigh (BitVec.eq_of_toNat_eq hc)
  intro hzero
  have hsum := congrArg BitVec.toNat hzero
  unfold LowDirectMap at hlow
  rw [listedTable, BitVec.toNat_add, BitVec.toNat_setWidth] at hsum
  change _ = 0 at hsum
  omega

end Rsdt

/-- `madt_parsing` leaves `ioapic_base` alone when no MADT is listed, and otherwise sets it to the
direct-map address of the first I/O APIC of the first MADT, if there is one. -/
theorem madtParsing_discovers {s : Kernel} (hlow : LowDirectMap s) (hhigh : s.gHhdmOffset ≠ 0)
    (rsdpPointer : Word) (hrsdt : 36 ≤ (headerLength s (apicRsdt s rsdpPointer)).toNat) :
    (firstMadt s (apicRsdt s rsdpPointer) = none →
      ∃ n, madtParsing rsdpPointer n s = some s) ∧
    ∀ madt os, firstMadt s (apicRsdt s rsdpPointer) = some madt → MadtTiled s madt os →
      ∃ n, madtParsing rsdpPointer n s = some (withFirstIoapic s madt os) := by
  have hfound : theMadt s rsdpPointer = (firstMadt s (apicRsdt s rsdpPointer)).getD 0 :=
    findAPIC_eq hrsdt
  constructor
  · intro hnone
    rw [hnone] at hfound
    exact ⟨0, madtParsing_of_none hfound 0⟩
  · intro madt os hmadt htiled
    have hne := firstMadt_ne_zero hlow hhigh hmadt
    rw [hmadt, Option.getD_some] at hfound
    subst hfound
    have hpos (o : ℕ) (ho : o ∈ os) : 0 < (madtEntries s rsdpPointer).size o := by
      have : 2 ≤ (madtEntries s rsdpPointer).size o := htiled.size o ho
      omega
    have htiles : (madtEntries s rsdpPointer).Tiles (madtEntries s rsdpPointer).start os :=
      htiled.tiles
    rw [madtParsing_eq_some_iff hlow hne]
    cases hfind : os.find? (entries s (theMadt s rsdpPointer)).hit with
    | none =>
      have hstop := htiles.find_eq_none hpos .first hfind
      exact .inr ⟨⟨_, hstop, Nat.le_refl _⟩, by rw [withFirstIoapic, hfind]⟩
    | some o =>
      obtain ⟨ho, hlt, hhit⟩ := htiles.find_eq_some hpos .first hfind
      refine .inl ⟨o, ho, hlt, hhit, ?_⟩
      rw [withFirstIoapic, hfind, ioapicBaseAt, BitVec.add_comm]

theorem madtParsing_discovers_pc :
    (∃ n, madtParsing testRsdp n pcTables =
      some (withFirstIoapic pcTables 0xFFFF800000003000 [44, 52])) ∧
    (withFirstIoapic pcTables 0xFFFF800000003000 [44, 52]).ioapicBase = 0xFFFF8000FEC00000 := by
  have htiled : MadtTiled pcTables 0xFFFF800000003000 [44, 52] :=
    ⟨by decide +kernel, by decide +kernel⟩
  refine ⟨(madtParsing_discovers (withTables_low _) (by decide) testRsdp (by decide +kernel)).2
    0xFFFF800000003000 [44, 52] (by decide +kernel) htiled, ?_⟩
  decide +kernel

end LucidiOS.Acpi
