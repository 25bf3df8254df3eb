import LucidiOS.Acpi.Tables

/-! When the walks over the ACPI tables end, and when they stay inside their tables. -/
namespace LucidiOS.Acpi
open ByteMemory

/-- `madt_parsing` returns, and its entry pointer moves forward with every turn of the loop. -/
structure WalkEnds (s : Kernel) (rsdpPointer : Word) : Prop where
  returns : ∃ n t, madtParsing rsdpPointer n s = some t
  forward : let madt := theMadt s rsdpPointer
    madt ≠ 0 → ∀ p q, Loop.Visits (madtLoop s madt) (madtStart madt) p → madtLoop s madt p = .inl q →
      p < q

/-- The slots that `findAPIC` reads lie in the RSDT, and what the walk reads lies below the end of
the MADT. -/
structure WalksInside (s : Kernel) (rsdpPointer : Word) : Prop where
  rsdt : let rsdt := apicRsdt s rsdpPointer
    ∀ i ∈ (findAPIC s rsdt).2, 36 + 4 * i + 4 ≤ (headerLength s rsdt).toNat
  madt : let madt := theMadt s rsdpPointer
    madt ≠ 0 → ∀ p, Loop.Visits (madtLoop s madt) (madtStart madt) p →
      ∀ a ∈ (madtEntry s (madtEnd s madt) p).reads, a < madtEnd s madt

section Parsing
variable {s : Kernel} {rsdpPointer : Word}

theorem madtParsing_of_none (h : theMadt s rsdpPointer = 0) (n : ℕ) :
    madtParsing rsdpPointer n s = some s := by
  rw [madtParsing]
  exact if_pos h

/-- `madt_parsing` is the search for the first entry of type 1. -/
theorem madtParsing_eq_some_iff (hlow : LowDirectMap s) (h : theMadt s rsdpPointer ≠ 0)
    {t : Kernel} : (∃ n, madtParsing rsdpPointer n s = some t) ↔
      (∃ o, (madtEntries s rsdpPointer).Reached o ∧ o < (madtEntries s rsdpPointer).limit ∧
        (madtEntries s rsdpPointer).hit o = true ∧
        t = { s with ioapicBase := ioapicBaseAt s (theMadt s rsdpPointer) o }) ∨
      (∃ o, (madtEntries s rsdpPointer).Reached o ∧ (madtEntries s rsdpPointer).limit ≤ o) ∧
        t = s := by
  have hmadt := theMadt_fits hlow h
  unfold madtParsing
  simp only [if_neg h, run_madtLoop hmadt, Option.map_map, Option.map_eq_some_iff]
  constructor
  · rintro ⟨n, r, hr, rfl⟩
    cases r with
    | none => exact .inr ⟨RecordStream.search_eq_none_iff.mp ⟨n, hr⟩, rfl⟩
    | some o =>
      obtain ⟨ho, hlt, hhit⟩ := RecordStream.search_eq_some_iff.mp ⟨n, hr⟩
      exact .inl ⟨o, ho, hlt, hhit, rfl⟩
  · rintro (⟨o, ho, hlt, hhit, rfl⟩ | ⟨hnone, rfl⟩)
    · obtain ⟨n, hn⟩ := RecordStream.search_eq_some_iff.mpr ⟨ho, hlt, hhit⟩
      exact ⟨n, some o, hn, rfl⟩
    · obtain ⟨n, hn⟩ := RecordStream.search_eq_none_iff.mpr hnone
      exact ⟨n, none, hn, rfl⟩

theorem madtParsing_returns_iff (hlow : LowDirectMap s) (h : theMadt s rsdpPointer ≠ 0) :
    (∃ n t, madtParsing rsdpPointer n s = some t) ↔
      ∀ o, (madtEntries s rsdpPointer).Reached o → o < (madtEntries s rsdpPointer).limit →
        (madtEntries s rsdpPointer).hit o = false → 0 < (madtEntries s rsdpPointer).size o := by
  have hmadt := theMadt_fits hlow h
  rw [← RecordStream.search_terminates_iff, madtEntries,
    ← (madtLoop_simulates hmadt).terminates_iff madtStart_points]
  unfold madtParsing Loop.Terminates
  simp only [if_neg h, Option.map_eq_some_iff]
  exact exists_congr fun n => ⟨fun ⟨_, r, hr, _⟩ => ⟨r, hr⟩, fun ⟨r, hr⟩ => ⟨_, r, hr, rfl⟩⟩

/-- `madt_parsing` writes no memory, and leaves the direct-map address of a 32-bit address in
`ioapic_base` or does not change it. -/
theorem madtParsing_ioapicBase {n : ℕ} {t : Kernel} (h : madtParsing rsdpPointer n s = some t) :
    t = s ∨ ∃ a : BitVec 32, t = { s with ioapicBase := a.setWidth 64 + s.gHhdmOffset } := by
  rw [madtParsing] at h
  split_ifs at h with h0
  · rw [Option.some.injEq] at h
    exact .inl h.symm
  · obtain ⟨r, hr, rfl⟩ := Option.map_eq_some_iff.mp h
    cases r with
    | none => exact .inl rfl
    | some base =>
      obtain ⟨p, -, hp⟩ := Loop.exists_run_iff.mp ⟨n, hr⟩
      obtain ⟨hlt, htype, rfl⟩ := madtLoop_eq_some hp
      exact .inr ⟨_, rfl⟩

end Parsing

/-- Every walk ends unless an entry of length 0, of another type than 1, stands in the table before
the first I/O APIC. -/
theorem walkEnds_iff {s : Kernel} (hlow : LowDirectMap s) (rsdpPointer : Word) :
    WalkEnds s rsdpPointer ↔ (theMadt s rsdpPointer ≠ 0 →
      ∀ o, (madtEntries s rsdpPointer).Reached o → o < (madtEntries s rsdpPointer).limit →
        (madtEntries s rsdpPointer).hit o = false → 0 < (madtEntries s rsdpPointer).size o) := by
  constructor
  · intro h hne
    exact (madtParsing_returns_iff hlow hne).mp h.returns
  · intro h
    by_cases hne : theMadt s rsdpPointer = 0
    · exact ⟨⟨0, s, madtParsing_of_none hne 0⟩, fun hc => absurd hne hc⟩
    refine ⟨(madtParsing_returns_iff hlow hne).mpr (h hne), fun _ p q hp hstep => ?_⟩
    have hmadt := theMadt_fits hlow hne
    obtain ⟨o, hpo, ho⟩ := (visits_iff hmadt).mp hp
    obtain ⟨hlt, hhit, hqo⟩ := hpo.step hmadt hstep
    have hpos : 0 < (entries s (theMadt s rsdpPointer)).size o := h hne o ho hlt hhit
    rw [BitVec.lt_def, hpo.toNat hmadt, hqo.toNat hmadt]
    omega

/-- A kernel with tables in memory at the given physical addresses, before any other set-up. -/
def withTables (tables : List (ℕ × List (BitVec 8))) : Kernel where
  mem a := (tables.findSome? fun t => if t.1 ≤ a then t.2[a - t.1]? else none).getD 0
  cr3 := 0
  gHhdmOffset := 0xFFFF800000000000
  bitmapLength := 0
  bitmap := 0
  heapBitmap := 0
  ioapicBase := 0

/-- An RSDP at 0x1000 and, at 0x2000, an RSDT of the given length that lists a table at 0x3000. -/
def rootTables (length : BitVec 8) : List (ℕ × List (BitVec 8)) :=
  [(0x1010, [0x00, 0x20, 0, 0]), (0x2004, [length]), (0x2024, [0x00, 0x30, 0, 0])]

/-- A MADT at 0x3000. -/
def madtTable (length : BitVec 8) (body : List (BitVec 8)) : List (ℕ × List (BitVec 8)) :=
  [(0x3000, apicSignature ++ [length]), (0x302C, body)]

def testRsdp : Word := 0xFFFF800000001000

theorem withTables_low (tables : List (ℕ × List (BitVec 8))) : LowDirectMap (withTables tables) :=
  show 0xFFFF800000000000 + 2 ^ 34 ≤ 2 ^ 64 by decide

/-- A processor and an I/O APIC. -/
def pcTables : Kernel :=
  withTables (rootTables 40 ++
    madtTable 64 [0, 8, 0, 0, 1, 0, 0, 0, 1, 12, 2, 0, 0x00, 0x00, 0xC0, 0xFE, 0, 0, 0, 0])

theorem walkEnds_iff_pc : WalkEnds pcTables testRsdp ↔ (theMadt pcTables testRsdp ≠ 0 →
    ∀ o, (madtEntries pcTables testRsdp).Reached o → o < (madtEntries pcTables testRsdp).limit →
      (madtEntries pcTables testRsdp).hit o = false →
        0 < (madtEntries pcTables testRsdp).size o) :=
  walkEnds_iff (withTables_low _) testRsdp

/-- One entry, of length 0. -/
def zeroLengthTables : Kernel := withTables (rootTables 40 ++ madtTable 46 [0, 0])

theorem zeroLength_hangs :
    theMadt zeroLengthTables testRsdp = 0xFFFF800000003000 ∧
      ¬WalkEnds zeroLengthTables testRsdp := by
  have hmadt : theMadt zeroLengthTables testRsdp = 0xFFFF800000003000 := by decide +kernel
  refine ⟨hmadt, fun h => ?_⟩
  have hne : theMadt zeroLengthTables testRsdp ≠ 0 := by
    rw [hmadt]
    decide
  have hlow : LowDirectMap zeroLengthTables := withTables_low _
  have hpos := (madtParsing_returns_iff hlow hne).mp h.returns 44 .first
  rw [madtEntries, hmadt] at hpos
  exact absurd (hpos (by decide +kernel) (by decide +kernel)) (by decide +kernel)

section Reads
variable {s : Kernel} {madt ptr : Word} {o : ℕ}

theorem PointsTo.offset_lt_end (hmadt : madt.toNat + 2 ^ 33 ≤ 2 ^ 64) (h : PointsTo madt ptr o)
    {k : ℕ} (hk : o + k < 2 ^ 32 + 2 ^ 8) :
    ptr + BitVec.ofNat 64 k < madtEnd s madt ↔ o + k < (entries s madt).limit :=
  PointsTo.lt_end hmadt ⟨h.add k, hk⟩

/-- What the loop reads of an entry lies in the table exactly when the entry is not cut off. -/
theorem PointsTo.reads_iff (hmadt : madt.toNat + 2 ^ 33 ≤ 2 ^ 64) (h : PointsTo madt ptr o) :
    (∀ a ∈ (madtEntry s (madtEnd s madt) ptr).reads, a < madtEnd s madt) ↔
      (o < (entries s madt).limit → o + 2 ≤ (entries s madt).limit ∧
        ((entries s madt).hit o = true → o + 8 ≤ (entries s madt).limit)) := by
  have hlimit : (entries s madt).limit < 2 ^ 32 := (headerLength s madt).isLt
  have hin {k : ℕ} (hlt : o < (entries s madt).limit) (hk : k < 8) :=
    h.offset_lt_end (s := s) hmadt (show o + k < 2 ^ 32 + 2 ^ 8 by omega)
  by_cases hlt : o < (entries s madt).limit
  · have hlt' := (h.lt_end hmadt).mpr hlt
    have h1 := hin hlt (show 1 < 8 by decide)
    by_cases htype : s.read8 ptr = 1
    · have hhit : (entries s madt).hit o = true := by rw [h.hit, htype, beq_self_eq_true]
      have h4 := hin hlt (show 4 < 8 by decide)
      have h5 := hin hlt (show 5 < 8 by decide)
      have h6 := hin hlt (show 6 < 8 by decide)
      have h7 := hin hlt (show 7 < 8 by decide)
      rw [madtEntry_ioapic hlt' htype]
      simp only [List.forall_mem_cons, List.not_mem_nil, false_implies, implies_true, and_true]
      change ptr < _ ∧ ptr + BitVec.ofNat 64 1 < _ ∧ ptr + BitVec.ofNat 64 4 < _ ∧
        ptr + BitVec.ofNat 64 5 < _ ∧ ptr + BitVec.ofNat 64 6 < _ ∧
        ptr + BitVec.ofNat 64 7 < _ ↔ _
      rw [h1, h4, h5, h6, h7]
      simp only [hlt', hlt, hhit, true_and, true_implies]
      omega
    · have hhit : (entries s madt).hit o = false := by rwa [h.hit, beq_eq_false_iff_ne]
      rw [madtEntry_other hlt' htype]
      simp only [List.forall_mem_cons, List.not_mem_nil, false_implies, implies_true, and_true]
      change ptr < _ ∧ ptr + BitVec.ofNat 64 1 < _ ↔ _
      rw [h1]
      simp only [hlt', hlt, hhit, true_and, true_implies, Bool.false_eq_true, false_implies,
        and_true]
      omega
  · rw [madtEntry_past fun hc => hlt ((h.lt_end hmadt).mp hc)]
    simp [hlt]

end Reads

/-- The walks stay inside their tables exactly when the RSDT is no shorter than its header and no
entry of the MADT up to the first I/O APIC is cut off. -/
theorem walksInside_iff {s : Kernel} (hlow : LowDirectMap s) (rsdpPointer : Word) :
    WalksInside s rsdpPointer ↔ 36 ≤ (headerLength s (apicRsdt s rsdpPointer)).toNat ∧
      (theMadt s rsdpPointer ≠ 0 →
        ∀ o, (madtEntries s rsdpPointer).Reached o → o < (madtEntries s rsdpPointer).limit →
          o + 2 ≤ (madtEntries s rsdpPointer).limit ∧
          ((madtEntries s rsdpPointer).hit o = true →
            o + 8 ≤ (madtEntries s rsdpPointer).limit)) := by
  constructor
  · intro h
    refine ⟨findAPIC_slots_iff.mp h.rsdt, fun hne o ho => ?_⟩
    have hmadt := theMadt_fits hlow hne
    obtain ⟨p, hp, hpo⟩ := (madtLoop_simulates hmadt).symm.visits madtStart_points
      (RecordStream.visits_iff.mpr ho)
    exact (hpo.reads_iff hmadt).mp (h.madt hne p hp)
  · rintro ⟨hrsdt, h⟩
    refine ⟨findAPIC_slots_iff.mpr hrsdt, fun hne p hp => ?_⟩
    have hmadt := theMadt_fits hlow hne
    obtain ⟨o, hpo, ho⟩ := (visits_iff hmadt).mp hp
    exact (hpo.reads_iff hmadt).mpr (h hne o ho)

theorem walksInside_iff_pc : WalksInside pcTables testRsdp ↔
    36 ≤ (headerLength pcTables (apicRsdt pcTables testRsdp)).toNat ∧
      (theMadt pcTables testRsdp ≠ 0 →
        ∀ o, (madtEntries pcTables testRsdp).Reached o →
          o < (madtEntries pcTables testRsdp).limit →
          o + 2 ≤ (madtEntries pcTables testRsdp).limit ∧
          ((madtEntries pcTables testRsdp).hit o = true →
            o + 8 ≤ (madtEntries pcTables testRsdp).limit)) :=
  walksInside_iff (withTables_low _) testRsdp

/-- An RSDT that ends in front of its only slot, and a MADT that ends inside its only entry. -/
def cutOffTables : Kernel := withTables (rootTables 35 ++ madtTable 45 [1, 12])

theorem cutOff_not_inside :
    (headerLength cutOffTables (apicRsdt cutOffTables testRsdp)).toNat = 35 ∧
      0 ∈ (findAPIC cutOffTables (apicRsdt cutOffTables testRsdp)).2 ∧
      ¬WalksInside cutOffTables testRsdp := by
  have hlength : (headerLength cutOffTables (apicRsdt cutOffTables testRsdp)).toNat = 35 := by
    decide +kernel
  have hread : 0 ∈ (findAPIC cutOffTables (apicRsdt cutOffTables testRsdp)).2 := by
    obtain ⟨n, hn⟩ := Nat.exists_eq_succ_of_ne_zero (entries_pos (by omega :
      (headerLength cutOffTables (apicRsdt cutOffTables testRsdp)).toNat < 36)).ne'
    rw [findAPIC, hn]
    exact findAPICFrom_first n 0
  refine ⟨hlength, hread, fun h => ?_⟩
  have := h.rsdt 0 hread
  omega

end LucidiOS.Acpi
