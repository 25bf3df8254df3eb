import LucidiOS.Acpi.Walks
import LucidiOS.Apic.Controllers
import LucidiOS.Boot.Sequence
import LucidiOS.Pmm.HeapBitmap

/-! The I/O APIC that `kmain` maps and programs, and the one that the MADT lists. -/
namespace LucidiOS.Boot
open ByteMemory Pmm Vmm Acpi Apic

/-- The MADT holds a whole entry of type 1 with this address. -/
def Listed (s : Kernel) (rsdpPointer : Word) (a : BitVec 32) : Prop :=
  theMadt s rsdpPointer ≠ 0 ∧ ∃ o, (madtEntries s rsdpPointer).Boundary o ∧
    o + 8 ≤ (madtEntries s rsdpPointer).limit ∧ (madtEntries s rsdpPointer).hit o = true ∧
    a = ioapicAddress s (theMadt s rsdpPointer) o

/-- The pointer leads to the page of a listed I/O APIC in the direct map. -/
def OnListedPage (s : Kernel) (rsdpPointer x : Word) : Prop :=
  ∃ a, Listed s rsdpPointer a ∧ x.toNat / 4096 = (a.setWidth 64 + s.gHhdmOffset).toNat / 4096

/-- The kernel's state when it maps the I/O APIC. -/
def atIoapicCall (map : List MemmapEntry) (t : Kernel) : Kernel := bootState (initBitmapPmm map t) 1

/-- The kernel's state when it programs the I/O APIC. -/
def atInitIOAPIC (map : List MemmapEntry) (t : Kernel) : Kernel :=
  bootState (initBitmapPmm map t) bootCalls

/-- If boot gets past `madt_parsing`, the page that it maps for the I/O APIC and the registers that
`set_IRQ` reads and writes belong to listed I/O APICs. -/
def UsesOnlyListed (map : List MemmapEntry) (s : Kernel) (rsdpPointer : Word) : Prop :=
  ∀ n t, madtParsing rsdpPointer n s = some t →
    OnListedPage s rsdpPointer (bootCall 1 (atIoapicCall map t)).virt ∧
    ∀ (δ : Type) (D : Registers δ) (d : δ),
      ∀ x ∈ (initIOAPIC D.logged (atInitIOAPIC map t).ioapicBase (d, [])).2, ∀ k < 4,
        OnListedPage s rsdpPointer (x + BitVec.ofNat 64 k)

section Kept
theorem bootCall_globals (k : ℕ) (s : Kernel) : SameGlobals s (bootCall k s).kernel := by
  match k with
  | 0 => rfl
  | 1 => rfl
  | _ + 2 => rfl

/-- The mapping sequence changes memory only. -/
theorem bootState_globals (s : Kernel) (k : ℕ) : SameGlobals s (bootState s k) := by
  induction k with
  | zero => rfl
  | succ k ih => exact ih.trans ((bootCall_globals k _).trans (vmmAlloc_globals _ _ _ _))

theorem bootState_ioapicBase (map : List MemmapEntry) (t : Kernel) (k : ℕ) :
    (bootState (initBitmapPmm map t) k).ioapicBase = t.ioapicBase := by
  rw [(bootState_globals (initBitmapPmm map t) k).ioapicBase_eq, (initBitmapPmm_kept map t).2.2]

theorem atInitIOAPIC_ioapicBase (map : List MemmapEntry) (t : Kernel) :
    (atInitIOAPIC map t).ioapicBase = t.ioapicBase := by
  rw [atInitIOAPIC, bootState_ioapicBase]

theorem atIoapicCall_virt (map : List MemmapEntry) (t : Kernel) :
    (bootCall 1 (atIoapicCall map t)).virt = t.ioapicBase := by
  rw [bootCall, atIoapicCall, bootState_ioapicBase]

end Kept

section Found
variable {s t : Kernel} {rsdpPointer : Word} {o : ℕ}

/-- If an I/O APIC is listed then the first one is listed as a whole. -/
theorem Listed.exists_first {a : BitVec 32} (h : Listed s rsdpPointer a) :
    ∃ o, (madtEntries s rsdpPointer).Reached o ∧ (madtEntries s rsdpPointer).hit o = true ∧
      o + 8 ≤ (madtEntries s rsdpPointer).limit := by
  obtain ⟨-, o, ho, hin, hhit, -⟩ := h
  obtain ⟨p, hp, -, hphit, hle⟩ := ho.exists_first (by omega) hhit
  exact ⟨p, hp, hphit, by omega⟩

/-- `madt_parsing` leaves the first I/O APIC in `ioapic_base`. -/
theorem ioapicBase_of_first (hlow : LowDirectMap s) (hne : theMadt s rsdpPointer ≠ 0)
    (ho : (madtEntries s rsdpPointer).Reached o) (hlt : o < (madtEntries s rsdpPointer).limit)
    (hhit : (madtEntries s rsdpPointer).hit o = true) {n : ℕ}
    (h : madtParsing rsdpPointer n s = some t) :
    t.ioapicBase = ioapicBaseAt s (theMadt s rsdpPointer) o := by
  rcases (madtParsing_eq_some_iff hlow hne).mp ⟨n, h⟩ with
    ⟨p, hp, hplt, hphit, rfl⟩ | ⟨⟨p, hp, hple⟩, -⟩
  · have h1 := hp.le_hit ho hhit
    have h2 := ho.le_hit hp hphit
    rw [show p = o by omega]
  · have := hp.le_hit ho hhit
    omega

theorem ioapicBaseAt_toNat (hlow : LowDirectMap s) (madt : Word) (o : ℕ) :
    (ioapicBaseAt s madt o).toNat = (ioapicAddress s madt o).toNat + s.gHhdmOffset.toNat ∧
      (ioapicBaseAt s madt o).toNat + 4096 ≤ 2 ^ 64 := by
  have := (ioapicAddress s madt o).isLt
  unfold LowDirectMap at hlow
  rw [ioapicBaseAt, BitVec.toNat_add, BitVec.toNat_setWidth]
  omega

/-- The bytes that `set_IRQ` touches. -/
theorem accesses_offset {base x : Word} (hbase : base.toNat + 4096 ≤ 2 ^ 64)
    (hx : x ∈ [ioregsel base, iowin base, ioregsel base, iowin base, iowin base]) {k : ℕ}
    (hk : k < 4) : ∃ j < 20, (x + BitVec.ofNat 64 k).toNat = base.toNat + j := by
  have hwin : (iowin base).toNat = base.toNat + 16 := by
    have h16 : (0x10 : Word).toNat = 16 := rfl
    rw [iowin, BitVec.toNat_add, h16]
    omega
  have hcases : x = ioregsel base ∨ x = iowin base := by
    simp only [List.mem_cons, List.not_mem_nil, or_false] at hx
    tauto
  rw [BitVec.toNat_add, BitVec.toNat_ofNat]
  rcases hcases with hsel | hwindow
  · refine ⟨k, by omega, ?_⟩
    rw [hsel, ioregsel]
    omega
  · refine ⟨16 + k, by omega, ?_⟩
    rw [hwindow, hwin]
    omega

/-- If boot keeps to listed I/O APICs then the registers of the first one are on their pages. -/
theorem UsesOnlyListed.first {map : List MemmapEntry} (hlow : LowDirectMap s)
    (h : UsesOnlyListed map s rsdpPointer) {n : ℕ} (ht : madtParsing rsdpPointer n s = some t) :
    theMadt s rsdpPointer ≠ 0 ∧ ∃ o, (madtEntries s rsdpPointer).Reached o ∧
      (madtEntries s rsdpPointer).hit o = true ∧ o + 8 ≤ (madtEntries s rsdpPointer).limit ∧
      ((ioapicBaseAt s (theMadt s rsdpPointer) o).toNat % 4096 + 20 ≤ 4096 ∨
        ∃ a, Listed s rsdpPointer a ∧ (a.setWidth 64 + s.gHhdmOffset).toNat / 4096 =
          (ioapicBaseAt s (theMadt s rsdpPointer) o).toNat / 4096 + 1) := by
  obtain ⟨⟨a, ha, -⟩, haccess⟩ := h n t ht
  have hne := ha.1
  obtain ⟨o, ho, hhit, hin⟩ := ha.exists_first
  refine ⟨hne, o, ho, hhit, hin, ?_⟩
  have hbase := ioapicBase_of_first hlow hne ho (by omega) hhit ht
  obtain ⟨-, hbound⟩ := ioapicBaseAt_toNat hlow (theMadt s rsdpPointer) o
  -- the last byte of the window
  have hlast := haccess _ Mmio.registers (fun _ => 0) (iowin t.ioapicBase)
  rw [initIOAPIC, setIRQ_accesses, atInitIOAPIC_ioapicBase] at hlast
  obtain ⟨b, hb, hpage⟩ := hlast (by simp) 3 (by omega)
  have hsum : (iowin t.ioapicBase + BitVec.ofNat 64 3).toNat = t.ioapicBase.toNat + 19 := by
    rw [← hbase] at hbound
    unfold iowin
    bv_omega
  rw [hsum, hbase] at hpage
  by_cases hfit : (ioapicBaseAt s (theMadt s rsdpPointer) o).toNat % 4096 + 20 ≤ 4096
  · exact .inl hfit
  · exact .inr ⟨b, hb, by omega⟩

/-- Boot keeps to listed I/O APICs if the registers of the first one are on their pages. -/
theorem usesOnlyListed_of_first (map : List MemmapEntry) (hlow : LowDirectMap s)
    (hne : theMadt s rsdpPointer ≠ 0) (ho : (madtEntries s rsdpPointer).Reached o)
    (hhit : (madtEntries s rsdpPointer).hit o = true)
    (hin : o + 8 ≤ (madtEntries s rsdpPointer).limit)
    (hpage : (ioapicBaseAt s (theMadt s rsdpPointer) o).toNat % 4096 + 20 ≤ 4096 ∨
      ∃ a, Listed s rsdpPointer a ∧ (a.setWidth 64 + s.gHhdmOffset).toNat / 4096 =
        (ioapicBaseAt s (theMadt s rsdpPointer) o).toNat / 4096 + 1) :
    UsesOnlyListed map s rsdpPointer := by
  intro n t ht
  have hbase := ioapicBase_of_first hlow hne ho (by omega) hhit ht
  obtain ⟨-, hbound⟩ := ioapicBaseAt_toNat hlow (theMadt s rsdpPointer) o
  have hlisted : Listed s rsdpPointer (ioapicAddress s (theMadt s rsdpPointer) o) :=
    ⟨hne, o, ho.boundary, hin, hhit, rfl⟩
  refine ⟨⟨_, hlisted, ?_⟩, fun δ D d x hx k hk => ?_⟩
  · rw [atIoapicCall_virt, hbase]
    rfl
  · rw [initIOAPIC, setIRQ_accesses, atInitIOAPIC_ioapicBase, hbase] at hx
    obtain ⟨j, hj, hsum⟩ := accesses_offset hbound hx hk
    by_cases hfirst : (ioapicBaseAt s (theMadt s rsdpPointer) o).toNat % 4096 + j < 4096
    · refine ⟨_, hlisted, ?_⟩
      rw [hsum]
      change _ = (ioapicBaseAt s (theMadt s rsdpPointer) o).toNat / 4096
      omega
    · rcases hpage with hfit | ⟨a, ha, hnext⟩
      · omega
      · exact ⟨a, ha, by omega⟩

end Found

/-- Boot keeps to listed I/O APICs exactly when there is a MADT and either its walk never ends, or
it lists an I/O APIC and the registers of the first one do not reach over the end of a page, unless
to the page of another one. -/
theorem usesOnlyListed_iff {s : Kernel} (hlow : LowDirectMap s) (map : List MemmapEntry)
    (rsdpPointer : Word) :
    UsesOnlyListed map s rsdpPointer ↔ theMadt s rsdpPointer ≠ 0 ∧
      ((∃ o, (madtEntries s rsdpPointer).Reached o ∧ o < (madtEntries s rsdpPointer).limit ∧
          (madtEntries s rsdpPointer).hit o = false ∧ (madtEntries s rsdpPointer).size o = 0) ∨
        ∃ o, (madtEntries s rsdpPointer).Reached o ∧ (madtEntries s rsdpPointer).hit o = true ∧
          o + 8 ≤ (madtEntries s rsdpPointer).limit ∧
          ((ioapicBaseAt s (theMadt s rsdpPointer) o).toNat % 4096 + 20 ≤ 4096 ∨
            ∃ a, Listed s rsdpPointer a ∧ (a.setWidth 64 + s.gHhdmOffset).toNat / 4096 =
              (ioapicBaseAt s (theMadt s rsdpPointer) o).toNat / 4096 + 1)) := by
  constructor
  · intro h
    by_cases hreturns : ∃ n t, madtParsing rsdpPointer n s = some t
    · obtain ⟨n, t, ht⟩ := hreturns
      obtain ⟨hne, hfirst⟩ := h.first hlow ht
      exact ⟨hne, .inr hfirst⟩
    · have hne : theMadt s rsdpPointer ≠ 0 := fun h0 => hreturns ⟨0, s, madtParsing_of_none h0 0⟩
      rw [madtParsing_returns_iff hlow hne] at hreturns
      push Not at hreturns
      obtain ⟨o, ho, hlt, hhit, hzero⟩ := hreturns
      exact ⟨hne, .inl ⟨o, ho, hlt, hhit, by omega⟩⟩
  · rintro ⟨hne, ⟨o, ho, hlt, hhit, hzero⟩ | ⟨o, ho, hhit, hin, hpage⟩⟩
    · intro n t ht
      have := (madtParsing_returns_iff hlow hne).mp ⟨n, t, ht⟩ o ho hlt hhit
      omega
    · exact usesOnlyListed_of_first map hlow hne ho hhit hin hpage

theorem usesOnlyListed_iff_pc :
    UsesOnlyListed map128M pcTables testRsdp ↔ theMadt pcTables testRsdp ≠ 0 ∧
      ((∃ o, (madtEntries pcTables testRsdp).Reached o ∧
          o < (madtEntries pcTables testRsdp).limit ∧
          (madtEntries pcTables testRsdp).hit o = false ∧
          (madtEntries pcTables testRsdp).size o = 0) ∨
        ∃ o, (madtEntries pcTables testRsdp).Reached o ∧
          (madtEntries pcTables testRsdp).hit o = true ∧
          o + 8 ≤ (madtEntries pcTables testRsdp).limit ∧
          ((ioapicBaseAt pcTables (theMadt pcTables testRsdp) o).toNat % 4096 + 20 ≤ 4096 ∨
            ∃ a, Listed pcTables testRsdp a ∧ (a.setWidth 64 + pcTables.gHhdmOffset).toNat / 4096 =
              (ioapicBaseAt pcTables (theMadt pcTables testRsdp) o).toNat / 4096 + 1)) :=
  usesOnlyListed_iff (withTables_low _) map128M testRsdp

/-- A MADT that lists a processor and no I/O APIC. -/
def noIoapicTables : Kernel :=
  withTables (rootTables 40 ++ madtTable 52 [0, 8, 0, 0, 1, 0, 0, 0])

/-- Boot maps page 0 as the I/O APIC and writes to it. -/
theorem noIoapic_page_zero :
    madtParsing testRsdp 3 noIoapicTables = some noIoapicTables ∧
      (bootCall 1 (atIoapicCall map128M noIoapicTables)).virt = 0 ∧
      (initIOAPIC Mmio.registers.logged (atInitIOAPIC map128M noIoapicTables).ioapicBase
        (fun _ => 0, [])).2 = [0, 0x10, 0, 0x10, 0x10] ∧
      ¬UsesOnlyListed map128M noIoapicTables testRsdp := by
  have hmadt : theMadt noIoapicTables testRsdp = 0xFFFF800000003000 := by decide +kernel
  have hrun : Loop.run (madtEntries noIoapicTables testRsdp).searchStep 3 44 = some none := by
    rw [madtEntries, hmadt]
    decide +kernel
  have hparsing : madtParsing testRsdp 3 noIoapicTables = some noIoapicTables := by
    have hne : theMadt noIoapicTables testRsdp ≠ 0 := by
      rw [hmadt]
      decide
    have hlow : LowDirectMap noIoapicTables := withTables_low _
    have hrun' : Loop.run (entries noIoapicTables (theMadt noIoapicTables testRsdp)).searchStep 3
        (entries noIoapicTables (theMadt noIoapicTables testRsdp)).start = some none := hrun
    simp only [madtParsing, if_neg hne, run_madtLoop (theMadt_fits hlow hne), hrun',
      Option.map_some, Option.map_none]
  refine ⟨hparsing, atIoapicCall_virt _ _, ?_, fun h => ?_⟩
  · rw [initIOAPIC, setIRQ_accesses, atInitIOAPIC_ioapicBase]
    rfl
  · obtain ⟨⟨a, ha, -⟩, -⟩ := h 3 _ hparsing
    obtain ⟨o, ho, hhit, hin⟩ := ha.exists_first
    obtain ⟨p, hp, hple⟩ := RecordStream.search_eq_none_iff.mp ⟨3, hrun⟩
    have := hp.le_hit ho hhit
    omega

end LucidiOS.Boot
