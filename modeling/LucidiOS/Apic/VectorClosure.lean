import LucidiOS.Apic.PitCalibration
import LucidiOS.Interrupt.DescriptorTable

/-! Which vectors the interrupt controllers can deliver, and which of them have a gate. -/
namespace LucidiOS.Apic
open Interrupt

/-- The registers of the local APIC by their addresses, and the I/O APIC. -/
structure Apics where
  core : Word → BitVec 32
  ioapic : IoApic

/-- `init_LAPIC` followed by `init_IOAPIC`. -/
def initApics (hhdm ioapicBase : Word) (pit : ℕ → BitVec 16) (n : ℕ) (a : Apics) : Option Apics :=
  (initLAPIC Mmio.registers hhdm pit n a.core).map fun core =>
    ⟨core, initIOAPIC (ioApicAt ioapicBase) ioapicBase a.ioapic⟩

def masked (w : BitVec 32) : Bool := w.getLsbD 16

def deliveryMode (w : BitVec 32) : BitVec 3 := w.extractLsb' 8 3

def fixed : BitVec 3 := 0

def nmi : BitVec 3 := 4

def vectorOf (w : BitVec 32) : ℕ := (w.setWidth 8).toNat

/-- The lower half of redirection entry 1. -/
def keyboardEntry (a : Apics) : BitVec 32 := a.ioapic.reg 0x12

/-- The vectors that the processor can receive from the sources that the kernel sets up. -/
def Deliverable (hhdm : Word) (a : Apics) (v : ℕ) : Prop :=
  (∃ w ∈ [a.core (lapic hhdm .lint0), a.core (lapic hhdm .lint1), a.core (lapic hhdm .lvtTimer),
      a.core (lapic hhdm .lvtError), keyboardEntry a],
    masked w = false ∧ deliveryMode w = fixed ∧ v = vectorOf w) ∨
  ((a.core (lapic hhdm .svr)).getLsbD 8 = true ∧ v = vectorOf (a.core (lapic hhdm .svr))) ∨
  (v = 2 ∧ masked (a.core (lapic hhdm .lint1)) = false ∧
    deliveryMode (a.core (lapic hhdm .lint1)) = nmi)

/-- Every vector that can be delivered has a present gate. -/
def VectorsClosed (hhdm : Word) (a : Apics) (idt : Idt) : Prop :=
  ∀ v, Deliverable hhdm a v → (idt v).present = true

section Registers
variable {hhdm : Word} {pit : ℕ → BitVec 16} {n : ℕ} {r t : Word → BitVec 32}

theorem update_lapic (r : Word → BitVec 32) (a b : LapicRegister) (v : BitVec 32) :
    Function.update r (lapic hhdm a) v (lapic hhdm b) = if b = a then v else r (lapic hhdm b) := by
  rw [Function.update_apply]
  exact if_congr (lapic_injective hhdm).eq_iff rfl rfl

/-- The timer set-up writes three registers. -/
theorem initAPICTimer_registers (h : initAPICTimer Mmio.registers hhdm pit n r = some t) :
    t (lapic hhdm .lvtTimer) = 0x30021 ∧
      ∀ q, q ∉ [LapicRegister.lvtTimer, .divideConfigurationR, .initialCountR] →
        t (lapic hhdm q) = r (lapic hhdm q) := by
  rw [initAPICTimer] at h
  obtain ⟨-, -, hd⟩ := Option.map_eq_some_iff.mp h
  subst hd
  simp only [Mmio.registers_write, Mmio.registers_read]
  refine ⟨?_, fun q hq => ?_⟩
  · rw [update_lapic, if_neg (by decide), update_lapic, if_neg (by decide), update_lapic,
      if_neg (by decide), update_lapic, if_neg (by decide), update_lapic, if_pos rfl]
    rfl
  · simp only [List.mem_cons, List.not_mem_nil, or_false, not_or] at hq
    rw [update_lapic, if_neg hq.2.2, update_lapic, if_neg hq.2.2, update_lapic, if_neg hq.2.2,
      update_lapic, if_neg hq.2.1, update_lapic, if_neg hq.1]

theorem initAPICError_registers (hhdm : Word) (r : Word → BitVec 32) :
    initAPICError Mmio.registers hhdm r = Function.update r (lapic hhdm .lvtError) 0x20 := by
  rw [initAPICError, Mmio.registers_write, Mmio.registers_modify, Function.update_self,
    Function.update_idem]
  rfl

theorem modify_lapic (r : Word → BitVec 32) (a b : LapicRegister) (f : BitVec 32 → BitVec 32) :
    Mmio.registers.modify (lapic hhdm a) f r (lapic hhdm b) =
      if b = a then f (r (lapic hhdm a)) else r (lapic hhdm b) := by
  rw [Mmio.registers_modify, update_lapic]

/-- What `init_LAPIC` leaves in the registers that send interrupts. -/
theorem initLAPIC_registers (h : initLAPIC Mmio.registers hhdm pit n r = some t) :
    t (lapic hhdm .svr) = r (lapic hhdm .svr) ||| 1#32 <<< 8 ∧
      t (lapic hhdm .lint0) = r (lapic hhdm .lint0) ||| 1#32 <<< 16 ∧
      t (lapic hhdm .lint1) = r (lapic hhdm .lint1) ||| 4#32 <<< 8 ∧
      t (lapic hhdm .lvtTimer) = 0x30021 ∧ t (lapic hhdm .lvtError) = 0x20 := by
  rw [initLAPIC] at h
  obtain ⟨d, hd, ht⟩ := Option.map_eq_some_iff.mp h
  obtain ⟨htimer, hkept⟩ := initAPICTimer_registers hd
  have hsvr := hkept .svr (by decide)
  have hlint0 := hkept .lint0 (by decide)
  have hlint1 := hkept .lint1 (by decide)
  rw [modify_lapic, if_pos rfl] at hsvr
  rw [modify_lapic, if_neg (by decide)] at hlint0 hlint1
  subst ht
  refine ⟨?_, ?_, ?_, ?_, ?_⟩
  · rw [modify_lapic, if_neg (by decide), modify_lapic, if_neg (by decide),
      initAPICError_registers, update_lapic, if_neg (by decide), hsvr]
  · rw [modify_lapic, if_neg (by decide), modify_lapic, if_pos rfl, initAPICError_registers,
      update_lapic, if_neg (by decide), hlint0]
  · rw [modify_lapic, if_pos rfl, modify_lapic, if_neg (by decide), initAPICError_registers,
      update_lapic, if_neg (by decide), hlint1]
  · rw [modify_lapic, if_neg (by decide), modify_lapic, if_neg (by decide),
      initAPICError_registers, update_lapic, if_neg (by decide), htimer]
  · rw [modify_lapic, if_neg (by decide), modify_lapic, if_neg (by decide),
      initAPICError_registers, update_lapic, if_pos rfl]

end Registers
section Bits
variable (w : BitVec 32)

theorem deliveryMode_eq_iff (m : BitVec 3) : deliveryMode w = m ↔
    w.getLsbD 8 = m.getLsbD 0 ∧ w.getLsbD 9 = m.getLsbD 1 ∧ w.getLsbD 10 = m.getLsbD 2 := by
  constructor
  · rintro rfl
    simp [deliveryMode]
  · rintro ⟨h0, h1, h2⟩
    apply BitVec.eq_of_getLsbD_eq
    intro i hi
    obtain rfl | rfl | rfl : i = 0 ∨ i = 1 ∨ i = 2 := by omega
    · simpa [deliveryMode] using h0
    · simpa [deliveryMode] using h1
    · simpa [deliveryMode] using h2

theorem masked_set : masked (w ||| 1#32 <<< 16) = true := by simp [masked]

theorem masked_or_nmi : masked (w ||| 4#32 <<< 8) = masked w := by simp [masked]

/-- Setting the NMI bits leaves no fixed delivery, and gives NMI if the other two bits are clear. -/
theorem deliveryMode_or_nmi : deliveryMode (w ||| 4#32 <<< 8) ≠ fixed ∧
    (deliveryMode (w ||| 4#32 <<< 8) = nmi ↔ w.getLsbD 8 = false ∧ w.getLsbD 9 = false) := by
  simp [deliveryMode_eq_iff, fixed, nmi]

theorem vectorOf_enabled : (w ||| 1#32 <<< 8).getLsbD 8 = true ∧
    vectorOf (w ||| 1#32 <<< 8) = vectorOf w := by
  have hlow : (w ||| 1#32 <<< 8).setWidth 8 = w.setWidth 8 := by
    apply BitVec.eq_of_getLsbD_eq
    intro i hi
    simp [hi]
  exact ⟨by simp, congrArg BitVec.toNat hlow⟩

end Bits

section Closure
variable {hhdm ioapicBase : Word} {pit : ℕ → BitVec 16} {n : ℕ} {a t : Apics}

/-- What can be delivered after the set-up: two vectors of the kernel, the spurious vector that the
firmware has left, and the NMI if `LINT1` has neither been masked nor set up for another mode. -/
theorem deliverable_iff (h : initApics hhdm ioapicBase pit n a = some t) (v : ℕ) :
    Deliverable hhdm t v ↔ v = 32 ∨ v = 50 ∨ v = vectorOf (a.core (lapic hhdm .svr)) ∨
      (v = 2 ∧ masked (a.core (lapic hhdm .lint1)) = false ∧
        (a.core (lapic hhdm .lint1)).getLsbD 8 = false ∧
        (a.core (lapic hhdm .lint1)).getLsbD 9 = false) := by
  obtain ⟨core, hcore, rfl⟩ := Option.map_eq_some_iff.mp h
  obtain ⟨hsvr, hlint0, hlint1, htimer, herror⟩ := initLAPIC_registers hcore
  have hkeyboard : keyboardEntry ⟨core, initIOAPIC (ioApicAt ioapicBase) ioapicBase a.ioapic⟩ =
      0x32 := by
    rw [keyboardEntry, initIOAPIC_eq]
    change Function.update a.ioapic.reg 0x12 0x32 0x12 = 0x32
    rw [Function.update_self]
  have htimer' : masked 0x30021 = true := by decide
  have herror' : masked 0x20 = false ∧ deliveryMode 0x20 = fixed ∧ vectorOf 0x20 = 32 := by decide
  have hkeyboard' : masked 0x32 = false ∧ deliveryMode 0x32 = fixed ∧ vectorOf 0x32 = 50 := by
    decide
  obtain ⟨henabled, hvector⟩ := vectorOf_enabled (a.core (lapic hhdm .svr))
  obtain ⟨hnotFixed, hnmi⟩ := deliveryMode_or_nmi (a.core (lapic hhdm .lint1))
  simp only [Deliverable, hsvr, hlint0, hlint1, htimer, herror, hkeyboard, List.mem_cons,
    List.not_mem_nil, or_false, exists_eq_or_imp, exists_eq_left, masked_set, htimer', herror',
    hkeyboard', henabled, hvector, hnotFixed, hnmi, masked_or_nmi, true_and, false_and, and_false,
    Bool.true_eq_false, false_or, or_assoc]

theorem initApics_returns (hhdm ioapicBase : Word) (S : DownCounter.Schedule pitReload)
    (a : Apics) : ∃ n t, initApics hhdm ioapicBase (latchedCount S) n a = some t := by
  obtain ⟨n, core, hcore⟩ := initAPICTimer_returns Mmio.registers hhdm S
    (Mmio.registers.modify (lapic hhdm .svr) (· ||| (1#32 <<< 8)) a.core)
  refine ⟨n, ?_⟩
  rw [← Option.isSome_iff_exists, initApics, Option.isSome_map, initLAPIC, Option.isSome_map, hcore]
  rfl

/-- However the PIT is sampled, the set-up of the controllers returns. The timer stays masked; what
can be delivered are two vectors of the kernel, the spurious vector that the firmware has left, and
the NMI if `LINT1` was set up for it. -/
theorem apics_set_up (hhdm ioapicBase : Word) (S : DownCounter.Schedule pitReload) (a : Apics) :
    ∃ n t, initApics hhdm ioapicBase (latchedCount S) n a = some t ∧
      masked (t.core (lapic hhdm .lvtTimer)) = true ∧
      ∀ v, Deliverable hhdm t v ↔ v = 32 ∨ v = 50 ∨ v = vectorOf (a.core (lapic hhdm .svr)) ∨
        (v = 2 ∧ masked (a.core (lapic hhdm .lint1)) = false ∧
          (a.core (lapic hhdm .lint1)).getLsbD 8 = false ∧
          (a.core (lapic hhdm .lint1)).getLsbD 9 = false) := by
  obtain ⟨n, t, ht⟩ := initApics_returns hhdm ioapicBase S a
  refine ⟨n, t, ht, ?_, deliverable_iff ht⟩
  obtain ⟨core, hcore, rfl⟩ := Option.map_eq_some_iff.mp ht
  obtain ⟨-, -, -, htimer, -⟩ := initLAPIC_registers hcore
  change masked (core (lapic hhdm .lvtTimer)) = true
  rw [htimer]
  decide

/-- The kernel has a gate for everything that can be delivered exactly when it has one for the
spurious vector that the firmware has left in `SVR`, and `LINT1` does not become an unmasked NMI. -/
theorem vectorsClosed_iff (I : Image) (css : BitVec 16)
    (h : initApics hhdm ioapicBase pit n a = some t) :
    VectorsClosed hhdm t (initInterrupts I css) ↔
      vectorOf (a.core (lapic hhdm .svr)) ∈ gateVectors ∧
        (masked (a.core (lapic hhdm .lint1)) = true ∨
          (a.core (lapic hhdm .lint1)).getLsbD 8 = true ∨
          (a.core (lapic hhdm .lint1)).getLsbD 9 = true) := by
  simp only [VectorsClosed, deliverable_iff h, initInterrupts_present_iff]
  have h32 : 32 ∈ gateVectors := by decide
  have h50 : 50 ∈ gateVectors := by decide
  have h2 : 2 ∉ gateVectors := by decide
  constructor
  · intro hclosed
    refine ⟨hclosed _ (.inr (.inr (.inl rfl))), ?_⟩
    by_contra hnmi
    simp only [not_or, Bool.not_eq_true] at hnmi
    exact h2 (hclosed 2 (.inr (.inr (.inr ⟨rfl, hnmi⟩))))
  · rintro ⟨hsvr, hlint1⟩ v (rfl | rfl | rfl | ⟨rfl, hmask, h8, h9⟩)
    · exact h32
    · exact h50
    · exact hsvr
    · simp only [hmask, h8, h9, Bool.false_eq_true, or_self] at hlint1

end Closure

/-- Controllers as firmware in virtual wire mode leaves them: spurious vector 15, `LINT1` an NMI. -/
def virtualWire : Apics where
  core a :=
    if a = lapic 0xFFFF800000000000 .svr then 0x10F
    else if a = lapic 0xFFFF800000000000 .lint1 then 0x400 else 0
  ioapic := ⟨0, fun _ => 0x10000⟩

/-- A timer that counts down twice and starts anew. -/
def pitCounts : ℕ → BitVec 16
  | 0 => 2
  | 1 => 1
  | _ => 0x2E9B

def virtualWireSet : Option Apics :=
  initApics 0xFFFF800000000000 0xFFFF8000FEC00000 pitCounts 3 virtualWire

theorem vectorsClosed_iff_virtualWire : ∃ t, virtualWireSet = some t ∧
    (VectorsClosed 0xFFFF800000000000 t (initInterrupts linkedAt2000 8) ↔
      vectorOf (virtualWire.core (lapic 0xFFFF800000000000 .svr)) ∈ gateVectors ∧
        (masked (virtualWire.core (lapic 0xFFFF800000000000 .lint1)) = true ∨
          (virtualWire.core (lapic 0xFFFF800000000000 .lint1)).getLsbD 8 = true ∨
          (virtualWire.core (lapic 0xFFFF800000000000 .lint1)).getLsbD 9 = true)) := by
  obtain ⟨t, ht⟩ : ∃ t, virtualWireSet = some t := ⟨_, rfl⟩
  exact ⟨t, ht, vectorsClosed_iff linkedAt2000 8 ht⟩

/-- Neither the spurious vector nor the NMI has a gate. -/
theorem virtualWire_not_closed : ∃ t, virtualWireSet = some t ∧
    (Deliverable 0xFFFF800000000000 t 15 ∧
      (initInterrupts linkedAt2000 8 15).present = false) ∧
    (Deliverable 0xFFFF800000000000 t 2 ∧ (initInterrupts linkedAt2000 8 2).present = false) ∧
    ¬VectorsClosed 0xFFFF800000000000 t (initInterrupts linkedAt2000 8) := by
  obtain ⟨t, ht⟩ : ∃ t, virtualWireSet = some t := ⟨_, rfl⟩
  have hsvr : vectorOf (virtualWire.core (lapic 0xFFFF800000000000 .svr)) = 15 := by decide
  have hnmi : masked (virtualWire.core (lapic 0xFFFF800000000000 .lint1)) = false ∧
      (virtualWire.core (lapic 0xFFFF800000000000 .lint1)).getLsbD 8 = false ∧
      (virtualWire.core (lapic 0xFFFF800000000000 .lint1)).getLsbD 9 = false := by decide
  have hspurious : Deliverable 0xFFFF800000000000 t 15 :=
    (deliverable_iff ht 15).mpr (.inr (.inr (.inl hsvr.symm)))
  have hgate (v : ℕ) (hv : v ∉ gateVectors) : (initInterrupts linkedAt2000 8 v).present = false :=
    Bool.eq_false_iff.mpr fun hc => hv ((initInterrupts_present_iff linkedAt2000 8 v).mp hc)
  have h15 := hgate 15 (by decide)
  refine ⟨t, ht, ⟨hspurious, h15⟩,
    ⟨(deliverable_iff ht 2).mpr (.inr (.inr (.inr ⟨rfl, hnmi⟩))), hgate 2 (by decide)⟩,
    fun hclosed => ?_⟩
  rw [hclosed 15 hspurious] at h15
  exact absurd h15 (by decide)

end LucidiOS.Apic
