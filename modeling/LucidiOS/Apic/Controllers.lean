import LucidiOS.Control.Loop
import LucidiOS.Device.Mmio
import LucidiOS.Pmm.PageBitmap

/-! Set-up of the local APIC and of the I/O APIC. -/
namespace LucidiOS.Apic
variable {δ : Type*}

abbrev Registers := Mmio Word (BitVec 32)

/-- The local APIC's registers that the kernel uses in its set-up. -/
inductive LapicRegister
  | lint0 | lint1 | lvtTimer | initialCountR | currentCountR | divideConfigurationR | lvtError | svr
  deriving DecidableEq

def LapicRegister.offset : LapicRegister → Word
  | .lint0 => 0xFEE00350
  | .lint1 => 0xFEE00360
  | .lvtTimer => 0xFEE00320
  | .initialCountR => 0xFEE00380
  | .currentCountR => 0xFEE00390
  | .divideConfigurationR => 0xFEE003E0
  | .lvtError => 0xFEE00370
  | .svr => 0xFEE000F0

/-- The address of a register behind the direct map. -/
def lapic (high : Word) (r : LapicRegister) : Word := high + r.offset

def ioregsel (base : Word) : Word := base

def iowin (base : Word) : Word := base + 0x10

def ioapicRedtbl (n : Word) : Word := 0x10 + 2 * n

/-- The loop of `init_APIC_timer` that waits until the counter of the PIT has started anew. The
counts latched in turn are `pit 0`, `pit 1` and so on. -/
def pitLoop (pit : ℕ → BitVec 16) (s : ℕ × BitVec 16) : ℕ × BitVec 16 ⊕ Unit :=
  if s.2 < pit s.1 then .inr () else .inl (s.1 + 1, pit s.1)

def initAPICTimer (D : Registers δ) (hhdm : Word) (pit : ℕ → BitVec 16) (n : ℕ) (d : δ) :
    Option δ :=
  let timer := 0x21#32 ||| (1#32 <<< 16) ||| (1#32 <<< 17)
  let d := D.write (lapic hhdm .lvtTimer) timer d
  let divConfig := 3#32 ||| (0#32 <<< 3)
  let d := D.write (lapic hhdm .divideConfigurationR) divConfig d
  let d := D.write (lapic hhdm .initialCountR) 0xFFFFFFFF d
  (Loop.run (pitLoop pit) n (0, 0xFFFF)).map fun _ =>
    let current := D.read (lapic hhdm .currentCountR) d
    let d := D.write (lapic hhdm .initialCountR) 0 current.2
    let ticksPer10ms := 0xFFFFFFFF - current.1
    D.write (lapic hhdm .initialCountR) ticksPer10ms d

def initAPICError (D : Registers δ) (hhdm : Word) (d : δ) : δ :=
  let d := D.write (lapic hhdm .lvtError) 0 d
  D.modify (lapic hhdm .lvtError) (· ||| 0x20#32) d

/-- `init_LAPIC`, if the PIT starts anew within `n` counts. -/
def initLAPIC (D : Registers δ) (hhdm : Word) (pit : ℕ → BitVec 16) (n : ℕ) (d : δ) : Option δ :=
  let d := D.modify (lapic hhdm .svr) (· ||| (1#32 <<< 8)) d
  (initAPICTimer D hhdm pit n d).map fun d =>
    let d := initAPICError D hhdm d
    let d := D.modify (lapic hhdm .lint0) (· ||| (1#32 <<< 16)) d
    D.modify (lapic hhdm .lint1) (· ||| (4#32 <<< 8)) d

def setIRQ (D : Registers δ) (ioapicBase n : Word) (vector : BitVec 8) (d : δ) : δ :=
  let temp : BitVec 32 := vector.setWidth 32
  let d := D.write (ioregsel ioapicBase) ((ioapicRedtbl n).setWidth 32) d
  let d := D.write (iowin ioapicBase) temp d
  let d := D.write (ioregsel ioapicBase) ((ioapicRedtbl n + 1).setWidth 32) d
  D.modify (iowin ioapicBase) (· ||| (0#32 <<< 24)) d

def initIOAPIC (D : Registers δ) (ioapicBase : Word) (d : δ) : δ := setIRQ D ioapicBase 1 0x32 d

/-- An I/O APIC: the selected register, and its registers by their numbers. -/
structure IoApic where
  select : BitVec 32
  reg : BitVec 32 → BitVec 32

/-- The I/O APIC shows its registers through a window. -/
def ioApicAt (base : Word) : Registers IoApic where
  read a d :=
    (if a = ioregsel base then d.select else if a = iowin base then d.reg d.select else 0, d)
  write a v d :=
    if a = ioregsel base then { d with select := v }
    else if a = iowin base then { d with reg := Function.update d.reg d.select v }
    else d

theorem lapic_injective (high : Word) : Function.Injective (lapic high) := by
  intro r q h
  have hoffset : r.offset = q.offset := by
    unfold lapic at h
    bv_omega
  cases r <;> cases q <;> first | rfl | exact absurd hoffset (by decide)

section Pit
variable {pit : ℕ → BitVec 16}

theorem pitLoop_first (pit : ℕ → BitVec 16) :
    pitLoop pit (0, 0xFFFF) = .inl (1, pit 0) := by
  have hmax : ¬0xFFFF < pit 0 := by
    have := (pit 0).isLt
    have hffff : (0xFFFF : BitVec 16).toNat = 0xFFFF := rfl
    rw [BitVec.lt_def, hffff]
    omega
  rw [pitLoop, if_neg hmax]

theorem pitLoop_visits {i : ℕ} (h : ∀ j < i, ¬pit j < pit (j + 1)) :
    Loop.Visits (pitLoop pit) (0, 0xFFFF) (i + 1, pit i) := by
  induction i with
  | zero => exact Loop.Visits.start.next (pitLoop_first pit)
  | succ i ih =>
    refine (ih fun j hj => h j (by omega)).next ?_
    rw [pitLoop, if_neg (h i (by omega))]

/-- The loop goes on as long as no count is larger than the one before. -/
theorem pitLoop_visited {s : ℕ × BitVec 16} (h : Loop.Visits (pitLoop pit) (0, 0xFFFF) s) :
    s = (0, 0xFFFF) ∨ ∃ i, s = (i + 1, pit i) ∧ ∀ j < i, ¬pit j < pit (j + 1) := by
  induction h with
  | refl => exact .inl rfl
  | @tail u v _ hstep ih =>
    unfold pitLoop at hstep
    split_ifs at hstep with hlt
    refine .inr ⟨u.1, (Sum.inl.inj hstep).symm, fun j hj => ?_⟩
    obtain rfl | ⟨i, rfl, hbefore⟩ := ih
    · exact absurd hj (Nat.not_lt_zero j)
    · rcases Nat.lt_succ_iff_lt_or_eq.mp hj with hj | rfl
      · exact hbefore j hj
      · exact hlt

/-- The timer set-up returns exactly when some count is larger than the one before. -/
theorem pitLoop_terminates_iff (pit : ℕ → BitVec 16) :
    Loop.Terminates (pitLoop pit) (0, 0xFFFF) ↔ ∃ i, pit i < pit (i + 1) := by
  rw [Loop.terminates_iff]
  constructor
  · rintro ⟨s, r, hv, hs⟩
    rcases pitLoop_visited hv with rfl | ⟨i, rfl, -⟩
    · rw [pitLoop_first] at hs
      exact absurd hs (by simp)
    · by_contra hno
      rw [pitLoop, if_neg fun hc => hno ⟨i, hc⟩] at hs
      exact absurd hs (by simp)
  · intro h
    refine ⟨_, (), pitLoop_visits fun j hj => Nat.find_min h hj, ?_⟩
    rw [pitLoop, if_pos (Nat.find_spec h)]

end Pit

/-- `set_IRQ` touches the two registers of the window and nothing else. -/
theorem setIRQ_accesses (D : Registers δ) (ioapicBase n : Word) (vector : BitVec 8) (d : δ) :
    (setIRQ D.logged ioapicBase n vector (d, [])).2 =
      [ioregsel ioapicBase, iowin ioapicBase, ioregsel ioapicBase, iowin ioapicBase,
        iowin ioapicBase] := by
  simp [setIRQ]

section Window
variable {base : Word}

theorem iowin_ne : iowin base ≠ ioregsel base := by
  unfold iowin ioregsel
  bv_omega

@[simp] theorem ioApicAt_select (v : BitVec 32) (d : IoApic) :
    (ioApicAt base).write (ioregsel base) v d = { d with select := v } := by simp [ioApicAt]

@[simp] theorem ioApicAt_window (v : BitVec 32) (d : IoApic) :
    (ioApicAt base).write (iowin base) v d =
      { d with reg := Function.update d.reg d.select v } := by
  simp [ioApicAt, iowin_ne]

@[simp] theorem ioApicAt_modify (f : BitVec 32 → BitVec 32) (d : IoApic) :
    (ioApicAt base).modify (iowin base) f d =
      { d with reg := Function.update d.reg d.select (f (d.reg d.select)) } := by
  simp [ioApicAt, Mmio.modify, iowin_ne]

end Window

/-- `set_IRQ` writes the lower half of its redirection entry and keeps the upper half. -/
theorem setIRQ_eq (base n : Word) (vector : BitVec 8) (d : IoApic) :
    setIRQ (ioApicAt base) base n vector d =
      { select := (ioapicRedtbl n + 1).setWidth 32
        reg := Function.update d.reg ((ioapicRedtbl n).setWidth 32) (vector.setWidth 32) } := by
  have hzero (v : BitVec 32) : v ||| (0#32 <<< 24) = v := BitVec.or_zero
  simp only [setIRQ, ioApicAt_select, ioApicAt_window, ioApicAt_modify, hzero,
    Function.update_eq_self]

/-- `init_IOAPIC` sets the lower half of redirection entry 1. -/
theorem initIOAPIC_eq (base : Word) (d : IoApic) :
    initIOAPIC (ioApicAt base) base d =
      { select := 0x13, reg := Function.update d.reg 0x12 0x32 } :=
  setIRQ_eq base 1 0x32 d

end LucidiOS.Apic
