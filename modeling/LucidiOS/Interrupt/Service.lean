import LucidiOS.Device.InterruptController
import LucidiOS.Interrupt.Handler

/-! Interrupts over whole runs, from the return of `init_IOAPIC` on: `kmain` drains the keyboard
controller and executes `sti`, handlers run action by action, and devices act at any time. -/
namespace LucidiOS.Interrupt

/-- A handler that was entered: what it has still to do, and the interrupt flag that `iretq`
restores. -/
structure Activation where
  isr : Isr
  rest : List Action
  saved : Bool

/-- Where `kmain` is: about to read the status port, the data port, or to execute `sti`; or past
that. -/
inductive Progress
  | poll | drain | sti | enabled
  deriving DecidableEq

/-- The keyboard controller holds a byte in its output buffer when it is `full`. `scancode` is the
variable of the keyboard's handler, and the fields behind it are the history: the bytes that the
keyboard sent, that `kmain` drained and that the handler took, what the handler read, how often it
read an old byte, and what it has printed. -/
structure Machine where
  kmain : Progress
  active : List Activation
  interruptFlag : Bool
  apic : InterruptController
  full : Bool
  data : BitVec 8
  scancode : BitVec 8
  typed : List (BitVec 8)
  drained : List (BitVec 8)
  handled : List (BitVec 8)
  reads : List (BitVec 8)
  stale : ℕ
  printed : List (BitVec 8)

namespace Machine

/-- The processor enters the stub of `v` through its gate. -/
def enter (idt : Idt) (v : Isr) (m : Machine) : Machine :=
  { m with
    active := ⟨v, v.actions, m.interruptFlag⟩ :: m.active
    interruptFlag := m.interruptFlag && (idt v.vector.toNat).typeAttributes.getLsbD 0 }

/-- The keyboard fills the empty output buffer. Its edge is taken to request vector 50 of this
processor: `set_IRQ` sets up the vector, and leaves the destination as it was. -/
def keyboard (b : BitVec 8) (m : Machine) : Machine :=
  { m with full := true, data := b, apic := m.apic.raise 50, typed := m.typed ++ [b] }

/-- The handler reads the data port: a new byte, or an old one when the buffer is empty. -/
def readData (m : Machine) : Machine :=
  if m.full then
    { m with
      scancode := m.data, reads := m.reads ++ [m.data], full := false
      handled := m.handled ++ [m.data] }
  else { m with scancode := m.data, reads := m.reads ++ [m.data], stale := m.stale + 1 }

def perform (a : Action) (m : Machine) : Machine :=
  match a with
  | .inb _ => m.readData
  | .kprintf _ => { m with printed := m.printed ++ [m.scancode] }
  | .eoi => { m with apic := m.apic.eoi }
  | _ => m

end Machine

/-- One step of the kernel, of the processor or of a device. -/
inductive MachineStep (idt : Idt) : Machine → Machine → Prop
  | key {m : Machine} (b : BitVec 8) (hempty : m.full = false) : MachineStep idt m (m.keyboard b)
  | raise {m : Machine} {v : Isr} (hv : v.hardware = true) (hother : v ≠ .isr50) :
      MachineStep idt m { m with apic := m.apic.raise v.vector.toNat }
  | poll {m : Machine} (hmain : m.kmain = .poll) (hidle : m.active = []) :
      MachineStep idt m { m with kmain := if m.full then .drain else .sti }
  | drain {m : Machine} (hmain : m.kmain = .drain) (hidle : m.active = []) :
      MachineStep idt m
        { m with kmain := .poll, full := false, drained := m.drained ++ [m.data] }
  | sti {m : Machine} (hmain : m.kmain = .sti) (hidle : m.active = []) :
      MachineStep idt m { m with kmain := .enabled, interruptFlag := true }
  | accept {m : Machine} {v : Isr} (hflag : m.interruptFlag = true)
      (hnext : m.apic.Accepts v.vector.toNat)
      (hgate : (idt v.vector.toNat).present = true) :
      MachineStep idt m (({ m with apic := m.apic.accept v.vector.toNat } : Machine).enter idt v)
  | fault {m : Machine} {v : Isr} (hv : v.hardware = false) : MachineStep idt m (m.enter idt v)
  | act {m : Machine} {v : Isr} {a : Action} {rest : List Action} {saved : Bool}
      {active : List Activation} (htop : m.active = ⟨v, a :: rest, saved⟩ :: active)
      (hends : a ≠ .loop) :
      MachineStep idt m (({ m with active := ⟨v, rest, saved⟩ :: active } : Machine).perform a)
  | iret {m : Machine} {v : Isr} {saved : Bool} {active : List Activation}
      (htop : m.active = ⟨v, [], saved⟩ :: active) :
      MachineStep idt m { m with active, interruptFlag := saved }

/-- `init_IOAPIC` has returned: interrupts are off, none is in service, and the controllers may
hold requests and a byte from before. -/
structure Machine.Initial (m : Machine) : Prop where
  kmain : m.kmain = .poll
  active : m.active = []
  interruptFlag : m.interruptFlag = false
  inService : m.apic.inService = ∅
  requested : ∀ w ∈ m.apic.requested, ∃ v : Isr, v.hardware = true ∧ v.vector.toNat = w
  typed : m.typed = if m.full then [m.data] else []
  history : m.drained = [] ∧ m.handled = [] ∧ m.reads = [] ∧ m.stale = 0 ∧ m.printed = []

abbrev MachineRun (idt : Idt) : Machine → Machine → Prop :=
  Relation.ReflTransGen (MachineStep idt)

namespace Machine

/-- The handlers of hardware interrupts that have not returned. -/
def hardware (m : Machine) : List Activation := m.active.filter fun f => f.isr.hardware

/-- Either no hardware interrupt is being handled, or one is, with interrupts off, and exactly it
is in service until its `EOI`. -/
def Serves (m : Machine) : Prop :=
  (m.hardware = [] ∧ m.apic.inService = ∅) ∨
    ∃ f, m.hardware = [f] ∧ f.saved = true ∧ m.interruptFlag = false ∧
      m.apic.inService = if .eoi ∈ f.rest then {f.isr.vector.toNat} else ∅

structure Orderly (m : Machine) : Prop where
  rest : ∀ f ∈ m.active, f.rest <:+ f.isr.actions
  stuck : ∀ f ∈ m.active, f.isr.hardware = false → .loop ∈ f.rest
  requested : ∀ w ∈ m.apic.requested, ∃ v : Isr, v.hardware = true ∧ v.vector.toNat = w
  serves : m.Serves
  off : m.kmain ≠ .enabled → m.interruptFlag = false ∧ m.hardware = []

section Steps
variable {idt : Idt} {m m' : Machine} {v : Isr} {a : Action} {rest : List Action} {saved : Bool}
  {active : List Activation}

theorem Isr.vector_injective : Function.Injective fun v : Isr => v.vector.toNat := by
  intro v w h
  cases v <;> cases w <;> first | rfl | exact absurd h (by decide)

theorem Orderly.inService (h : m.Orderly) (hnone : m.hardware = []) : m.apic.inService = ∅ := by
  rcases h.serves with ⟨-, hservice⟩ | ⟨f, hf, -⟩
  · exact hservice
  · rw [hnone] at hf
    contradiction

theorem Orderly.unmasked (h : m.Orderly) (hflag : m.interruptFlag = true) :
    m.hardware = [] ∧ m.apic.inService = ∅ ∧ m.kmain = .enabled := by
  refine ⟨?_, ?_, ?_⟩
  · rcases h.serves with ⟨hnone, -⟩ | ⟨f, -, -, hoff, -⟩
    · exact hnone
    · rw [hflag] at hoff
      contradiction
  · rcases h.serves with ⟨-, hservice⟩ | ⟨f, -, -, hoff, -⟩
    · exact hservice
    · rw [hflag] at hoff
      contradiction
  · by_contra hc
    rw [(h.off hc).1] at hflag
    contradiction

/-- A request that is accepted comes from a hardware interrupt. -/
theorem Orderly.accepted (h : m.Orderly) (hnext : m.apic.Accepts v.vector.toNat) :
    v.hardware = true := by
  obtain ⟨w, hw, heq⟩ := h.requested _ hnext.requested
  exact Isr.vector_injective heq ▸ hw

theorem Orderly.raised (h : m.Orderly) (hv : v.hardware = true) :
    ∀ w ∈ (m.apic.raise v.vector.toNat).requested,
      ∃ v : Isr, v.hardware = true ∧ v.vector.toNat = w := by
  intro w hw
  rcases InterruptController.mem_raise_requested.mp hw with rfl | hw
  · exact ⟨v, hv, rfl⟩
  · exact h.requested w hw

theorem hardware_cons (v : Isr) (rest : List Action) (saved : Bool) (m : Machine)
    (active : List Activation) (hm : m.active = ⟨v, rest, saved⟩ :: active) :
    m.hardware = if v.hardware then ⟨v, rest, saved⟩ :: active.filter fun f => f.isr.hardware
      else active.filter fun f => f.isr.hardware := by
  rw [Machine.hardware, hm, List.filter_cons]

/-- Below a handler of a hardware interrupt there is no other one. -/
theorem Orderly.below_hardware {f : Activation} (h : m.Orderly) (htop : m.active = f :: active)
    (hf : f.isr.hardware = true) : ∀ g ∈ active, g.isr.hardware = false := by
  intro g hg
  by_contra hc
  have hcons := hardware_cons f.isr f.rest f.saved m active htop
  rw [hf, if_pos rfl] at hcons
  have hmem : g ∈ active.filter fun f => f.isr.hardware :=
    List.mem_filter.mpr ⟨hg, by simpa using hc⟩
  rcases h.serves with ⟨hnone, -⟩ | ⟨k, hk, -⟩
  · rw [hcons] at hnone
    contradiction
  · rw [hcons, List.cons.injEq] at hk
    rw [hk.2] at hmem
    contradiction

theorem Orderly.accept (h : m.Orderly) (hflag : m.interruptFlag = true)
    (hnext : m.apic.Accepts v.vector.toNat)
    (htrap : (idt v.vector.toNat).typeAttributes.getLsbD 0 = decide (v = .isr1)) :
    (({ m with apic := m.apic.accept v.vector.toNat } : Machine).enter idt v).Orderly := by
  have hv := h.accepted hnext
  obtain ⟨hnone, hservice, henabled⟩ := h.unmasked hflag
  have hne : v ≠ .isr1 := by
    rintro rfl
    contradiction
  refine ⟨?_, ?_, ?_, Or.inr ⟨⟨v, v.actions, m.interruptFlag⟩, ?_, hflag, ?_, ?_⟩, ?_⟩
  · intro f hf
    rcases List.mem_cons.mp hf with rfl | hf
    · exact List.suffix_refl _
    · exact h.rest f hf
  · intro f hf hexc
    rcases List.mem_cons.mp hf with rfl | hf
    · rw [hv] at hexc
      contradiction
    · exact h.stuck f hf hexc
  · exact fun w hw => h.requested w (Finset.mem_of_mem_erase hw)
  · rw [hardware_cons v v.actions m.interruptFlag _ m.active rfl, if_pos hv]
    exact congrArg _ hnone
  · change (m.interruptFlag && _) = false
    rw [htrap, decide_eq_false hne, Bool.and_false]
  · obtain ⟨-, hends, -⟩ := actions_hardware hv
    have hmem : .eoi ∈ v.actions := by
      rw [hends]
      simp
    rw [if_pos hmem]
    simp [Machine.enter, InterruptController.accept, hservice]
  · exact fun hc => absurd henabled hc

theorem Orderly.fault (h : m.Orderly) (hv : v.hardware = false) : (m.enter idt v).Orderly := by
  obtain ⟨-, -, hends⟩ := actions_exception hv
  have hhard : (m.enter idt v).hardware = m.hardware := by
    rw [hardware_cons v v.actions m.interruptFlag _ m.active rfl, if_neg (by simp [hv])]
    rfl
  refine ⟨?_, ?_, h.requested, ?_, ?_⟩
  · intro f hf
    rcases List.mem_cons.mp hf with rfl | hf
    · exact List.suffix_refl _
    · exact h.rest f hf
  · intro f hf hexc
    rcases List.mem_cons.mp hf with rfl | hf
    · rw [hends]
      simp
    · exact h.stuck f hf hexc
  · rcases h.serves with hnone | ⟨f, hf, hsaved, hoff, hservice⟩
    · exact Or.inl ⟨hhard.trans hnone.1, hnone.2⟩
    · refine Or.inr ⟨f, hhard.trans hf, hsaved, ?_, hservice⟩
      simp [Machine.enter, hoff]
  · intro hc
    obtain ⟨hoff, hnone⟩ := h.off hc
    exact ⟨by simp [Machine.enter, hoff], hhard.trans hnone⟩

theorem readData_kept (m : Machine) : m.readData.kmain = m.kmain ∧
    m.readData.active = m.active ∧ m.readData.interruptFlag = m.interruptFlag ∧
    m.readData.apic = m.apic := by
  unfold Machine.readData
  cases m.full
  · exact ⟨rfl, rfl, rfl, rfl⟩
  · exact ⟨rfl, rfl, rfl, rfl⟩

/-- What an action does to the state that the order of handlers depends on. -/
theorem perform_kept (a : Action) (m : Machine) : (m.perform a).kmain = m.kmain ∧
    (m.perform a).active = m.active ∧ (m.perform a).interruptFlag = m.interruptFlag ∧
    (m.perform a).apic = if a = Action.eoi then m.apic.eoi else m.apic := by
  cases a with
  | inb p => exact readData_kept m
  | eoi => exact ⟨rfl, rfl, rfl, (if_pos rfl).symm⟩
  | _ => exact ⟨rfl, rfl, rfl, (if_neg (by simp)).symm⟩

/-- An action of the handler in service ends the service exactly if it is the `EOI`. -/
theorem Orderly.serves_act (h : m.Orderly) (htop : m.active = ⟨v, a :: rest, saved⟩ :: active) :
    (({ m with active := ⟨v, rest, saved⟩ :: active } : Machine).perform a).Serves := by
  have hrest := h.rest _ (htop ▸ List.mem_cons_self)
  obtain ⟨-, hactive, hflag, hapic⟩ :=
    perform_kept a { m with active := ⟨v, rest, saved⟩ :: active }
  have hhard := hardware_cons v rest saved _ active hactive
  have hhardOld := hardware_cons v (a :: rest) saved m active htop
  cases hv : v.hardware with
  | true =>
    rw [hv, if_pos rfl] at hhard hhardOld
    rcases h.serves with ⟨hnone, -⟩ | ⟨f, hf, hsaved, hoff, hservice⟩
    · rw [hhardOld] at hnone
      contradiction
    · rw [hhardOld, List.cons.injEq] at hf
      obtain ⟨rfl, hfilter⟩ := hf
      refine Or.inr ⟨⟨v, rest, saved⟩, by rw [hhard, hfilter], hsaved, hflag.trans hoff, ?_⟩
      rw [hapic]
      by_cases ha : a = .eoi
      · subst ha
        rw [if_pos List.mem_cons_self] at hservice
        rw [if_pos rfl, eoi_last hv hrest, if_neg List.not_mem_nil]
        exact InterruptController.eoi_of_single hservice
      · rw [if_neg ha]
        refine hservice.trans (if_congr ?_ rfl rfl)
        simp [Ne.symm ha]
  | false =>
    rw [hv, if_neg Bool.false_ne_true] at hhard hhardOld
    have ha : a ≠ .eoi := by
      rintro rfl
      exact (actions_exception hv).1 (hrest.mem List.mem_cons_self)
    rw [Machine.Serves, hapic, if_neg ha, hhard, ← hhardOld, hflag]
    exact h.serves

theorem Orderly.act (h : m.Orderly) (htop : m.active = ⟨v, a :: rest, saved⟩ :: active)
    (hends : a ≠ .loop) :
    (({ m with active := ⟨v, rest, saved⟩ :: active } : Machine).perform a).Orderly := by
  have hmem : (⟨v, a :: rest, saved⟩ : Activation) ∈ m.active := htop ▸ List.mem_cons_self
  obtain ⟨hkmain, hactive, hflag, hapic⟩ :=
    perform_kept a { m with active := ⟨v, rest, saved⟩ :: active }
  refine ⟨?_, ?_, ?_, h.serves_act htop, ?_⟩
  · intro f hf
    rw [hactive] at hf
    rcases List.mem_cons.mp hf with rfl | hf
    · exact (List.suffix_cons a rest).trans (h.rest _ hmem)
    · exact h.rest f (htop ▸ List.mem_cons_of_mem _ hf)
  · intro f hf hexc
    rw [hactive] at hf
    rcases List.mem_cons.mp hf with rfl | hf
    · exact (List.mem_cons.mp (h.stuck _ hmem hexc)).resolve_left hends.symm
    · exact h.stuck f (htop ▸ List.mem_cons_of_mem _ hf) hexc
  · rw [hapic]
    split_ifs <;> exact h.requested
  · intro hc
    rw [hkmain] at hc
    obtain ⟨hoff, hnone⟩ := h.off hc
    rw [hardware_cons v (a :: rest) saved m active htop] at hnone
    refine ⟨hflag.trans hoff, ?_⟩
    rw [hardware_cons v rest saved _ active hactive]
    split_ifs at hnone ⊢
    exact hnone

theorem Orderly.iret (h : m.Orderly) (htop : m.active = ⟨v, [], saved⟩ :: active) :
    ({ m with active, interruptFlag := saved } : Machine).Orderly := by
  have hmem : (⟨v, [], saved⟩ : Activation) ∈ m.active := htop ▸ List.mem_cons_self
  have hv : v.hardware = true := by
    by_contra hc
    exact absurd (h.stuck _ hmem (by simpa using hc)) List.not_mem_nil
  have hhardOld := hardware_cons v [] saved m active htop
  rw [hv, if_pos rfl] at hhardOld
  refine ⟨fun f hf => h.rest f (htop ▸ List.mem_cons_of_mem _ hf),
    fun f hf => h.stuck f (htop ▸ List.mem_cons_of_mem _ hf), h.requested, ?_, fun hc => ?_⟩
  · rcases h.serves with ⟨hnone, -⟩ | ⟨f, hf, -, -, hservice⟩
    · rw [hhardOld] at hnone
      contradiction
    · rw [hhardOld, List.cons.injEq] at hf
      obtain ⟨rfl, hfilter⟩ := hf
      exact Or.inl ⟨hfilter, hservice⟩
  · rw [(h.off hc).2] at hhardOld
    contradiction

theorem Orderly.step (htrap : ∀ v : Isr,
    (idt v.vector.toNat).typeAttributes.getLsbD 0 = decide (v = .isr1)) (h : m.Orderly)
    (hstep : MachineStep idt m m') : m'.Orderly := by
  cases hstep with
  | key b _ => exact ⟨h.rest, h.stuck, h.raised (v := .isr50) rfl, h.serves, h.off⟩
  | raise hv _ => exact ⟨h.rest, h.stuck, h.raised hv, h.serves, h.off⟩
  | poll hmain _ =>
    exact ⟨h.rest, h.stuck, h.requested, h.serves, fun _ => h.off (by rw [hmain]; decide)⟩
  | drain hmain _ =>
    exact ⟨h.rest, h.stuck, h.requested, h.serves, fun _ => h.off (by rw [hmain]; decide)⟩
  | sti hmain hidle =>
    have hnone : m.hardware = [] := by rw [Machine.hardware, hidle, List.filter_nil]
    exact ⟨h.rest, h.stuck, h.requested, Or.inl ⟨hnone, h.inService hnone⟩,
      fun hc => absurd rfl hc⟩
  | accept hflag hnext _ => exact h.accept hflag hnext (htrap _)
  | fault hv => exact h.fault hv
  | act htop hends => exact h.act htop hends
  | iret htop => exact h.iret htop

theorem Initial.orderly (h : m.Initial) : m.Orderly where
  rest := by simp [h.active]
  stuck := by simp [h.active]
  requested := h.requested
  serves := Or.inl ⟨by simp [Machine.hardware, h.active], h.inService⟩
  off := fun _ => ⟨h.interruptFlag, by simp [Machine.hardware, h.active]⟩

theorem Orderly.run (htrap : ∀ v : Isr,
    (idt v.vector.toNat).typeAttributes.getLsbD 0 = decide (v = .isr1)) (h : m.Orderly)
    (hrun : MachineRun idt m m') : m'.Orderly := by
  induction hrun with
  | refl => exact h
  | tail _ hstep ih => exact ih.step htrap hstep

/-- A handler without a loop comes to its `iretq`. -/
theorem handler_returns (idt : Idt) (hloop : .loop ∉ rest) (htop : m.active = ⟨v, rest, saved⟩ :: active) :
    ∃ m', MachineRun idt m m' ∧ m'.active = active ∧ m'.interruptFlag = saved := by
  induction rest generalizing m with
  | nil =>
    exact ⟨{ m with active, interruptFlag := saved }, Relation.ReflTransGen.single (.iret htop),
      rfl, rfl⟩
  | cons a rest ih =>
    rw [List.mem_cons, not_or] at hloop
    have hstep : MachineStep idt m _ := .act htop (Ne.symm hloop.1)
    obtain ⟨m', hrun, hm'⟩ := ih hloop.2
      (perform_kept a { m with active := ⟨v, rest, saved⟩ :: active }).2.1
    exact ⟨m', hrun.head hstep, hm'⟩

/-- The handler on top returns with interrupts on and its interrupt ended. -/
theorem Orderly.returns (htrap : ∀ v : Isr,
    (idt v.vector.toNat).typeAttributes.getLsbD 0 = decide (v = .isr1)) (h : m.Orderly)
    {f : Activation} (htop : m.active = f :: active) (hf : f.isr.hardware = true) :
    ∃ m', MachineRun idt m m' ∧ m'.active = active ∧ m'.interruptFlag = true ∧
      m'.apic.inService = ∅ := by
  have hloop : .loop ∉ f.rest := fun hmem =>
    (actions_hardware hf).1 ((h.rest f (htop ▸ List.mem_cons_self)).mem hmem)
  obtain ⟨m', hrun, hactive, hflag⟩ := handler_returns idt hloop htop
  have hcons := hardware_cons f.isr f.rest f.saved m active htop
  rw [hf, if_pos rfl] at hcons
  have hsaved : f.saved = true := by
    rcases h.serves with ⟨hnone, -⟩ | ⟨g, hg, hsaved, -⟩
    · rw [hcons] at hnone
      contradiction
    · rw [hcons, List.cons.injEq] at hg
      exact (congrArg Activation.saved hg.1).trans hsaved
  have hon := hflag.trans hsaved
  exact ⟨m', hrun, hactive, hon, ((h.run htrap hrun).unmasked hon).2.1⟩

/-- With interrupts on and a request pending, the processor can enter a stub. -/
theorem Orderly.accepts (I : Image) (css : BitVec 16) (h : m.Orderly)
    (hflag : m.interruptFlag = true) (hrequest : m.apic.requested.Nonempty) :
    ∃ v : Isr, v.hardware = true ∧ m.apic.Accepts v.vector.toNat ∧
      (initInterrupts I css v.vector.toNat).present = true := by
  obtain ⟨w, hw⟩ := InterruptController.exists_accepts (h.unmasked hflag).2.1 hrequest
  obtain ⟨v, hv, rfl⟩ := h.requested w hw.requested
  exact ⟨v, hv, hw, initInterrupts_present I css v⟩

end Steps
end Machine

/-- In every state that the kernel reaches, handlers of hardware interrupts do not nest, exactly
the handled one is in service until its `EOI`, such a handler returns with its interrupt ended, and
pending requests are accepted while interrupts are on. -/
theorem interrupts_serviced (I : Image) (css : BitVec 16) {m₀ m : Machine} (h : m₀.Initial)
    (hrun : MachineRun (initInterrupts I css) m₀ m) :
    m.Serves ∧
    (∀ f active, m.active = f :: active → f.isr.hardware = true →
      ∃ m', MachineRun (initInterrupts I css) m m' ∧ m'.active = active ∧
        m'.interruptFlag = true ∧ m'.apic.inService = ∅) ∧
    (m.interruptFlag = true → m.apic.inService = ∅ ∧ (m.apic.requested.Nonempty →
      ∃ v : Isr, v.hardware = true ∧ m.apic.Accepts v.vector.toNat ∧
        (initInterrupts I css v.vector.toNat).present = true)) := by
  have htrap := initInterrupts_trap I css
  have hm := h.orderly.run htrap hrun
  exact ⟨hm.serves, fun f active htop hf => hm.returns htrap htop hf,
    fun hflag => ⟨(hm.unmasked hflag).2.1, hm.accepts I css hflag⟩⟩

/-- A byte and a timer interrupt are waiting when `kmain` begins to poll. -/
def twoPending : Machine where
  kmain := .poll
  active := []
  interruptFlag := false
  apic := ⟨{33, 50}, ∅⟩
  full := true
  data := 0x1E
  scancode := 0
  typed := [0x1E]
  drained := []
  handled := []
  reads := []
  stale := 0
  printed := []

theorem twoPending_initial : twoPending.Initial where
  kmain := rfl
  active := rfl
  interruptFlag := rfl
  inService := rfl
  requested := by
    intro w hw
    rcases Finset.mem_insert.mp hw with rfl | hw
    · exact ⟨.isr33, rfl, rfl⟩
    · exact ⟨.isr50, rfl, (Finset.mem_singleton.mp hw).symm⟩
  typed := rfl
  history := ⟨rfl, rfl, rfl, rfl, rfl⟩

/-- `twoPending` after `sti`: the byte was drained. -/
def twoPendingDrained : Machine :=
  { twoPending with kmain := .enabled, interruptFlag := true, full := false, drained := [0x1E] }

theorem twoPending_run (idt : Idt) : MachineRun idt twoPending twoPendingDrained := by
  have hpoll : MachineStep idt twoPending { twoPending with kmain := .drain } := .poll rfl rfl
  have hdrain : MachineStep idt { twoPending with kmain := .drain }
      { twoPending with full := false, drained := [0x1E] } := .drain rfl rfl
  have hpoll' : MachineStep idt { twoPending with full := false, drained := [0x1E] }
      { twoPending with kmain := .sti, full := false, drained := [0x1E] } := .poll rfl rfl
  have hsti : MachineStep idt { twoPending with kmain := .sti, full := false, drained := [0x1E] }
      twoPendingDrained := .sti rfl rfl
  exact (((Relation.ReflTransGen.single hpoll).tail hdrain).tail hpoll').tail hsti

theorem interrupts_serviced_twoPending : ∃ v : Isr, v.hardware = true ∧
    twoPendingDrained.apic.Accepts v.vector.toNat ∧
      (initInterrupts linkedAt2000 0x28 v.vector.toNat).present = true :=
  ((interrupts_serviced linkedAt2000 0x28 twoPending_initial (twoPending_run _)).2.2 rfl).2
    ⟨33, by decide⟩

end LucidiOS.Interrupt
