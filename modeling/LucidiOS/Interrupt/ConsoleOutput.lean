import LucidiOS.Interrupt.Service
import LucidiOS.Serial.Numbers
import LucidiOS.Serial.Transmission

/-! Texts that `kmain` and the handlers write to one serial port, interrupting each other between
the wait for the transmitter and the store. -/
namespace LucidiOS.Interrupt

/-- What an action writes. The only format of the handlers is `%x`. It takes 64 bits where an `int`
was passed, and what is above that is undefined. -/
def Action.Writes (a : Action) (scancode : BitVec 8) (text : List (BitVec 8)) : Prop :=
  match a with
  | .writeBetter s => text = s.toList.map fun c => BitVec.ofNat 8 c.toNat
  | .kprintf _ => ∃ n : BitVec 64, n.setWidth 32 = scancode.setWidth 32 ∧
      text = 0x30 :: 0x78 :: hexadecimal.padded 16 n.toNat
  | _ => text = []

/-- The calls are those of the handlers that were entered, the last one first, and then that of
`kmain`. `stored` is the history of all stores. -/
structure Console where
  machine : Machine
  calls : List SerialCall
  uart : Uart
  stored : List (BitVec 8)

/-- One step of the system. The stubs lose `rax`: a call that was interrupted may go on with other
bytes, and take the transmitter for empty. -/
inductive ConsoleStep (idt : Idt) : Console → Console → Prop
  | same {c : Console} {m' : Machine} (hstep : MachineStep idt c.machine m')
      (hactive : m'.active = c.machine.active) : ConsoleStep idt c { c with machine := m' }
  | enter {c : Console} {m' : Machine} {v : Isr} {saved : Bool}
      (hstep : MachineStep idt c.machine m')
      (hactive : m'.active = ⟨v, v.actions, saved⟩ :: c.machine.active) :
      ConsoleStep idt c { c with machine := m', calls := .idle :: c.calls }
  | act {c : Console} {v : Isr} {a : Action} {rest : List Action} {saved : Bool}
      {active : List Activation} {calls : List SerialCall} {text : List (BitVec 8)}
      (htop : c.machine.active = ⟨v, a :: rest, saved⟩ :: active) (hends : a ≠ .loop)
      (hidle : c.calls = .idle :: calls) (htext : a.Writes c.machine.scancode text) :
      ConsoleStep idt c
        { c with
          machine := ({ c.machine with active := ⟨v, rest, saved⟩ :: active } : Machine).perform a
          calls := ⟨text, false⟩ :: calls }
  | iret {c : Console} {v : Isr} {saved : Bool} {active : List Activation}
      {interrupted : SerialCall} {calls : List SerialCall} (resumed : SerialCall)
      (htop : c.machine.active = ⟨v, [], saved⟩ :: active)
      (hidle : c.calls = .idle :: interrupted :: calls) :
      ConsoleStep idt c
        { c with
          machine := { c.machine with active, interruptFlag := saved }
          calls := resumed :: calls }
  | call {c : Console} (text : List (BitVec 8)) (hmain : c.machine.kmain = .enabled)
      (hactive : c.machine.active = []) (hidle : c.calls = [.idle]) :
      ConsoleStep idt c { c with calls := [⟨text, false⟩] }
  | write {c : Console} {call call' : SerialCall} {calls : List SerialCall} {out : List (BitVec 8)}
      {uart : Uart} (hcalls : c.calls = call :: calls)
      (hstep : SerialCall.Step (c.uart, call) out (uart, call')) :
      ConsoleStep idt c { c with calls := call' :: calls, uart, stored := c.stored ++ out }
  | shift (c : Console) : ConsoleStep idt c { c with uart := c.uart.shift }

abbrev ConsoleRun (idt : Idt) : Console → Console → Prop :=
  Relation.ReflTransGen (ConsoleStep idt)

/-- A run while more than `n` handlers have not returned. -/
abbrev ServiceRun (idt : Idt) (n : ℕ) : Console → Console → Prop :=
  Relation.ReflTransGen fun c c' => ConsoleStep idt c c' ∧ n < c'.machine.active.length

theorem ServiceRun.run {idt : Idt} {n : ℕ} {c c' : Console} (h : ServiceRun idt n c c') :
    ConsoleRun idt c c' :=
  Relation.ReflTransGen.mono (fun _ _ he => he.1) _ _ h

/-- `init_IOAPIC` has returned, and so far `kmain` used the UART alone. -/
structure Console.Initial (u : Uart) (c : Console) : Prop where
  machine : c.machine.Initial
  calls : c.calls = [.idle]
  uart : c.uart = u
  stored : c.stored = []

namespace Console

/-- The bytes that may wait while a call can be interrupted: after the wait its store is still to
come. -/
def slack (call : SerialCall) : ℕ := if call.ready then 1 else 2

/-- The bytes that may wait while a handler is not interrupted. It returns after it has written, and
then one byte is left. -/
def handlerSlack (rest : List Action) (call : SerialCall) : ℕ :=
  if call.ready then 0 else if call.text ≠ [] ∨ rest.any Action.writesText = true then 2 else 1

def room : List Activation → List SerialCall → ℕ
  | f :: _, call :: _ => if f.isr.hardware then handlerSlack f.rest call else slack call
  | [], call :: _ => slack call
  | _, [] => 2

structure Calm (u : Uart) (c : Console) : Prop where
  orderly : c.machine.Orderly
  same : c.uart.SameRegisters u
  room : c.uart.waiting.length ≤ room c.machine.active c.calls

section Steps
variable {idt : Idt} {u : Uart} {c c' : Console} {f : Activation} {active : List Activation}
  {call : SerialCall} {calls : List SerialCall} {v : Isr} {saved : Bool}

theorem one_le_slack (call : SerialCall) : 1 ≤ slack call := by
  unfold slack
  split_ifs <;> decide

theorem slack_le (call : SerialCall) : slack call ≤ 2 := by
  unfold slack
  split_ifs <;> decide

theorem handlerSlack_le (rest : List Action) (call : SerialCall) : handlerSlack rest call ≤ 2 := by
  unfold handlerSlack
  split_ifs <;> decide

theorem room_hardware (hf : f.isr.hardware = true) :
    room (f :: active) (call :: calls) = handlerSlack f.rest call := if_pos hf

theorem room_other (h : ∀ f ∈ active.head?, f.isr.hardware = false) :
    room active (call :: calls) = slack call := by
  cases active with
  | nil => rfl
  | cons f active => exact if_neg (by simp [h f rfl])

theorem room_le (active : List Activation) (calls : List SerialCall) : room active calls ≤ 2 := by
  unfold room
  split
  · split_ifs
    · exact handlerSlack_le _ _
    · exact slack_le _
  · exact slack_le _
  · exact Nat.le_refl 2

theorem handlerSlack_start (v : Isr) : handlerSlack v.actions .idle = 2 := by
  have hwrites : SerialCall.idle.text ≠ [] ∨ v.actions.any Action.writesText = true :=
    Or.inr (actions_writesText v)
  rw [handlerSlack, if_neg (by decide), if_pos hwrites]

theorem handlerSlack_end : handlerSlack [] .idle = 1 := rfl

/-- An action that writes has a text. -/
theorem writes_ne_nil {a : Action} {scancode : BitVec 8} {text : List (BitVec 8)}
    (ha : a ∈ v.actions) (hwrites : a.writesText = true) (htext : a.Writes scancode text) :
    text ≠ [] := by
  cases a with
  | writeBetter s =>
    have hs := actions_text ha
    rw [Action.Writes] at htext
    rw [htext, ne_eq, List.map_eq_nil_iff, String.toList_eq_nil_iff]
    exact hs
  | kprintf format =>
    obtain ⟨n, -, rfl⟩ := htext
    exact List.cons_ne_nil _ _
  | _ => contradiction

theorem Calm.same_step {m' : Machine} (h : c.Calm u) (ho : m'.Orderly)
    (hactive : m'.active = c.machine.active) : ({ c with machine := m' } : Console).Calm u :=
  ⟨ho, h.same, hactive ▸ h.room⟩

theorem Calm.enter {m' : Machine} (h : c.Calm u) (ho : m'.Orderly)
    (hactive : m'.active = ⟨v, v.actions, saved⟩ :: c.machine.active) :
    ({ c with machine := m', calls := .idle :: c.calls } : Console).Calm u := by
  refine ⟨ho, h.same, (h.room.trans (room_le _ _)).trans ?_⟩
  change 2 ≤ Console.room m'.active (.idle :: c.calls)
  rw [hactive]
  cases hv : v.hardware with
  | true => rw [room_hardware hv, handlerSlack_start]
  | false =>
    rw [room_other (by simp [hv])]
    exact Nat.le_refl 2

theorem Calm.act {a : Action} {rest : List Action} {text : List (BitVec 8)} (h : c.Calm u)
    (htop : c.machine.active = ⟨v, a :: rest, saved⟩ :: active) (hends : a ≠ .loop)
    (hidle : c.calls = .idle :: calls) (htext : a.Writes c.machine.scancode text) :
    ({ c with
      machine := ({ c.machine with active := ⟨v, rest, saved⟩ :: active } : Machine).perform a
      calls := ⟨text, false⟩ :: calls } : Console).Calm u := by
  have hactive := (Machine.perform_kept a
    { c.machine with active := ⟨v, rest, saved⟩ :: active }).2.1
  have hmem : a ∈ v.actions :=
    (h.orderly.rest _ (htop ▸ List.mem_cons_self)).mem List.mem_cons_self
  have hroom := h.room
  rw [htop, hidle] at hroom
  refine ⟨h.orderly.act htop hends, h.same, hroom.trans ?_⟩
  rw [hactive]
  cases hv : v.hardware with
  | true =>
    have hnext : (a :: rest).any Action.writesText = true →
        text ≠ [] ∨ rest.any Action.writesText = true := by
      rw [List.any_cons, Bool.or_eq_true]
      exact Or.imp_left fun hwrites => writes_ne_nil hmem hwrites htext
    rw [room_hardware hv, room_hardware hv, handlerSlack, handlerSlack, if_neg (by decide),
      if_neg Bool.false_ne_true]
    split_ifs with hold hnew
    · exact Nat.le_refl 2
    · exact absurd (hnext (hold.resolve_left (by decide))) hnew
    · exact Nat.le_succ 1
    · exact Nat.le_refl 1
  | false =>
    rw [room_other (by simp [hv]), room_other (by simp [hv])]
    exact Nat.le_refl 2

/-- The handler returns with one byte left, for the transmitter or none. -/
theorem Calm.iret {interrupted : SerialCall} (resumed : SerialCall) (h : c.Calm u)
    (htop : c.machine.active = ⟨v, [], saved⟩ :: active)
    (hidle : c.calls = .idle :: interrupted :: calls) :
    ({ c with
      machine := { c.machine with active, interruptFlag := saved }
      calls := resumed :: calls } : Console).Calm u := by
  have hmem : (⟨v, [], saved⟩ : Activation) ∈ c.machine.active := htop ▸ List.mem_cons_self
  have hv : v.hardware = true := by
    by_contra hc
    exact absurd (h.orderly.stuck _ hmem (by simpa using hc)) List.not_mem_nil
  have hbelow := h.orderly.below_hardware htop hv
  have hroom := h.room
  rw [htop, hidle, room_hardware hv, handlerSlack_end] at hroom
  refine ⟨h.orderly.iret htop, h.same, hroom.trans ?_⟩
  rw [room_other fun g hg => hbelow g (List.mem_of_mem_head? hg)]
  exact one_le_slack resumed

/-- A store makes room for its own byte. -/
theorem room_store (active : List Activation) (b : BitVec 8) (text : List (BitVec 8))
    (calls : List SerialCall) :
    room active (⟨b :: text, true⟩ :: calls) + 1 ≤ room active (⟨text, false⟩ :: calls) := by
  cases active with
  | nil => exact Nat.le_refl 2
  | cons f active =>
    cases hf : f.isr.hardware with
    | true =>
      rw [room_hardware hf, room_hardware hf, handlerSlack, handlerSlack, if_pos rfl,
        if_neg Bool.false_ne_true]
      split_ifs <;> decide
    | false =>
      rw [room_other (by simp [hf]), room_other (by simp [hf])]
      exact Nat.le_refl 2

theorem Calm.write {call' : SerialCall} {out : List (BitVec 8)} {uart : Uart} (h : c.Calm u)
    (hdlab : u.dlab = false) (hcalls : c.calls = call :: calls)
    (hstep : SerialCall.Step (c.uart, call) out (uart, call')) :
    ({ c with calls := call' :: calls, uart, stored := c.stored ++ out } : Console).Calm u := by
  have hsame := (hstep.same (h.same.dlab_eq.trans hdlab)).trans h.same
  have hroom := h.room
  rw [hcalls] at hroom
  refine ⟨h.orderly, hsame, ?_⟩
  cases hstep with
  | poll _ b text other =>
    by_cases hempty : c.uart.waiting = []
    · change c.uart.waiting.length ≤ _
      rw [hempty]
      exact Nat.zero_le _
    · rw [decide_eq_false (mt (Uart.lineStatus_ne_zero other c.uart).mp hempty)]
      exact hroom
  | store _ b text =>
    have hstore := room_store c.machine.active b text calls
    have hput := Uart.transmit_length b c.uart
    rw [Uart.outb_data (h.same.dlab_eq.trans hdlab)]
    change (c.uart.transmit b).waiting.length ≤
      Console.room c.machine.active (⟨text, false⟩ :: calls)
    omega

theorem Calm.step (htrap : ∀ v : Isr,
    (idt v.vector.toNat).typeAttributes.getLsbD 0 = decide (v = .isr1)) (hdlab : u.dlab = false)
    (h : c.Calm u) (hstep : ConsoleStep idt c c') : c'.Calm u := by
  cases hstep with
  | same hstep hactive => exact h.same_step (h.orderly.step htrap hstep) hactive
  | enter hstep hactive => exact h.enter (h.orderly.step htrap hstep) hactive
  | act htop hends hidle htext => exact h.act htop hends hidle htext
  | iret resumed htop hidle => exact h.iret resumed htop hidle
  | call text _ hactive hidle =>
    have hroom := h.room
    rw [hidle, hactive] at hroom
    exact ⟨h.orderly, h.same, hactive ▸ hroom⟩
  | write hcalls hstep => exact h.write hdlab hcalls hstep
  | shift =>
    refine ⟨h.orderly, (Uart.shift_same _).trans h.same, le_trans ?_ h.room⟩
    change c.uart.shift.waiting.length ≤ _
    rw [Uart.shift_waiting, List.length_tail]
    exact Nat.sub_le _ _

theorem Initial.calm (h : c.Initial u) (hlength : u.waiting.length ≤ 1) : c.Calm u := by
  refine ⟨h.machine.orderly, h.uart ▸ Uart.SameRegisters.refl _, ?_⟩
  rw [h.calls, h.machine.active, h.uart]
  exact hlength.trans one_le_two

theorem Calm.run (htrap : ∀ v : Isr,
    (idt v.vector.toNat).typeAttributes.getLsbD 0 = decide (v = .isr1)) (hdlab : u.dlab = false)
    (h : c.Calm u) (hrun : ConsoleRun idt c c') : c'.Calm u := by
  induction hrun with
  | refl => exact h
  | tail _ hstep ih => exact ih.step htrap hdlab hstep

/-- A call that finds room stores its byte. -/
theorem kept_step (hdlab : u.dlab = false) (hcapacity : 2 ≤ u.capacity) (h : c.Calm u)
    (hstep : ConsoleStep idt c c') (hout : c.uart.output = u.output ++ c.stored) :
    c'.uart.output = u.output ++ c'.stored := by
  cases hstep with
  | same | enter | act | iret | call => exact hout
  | shift => exact (Uart.shift_output c.uart).trans hout
  | @write call call' calls out uart hcalls hstep =>
    have hroom := h.room
    rw [hcalls] at hroom
    change uart.output = u.output ++ (c.stored ++ out)
    rw [← List.append_assoc, ← hout]
    cases hstep with
    | poll => exact (List.append_nil _).symm
    | store _ b text =>
      have hstore := room_store c.machine.active b text calls
      have hle := room_le c.machine.active (⟨text, false⟩ :: calls)
      rw [Uart.outb_data (h.same.dlab_eq.trans hdlab), Uart.transmit_output]
      rw [h.same.capacity_eq]
      omega

/-- What a call and the transmitter do is a run of the console. -/
theorem run_sends (idt : Idt) {s s' : Uart × SerialCall} (hrun : SerialCall.Sends s s') (c : Console)
    (calls : List SerialCall) (huart : c.uart = s.1) (hcalls : c.calls = s.2 :: calls) :
    ∃ c', Relation.ReflTransGen
        (fun d d' => ConsoleStep idt d d' ∧ d'.machine = c.machine) c c' ∧
      c'.machine = c.machine ∧ c'.calls = s'.2 :: calls ∧ c'.uart = s'.1 := by
  induction hrun with
  | refl => exact ⟨c, .refl, rfl, hcalls, huart⟩
  | @tail s₁ s₂ _ hstep ih =>
    obtain ⟨d, hd, hmachine, hdcalls, hduart⟩ := ih
    obtain ⟨v, call⟩ := s₁
    obtain ⟨w, call'⟩ := s₂
    subst hduart
    cases hstep with
    | step hstep => exact ⟨_, hd.tail ⟨.write hdcalls hstep, hmachine⟩, hmachine, rfl, rfl⟩
    | shift => exact ⟨_, hd.tail ⟨.shift d, hmachine⟩, hmachine, hdcalls, rfl⟩

/-- The handler that has just been entered for the timer writes its message and returns. -/
theorem exists_returned (idt : Idt) (hdlab : c.uart.dlab = false)
    (htop : c.machine.active = ⟨.isr33, Isr.actions .isr33, saved⟩ :: active)
    (hidle : c.calls = .idle :: call :: calls) :
    ∃ d e, ServiceRun idt active.length c d ∧ ConsoleStep idt d e ∧ e.machine.active = active ∧
      e.calls = call :: calls ∧ e.uart.SameRegisters c.uart ∧ e.uart.waiting ≠ [] := by
  have hlt (a : Activation) : active.length < (a :: active).length := Nat.lt_succ_self _
  obtain ⟨b, text, htext⟩ := List.exists_cons_of_ne_nil
    (l := "\n#APIC timer\n".toList.map fun c => BitVec.ofNat 8 c.toNat) (by decide)
  have hwrite : ConsoleStep idt c _ :=
    .act (a := .writeBetter "\n#APIC timer\n") htop (by decide) hidle htext.symm
  obtain ⟨w, hsends, hsame, hlast⟩ := SerialCall.exists_finish hdlab b text false
  obtain ⟨d, hd, hdmachine, hdcalls, hduart⟩ := run_sends idt hsends
    { c with
      machine := { c.machine with active := ⟨.isr33, [.eoi], saved⟩ :: active }
      calls := ⟨b :: text, false⟩ :: call :: calls } (call :: calls) rfl rfl
  have hdactive : d.machine.active = ⟨.isr33, [.eoi], saved⟩ :: active :=
    congrArg Machine.active hdmachine
  let ended : Machine :=
    ({ d.machine with active := ⟨.isr33, [], saved⟩ :: active } : Machine).perform .eoi
  have heoi : ConsoleStep idt d { d with machine := ended, calls := .idle :: call :: calls } :=
    .act hdactive (by decide) hdcalls rfl
  have hiret : ConsoleStep idt { d with machine := ended, calls := .idle :: call :: calls } _ :=
    .iret call rfl rfl
  have hrun : ServiceRun idt active.length _ d :=
    Relation.ReflTransGen.mono (fun e e' he => ⟨he.1, by rw [he.2]; exact hlt _⟩) _ _ hd
  refine ⟨_, _, (hrun.head ⟨hwrite, hlt _⟩).tail ⟨heoi, hlt _⟩, hiret, rfl, rfl, ?_, ?_⟩
  · change d.uart.SameRegisters c.uart
    rw [hduart]
    exact hsame
  · change d.uart.waiting ≠ []
    rw [hduart]
    exact hlast

end Steps

section Overrun
variable {u : Uart} (I : Image) (css : BitVec 16)

/-- The timer's interrupt is pending when `kmain` begins to poll. -/
def timerPending (u : Uart) : Console where
  machine := ⟨.poll, [], false, ⟨{33}, ∅⟩, false, 0, 0, [], [], [], [], 0, []⟩
  calls := [.idle]
  uart := u
  stored := []

theorem timerPending_initial (u : Uart) : (timerPending u).Initial u where
  machine := ⟨rfl, rfl, rfl, rfl, fun _ hw => ⟨.isr33, rfl, (Finset.mem_singleton.mp hw).symm⟩,
    rfl, rfl, rfl, rfl, rfl, rfl⟩
  calls := rfl
  uart := rfl
  stored := rfl

/-- The timer's interrupt comes between the wait and the store of `kmain`. -/
theorem exists_entered (u : Uart) (b : BitVec 8) :
    ∃ c, ConsoleRun (initInterrupts I css) (timerPending u) c ∧
      c.machine.active = [⟨.isr33, Isr.actions .isr33, true⟩] ∧
      c.calls = [.idle, ⟨[b], true⟩] ∧ c.uart.SameRegisters u := by
  let idt := initInterrupts I css
  let polled : Machine := ⟨.sti, [], false, ⟨{33}, ∅⟩, false, 0, 0, [], [], [], [], 0, []⟩
  let enabled : Machine := { polled with kmain := .enabled, interruptFlag := true }
  have hpoll : ConsoleStep idt (timerPending u) { timerPending u with machine := polled } :=
    .same (.poll rfl rfl) rfl
  have hsti : ConsoleStep idt { timerPending u with machine := polled }
      { timerPending u with machine := enabled } := .same (.sti rfl rfl) rfl
  have hcall : ConsoleStep idt { timerPending u with machine := enabled }
      { timerPending u with machine := enabled, calls := [⟨[b], false⟩] } := .call [b] rfl rfl rfl
  obtain ⟨v, hready, hvsame, -⟩ := SerialCall.exists_ready u b [] false
  obtain ⟨c, hc, hcmachine, hccalls, hcuart⟩ := run_sends idt hready
    { timerPending u with machine := enabled, calls := [⟨[b], false⟩] } [] rfl rfl
  have hnext : enabled.apic.Accepts Isr.isr33.vector.toNat := ⟨by decide, by decide, by decide⟩
  let accepted : Machine := { enabled with apic := enabled.apic.accept 33 }
  have haccept : MachineStep idt c.machine (accepted.enter idt .isr33) :=
    hcmachine ▸ .accept rfl hnext (initInterrupts_present I css .isr33)
  have henter := ConsoleStep.enter haccept (by rw [hcmachine]; rfl)
  have hstart := ((Relation.ReflTransGen.single hpoll).tail hsti).tail hcall
  have hwait : ConsoleRun idt _ c := Relation.ReflTransGen.mono (fun _ _ he => he.1) _ _ hc
  exact ⟨_, (hstart.trans hwait).tail henter, rfl, congrArg _ hccalls, hcuart ▸ hvsame⟩

/-- And the handler returns before the store. -/
theorem exists_interrupted (hdlab : u.dlab = false) (b : BitVec 8) :
    ∃ c, ConsoleRun (initInterrupts I css) (timerPending u) c ∧ c.calls = [⟨[b], true⟩] ∧
      c.uart.SameRegisters u ∧ c.uart.waiting ≠ [] := by
  obtain ⟨c, hrun, htop, hcalls, hsame⟩ := exists_entered I css u b
  obtain ⟨d, e, hserve, hreturn, -, hecalls, hesame, hlast⟩ :=
    exists_returned (initInterrupts I css) (hsame.dlab_eq.trans hdlab) htop hcalls
  exact ⟨e, (hrun.trans hserve.run).tail hreturn, hecalls, hesame.trans hsame, hlast⟩

end Overrun
end Console

/-- Whatever interrupts what and however an interrupted call goes on, exactly with the FIFO enabled
every byte that was stored goes out, and in order. -/
theorem no_overrun_iff (I : Image) (css : BitVec 16) {u : Uart} (hdlab : u.dlab = false)
    (hlength : u.waiting.length ≤ 1) :
    (∀ c₀ c : Console, c₀.Initial u → ConsoleRun (initInterrupts I css) c₀ c →
      c.uart.output = u.output ++ c.stored) ↔ u.fifoControl.getLsbD 0 = true := by
  have htrap := initInterrupts_trap I css
  constructor
  · intro hall
    by_contra hfifo
    obtain ⟨c, hrun, hcalls, hsame, hwaiting⟩ := Console.exists_interrupted I css hdlab 0x41
    have hinitial := Console.timerPending_initial u
    have hfull : c.uart.capacity ≤ c.uart.waiting.length := by
      rw [hsame.capacity_eq, Uart.capacity, if_neg hfifo]
      exact List.length_pos_iff.mpr hwaiting
    have hstore : ConsoleStep (initInterrupts I css) c _ := .write hcalls (.store c.uart 0x41 [])
    have hbefore := hall _ _ hinitial hrun
    have hafter := hall _ _ hinitial (hrun.tail hstore)
    change (c.uart.outb 0 0x41).output = u.output ++ (c.stored ++ [0x41]) at hafter
    rw [Uart.outb_data (hsame.dlab_eq.trans hdlab), Uart.transmit_of_le hfull, hbefore,
      ← List.append_assoc] at hafter
    exact absurd hafter (by simp)
  · intro hfifo c₀ c hinitial hrun
    have hcapacity : 2 ≤ u.capacity := by
      rw [Uart.capacity, if_pos hfifo]
      decide
    have hcalm := hinitial.calm hlength
    induction hrun with
    | refl => rw [hinitial.uart, hinitial.stored, List.append_nil]
    | tail hrun hstep ih =>
      exact Console.kept_step hdlab hcapacity (hcalm.run htrap hdlab hrun) hstep ih

/-- The UART as `init_serial` leaves it. -/
theorem no_overrun_iff_initSerial :
    (∀ c₀ c : Console, c₀.Initial ⟨0, 0x03, 0x0B, 0xC7, 12, [0x0A], []⟩ →
      ConsoleRun (initInterrupts linkedAt2000 0x28) c₀ c →
        c.uart.output = [0x0A] ++ c.stored) ↔ (0xC7 : BitVec 8).getLsbD 0 = true :=
  no_overrun_iff linkedAt2000 0x28 (u := ⟨0, 0x03, 0x0B, 0xC7, 12, [0x0A], []⟩) (by decide)
    (by decide)

end LucidiOS.Interrupt
