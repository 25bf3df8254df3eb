import LucidiOS.Interrupt.ConsoleOutput

/-! The message of a hardware interrupt is stored in one piece. -/
namespace LucidiOS.Interrupt
namespace Console

/-- What the actions of a handler write, one text for each. -/
abbrev Message (scancode : BitVec 8) (actions : List Action) (texts : List (List (BitVec 8))) :
    Prop :=
  List.Forall₂ (Action.Writes · scancode) actions texts

/-- A handler on top of `active`, which found `stored`: its actions that are done have stored their
texts, but for what is left of the last one. -/
structure Writes (v : Isr) (saved : Bool) (active : List Activation) (calls : List SerialCall)
    (stored : List (BitVec 8)) (c : Console) (rest : List Action) (call : SerialCall) : Prop where
  active : c.machine.active = ⟨v, rest, saved⟩ :: active
  calls : c.calls = call :: calls
  texts : ∃ done texts, v.actions = done ++ rest ∧ Message c.machine.scancode done texts ∧
    c.stored ++ call.text = stored ++ texts.flatten

/-- An exception was taken above `base`. -/
def Covered (base : List Activation) (c : Console) : Prop :=
  ∃ above f, f.isr.hardware = false ∧ c.machine.active = above ++ f :: base

section Messages
variable {idt : Idt} {v : Isr} {saved : Bool} {active base : List Activation}
  {calls : List SerialCall} {stored : List (BitVec 8)} {c c' : Console} {rest : List Action}
  {call : SerialCall}

theorem ConsoleStep.machine (h : ConsoleStep idt c c') :
    c'.machine = c.machine ∨ MachineStep idt c.machine c'.machine := by
  cases h with
  | same hstep _ => exact Or.inr hstep
  | enter hstep _ => exact Or.inr hstep
  | act htop hends _ _ => exact Or.inr (.act htop hends)
  | iret _ htop _ => exact Or.inr (.iret htop)
  | call | write | shift => exact Or.inl rfl

/-- Only an action of a handler changes the scancode. -/
theorem scancode_of_active {m m' : Machine} (h : MachineStep idt m m')
    (hactive : m'.active = m.active) : m'.scancode = m.scancode := by
  cases h with
  | @act v a rest saved active htop _ =>
    rw [(Machine.perform_kept a _).2.1, htop] at hactive
    simp at hactive
  | _ => rfl

theorem orderly_step (htrap : ∀ v : Isr,
    (idt v.vector.toNat).typeAttributes.getLsbD 0 = decide (v = .isr1))
    (h : c.machine.Orderly) (hstep : ConsoleStep idt c c') : c'.machine.Orderly := by
  rcases ConsoleStep.machine hstep with heq | hmachine
  · exact heq ▸ h
  · exact h.step htrap hmachine

theorem orderly_run (htrap : ∀ v : Isr,
    (idt v.vector.toNat).typeAttributes.getLsbD 0 = decide (v = .isr1))
    (h : c.machine.Orderly) (hrun : ConsoleRun idt c c') : c'.machine.Orderly := by
  induction hrun with
  | refl => exact h
  | tail _ hstep ih => exact orderly_step htrap ih hstep

theorem Covered.length (h : Covered base c) : base.length < c.machine.active.length := by
  obtain ⟨above, f, -, hactive⟩ := h
  rw [hactive, List.length_append, List.length_cons]
  omega

/-- An exception does not return. -/
theorem Covered.step (ho : c.machine.Orderly) (h : Covered base c) (hstep : ConsoleStep idt c c') :
    Covered base c' := by
  obtain ⟨above, f, hf, hactive⟩ := h
  cases hstep with
  | same _ hsame => exact ⟨above, f, hf, hsame.trans hactive⟩
  | @enter _ v saved _ hcons =>
    exact ⟨⟨v, v.actions, saved⟩ :: above, f, hf, hcons.trans (congrArg _ hactive)⟩
  | @act v a rest saved active _ _ htop _ _ _ =>
    have hkept := (Machine.perform_kept a
      { c.machine with active := ⟨v, rest, saved⟩ :: active }).2.1
    rw [hactive] at htop
    cases above with
    | nil =>
      rw [List.nil_append, List.cons.injEq] at htop
      obtain ⟨rfl, rfl⟩ := htop
      exact ⟨[], ⟨v, rest, saved⟩, hf, hkept⟩
    | cons g above =>
      rw [List.cons_append, List.cons.injEq] at htop
      obtain ⟨rfl, rfl⟩ := htop
      exact ⟨⟨v, rest, saved⟩ :: above, f, hf, hkept⟩
  | @iret v saved active _ _ _ htop _ =>
    cases above with
    | nil =>
      -- its last action is still to come
      rw [hactive, List.nil_append, List.cons.injEq] at htop
      have hstuck := ho.stuck f (hactive ▸ List.mem_append_right _ List.mem_cons_self) hf
      rw [htop.1] at hstuck
      exact absurd hstuck List.not_mem_nil
    | cons g above =>
      rw [hactive, List.cons_append, List.cons.injEq] at htop
      exact ⟨above, f, hf, htop.2.symm⟩
  | call _ _ hnone _ =>
    rw [hactive] at hnone
    simp at hnone
  | write | shift => exact ⟨above, f, hf, hactive⟩

/-- What the handler has printed does not change when it reads the scancode, since that comes
first. -/
theorem message_act {m : Machine} {a : Action} {done rest : List Action} {text : List (BitVec 8)}
    {texts : List (List (BitVec 8))} (hdone : v.actions = done ++ a :: rest)
    (hmessage : Message m.scancode done texts) (htext : a.Writes m.scancode text) :
    Message (m.perform a).scancode (done ++ [a]) (texts ++ [text]) := by
  cases a with
  | inb p =>
    obtain rfl := inb_first hdone
    cases hmessage
    exact .cons htext .nil
  | _ => exact List.rel_append hmessage (.cons htext .nil)

theorem Writes.act {a : Action} {rest : List Action} {text : List (BitVec 8)} {m : Machine}
    (h : Writes v saved active calls stored c (a :: rest) .idle)
    (htext : a.Writes c.machine.scancode text) (hscancode : m.scancode = c.machine.scancode)
    (hactive : m.active = ⟨v, rest, saved⟩ :: active) :
    Writes v saved active calls stored
      { c with machine := m.perform a, calls := ⟨text, false⟩ :: calls } rest ⟨text, false⟩ := by
  obtain ⟨done, texts, hdone, hmessage, heq⟩ := h.texts
  have hidle : c.stored = stored ++ texts.flatten := (List.append_nil _).symm.trans heq
  refine ⟨(Machine.perform_kept a m).2.1.trans hactive, rfl, done ++ [a], texts ++ [text], ?_, ?_,
    ?_⟩
  · rw [hdone, List.append_assoc]
    rfl
  · rw [← hscancode] at hmessage htext
    exact message_act hdone hmessage htext
  · rw [hidle, List.flatten_append, List.append_assoc, List.flatten_singleton]

/-- The handler writes, is covered by an exception, or returns with its whole message stored. -/
theorem Writes.step (ho : c'.machine.Orderly) (hv : v.hardware = true)
    (h : Writes v saved active calls stored c rest call) (hstep : ConsoleStep idt c c') :
    (∃ rest call, Writes v saved active calls stored c' rest call) ∨
      (∃ rest, Covered (⟨v, rest, saved⟩ :: active) c') ∨
      c'.machine.active = active ∧ ∃ texts, Message c'.machine.scancode v.actions texts ∧
        c'.stored = stored ++ texts.flatten := by
  cases hstep with
  | same hstep hsame =>
    have htexts := h.texts
    rw [← scancode_of_active hstep hsame] at htexts
    exact Or.inl ⟨rest, call, hsame.trans h.active, h.calls, htexts⟩
  | @enter m' w saved' _ hcons =>
    rw [h.active] at hcons
    refine Or.inr (Or.inl ⟨rest, [], ⟨w, w.actions, saved'⟩, ?_, hcons⟩)
    by_contra hf
    have hbelow := ho.below_hardware hcons (by simpa using hf) _ List.mem_cons_self
    rw [hv] at hbelow
    contradiction
  | @act _ a _ _ _ _ text htop _ hidle htext =>
    have hactive := h.active.symm.trans htop
    have hcalls := h.calls.symm.trans hidle
    rw [List.cons.injEq, Activation.mk.injEq] at hactive
    rw [List.cons.injEq] at hcalls
    obtain ⟨⟨rfl, rfl, rfl⟩, rfl⟩ := hactive
    obtain ⟨rfl, rfl⟩ := hcalls
    exact Or.inl ⟨_, _, h.act htext rfl rfl⟩
  | iret _ htop hidle =>
    have hactive := h.active.symm.trans htop
    have hcalls := h.calls.symm.trans hidle
    rw [List.cons.injEq, Activation.mk.injEq] at hactive
    rw [List.cons.injEq] at hcalls
    obtain ⟨⟨rfl, rfl, rfl⟩, rfl⟩ := hactive
    obtain ⟨rfl, -⟩ := hcalls
    obtain ⟨done, texts, hdone, hmessage, heq⟩ := h.texts
    rw [List.append_nil] at hdone
    exact Or.inr (Or.inr ⟨rfl, texts, hdone ▸ hmessage, (List.append_nil _).symm.trans heq⟩)
  | call _ _ hnone _ =>
    rw [h.active] at hnone
    contradiction
  | @write _ call' _ out uart hcalls hstep =>
    obtain ⟨done, texts, hdone, hmessage, heq⟩ := h.texts
    have hsame := h.calls.symm.trans hcalls
    rw [List.cons.injEq] at hsame
    obtain ⟨rfl, rfl⟩ := hsame
    refine Or.inl ⟨rest, call', h.active, rfl, done, texts, hdone, hmessage, ?_⟩
    rw [← heq]
    cases hstep with
    | poll => exact congrArg (· ++ _) (List.append_nil _)
    | store => exact List.append_assoc _ _ _
  | shift => exact Or.inl ⟨rest, call, h.active, h.calls, h.texts⟩

end Messages
end Console

/-- The 32 bits that `kprintf` was given are read back from behind its "0x". -/
theorem Action.Writes.read {a : Action} {scancode : BitVec 8} {text : List (BitVec 8)}
    (h : a.Writes scancode text) (ha : a.isKprintf = true) :
    (hexadecimal.read (text.drop 2)).map (· % 2 ^ 32) = some scancode.toNat := by
  cases a with
  | kprintf format =>
    obtain ⟨n, hn, rfl⟩ := h
    have hlow := congrArg BitVec.toNat hn
    rw [BitVec.toNat_setWidth, BitVec.toNat_setWidth] at hlow
    change (hexadecimal.read (hexadecimal.padded 16 n.toNat)).map _ = _
    rw [hexadecimal_read, Option.map_some, hlow, Nat.mod_eq_of_lt (by omega)]
  | _ => contradiction

/-- From the entry of a hardware interrupt's handler to its return, exactly its message is
stored, and what is printed in it is read back as the scancode. -/
theorem message_contiguous (I : Image) (css : BitVec 16) {u : Uart} {c₀ c d e : Console} {v : Isr}
    {saved : Bool} {active : List Activation} {calls : List SerialCall} (h : c₀.Initial u)
    (hrun : ConsoleRun (initInterrupts I css) c₀ c) (hv : v.hardware = true)
    (hactive : c.machine.active = ⟨v, v.actions, saved⟩ :: active)
    (hcalls : c.calls = .idle :: calls)
    (hserve : ServiceRun (initInterrupts I css) active.length c d)
    (hreturn : ConsoleStep (initInterrupts I css) d e)
    (hback : e.machine.active.length = active.length) :
    ∃ texts, Console.Message e.machine.scancode v.actions texts ∧
      e.stored = c.stored ++ texts.flatten ∧
      ∀ a text, (a, text) ∈ v.actions.zip texts → a.isKprintf = true →
        (hexadecimal.read (text.drop 2)).map (· % 2 ^ 32) = some e.machine.scancode.toNat := by
  have htrap := initInterrupts_trap I css
  have ho := Console.orderly_run htrap h.machine.orderly hrun
  have hserving : d.machine.Orderly ∧
      ((∃ rest call, Console.Writes v saved active calls c.stored d rest call) ∨
        ∃ rest, Console.Covered (⟨v, rest, saved⟩ :: active) d) := by
    clear hreturn hback
    induction hserve with
    | refl =>
      exact ⟨ho, Or.inl ⟨_, _, hactive, hcalls, [], [], rfl, .nil, by simp [SerialCall.idle]⟩⟩
    | tail _ hstep ih =>
      obtain ⟨ihorder, ih⟩ := ih
      have horder := Console.orderly_step htrap ihorder hstep.1
      refine ⟨horder, ?_⟩
      rcases ih with ⟨rest, call, hw⟩ | ⟨rest, hcover⟩
      · rcases hw.step horder hv hstep.1 with hw | hcover | ⟨hreturned, -⟩
        · exact Or.inl hw
        · exact Or.inr hcover
        · have hlength := hstep.2
          rw [hreturned] at hlength
          exact absurd hlength (Nat.lt_irrefl _)
      · exact Or.inr ⟨rest, hcover.step ihorder hstep.1⟩
  obtain ⟨horder, ⟨rest, call, hw⟩ | ⟨rest, hcover⟩⟩ := hserving
  · rcases hw.step (Console.orderly_step htrap horder hreturn) hv hreturn with
      ⟨rest, call, hw⟩ | ⟨rest, hcover⟩ | ⟨-, hmessage⟩
    · rw [hw.active, List.length_cons] at hback
      omega
    · have hlength := hcover.length
      rw [hback, List.length_cons] at hlength
      omega
    · obtain ⟨texts, hmessage, hstored⟩ := hmessage
      refine ⟨texts, hmessage, hstored, fun a text hmem ha => ?_⟩
      exact ((List.forall₂_iff_zip.mp hmessage).2 hmem).read ha
  · have hlength := (hcover.step horder hreturn).length
    rw [hback, List.length_cons] at hlength
    omega

/-- The timer's message is stored between the wait and the store of `kmain`. -/
theorem message_contiguous_timer : ∃ (c e : Console) (texts : List (List (BitVec 8))),
    c.calls = [.idle, ⟨[0x41], true⟩] ∧ e.calls = [⟨[0x41], true⟩] ∧
      Console.Message e.machine.scancode (Isr.actions .isr33) texts ∧
      e.stored = c.stored ++ texts.flatten := by
  obtain ⟨c, hrun, hactive, hcalls, hsame⟩ :=
    Console.exists_entered linkedAt2000 0x28 ⟨0, 0x03, 0x0B, 0xC7, 12, [0x0A], []⟩ 0x41
  have hdlab : c.uart.dlab = false := hsame.dlab_eq.trans (by decide)
  obtain ⟨d, e, hserve, hreturn, hback, hecalls, -⟩ :=
    Console.exists_returned (initInterrupts linkedAt2000 0x28) hdlab hactive hcalls
  obtain ⟨texts, hmessage, hstored, -⟩ := message_contiguous linkedAt2000 0x28
    (Console.timerPending_initial _) hrun rfl hactive hcalls hserve hreturn
    (congrArg List.length hback)
  exact ⟨c, e, texts, hcalls, hecalls, hmessage, hstored⟩

end LucidiOS.Interrupt
