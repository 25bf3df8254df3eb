import LucidiOS.Interrupt.Service

/-! The bytes of the keyboard over whole runs: each is taken once, by `kmain` or by the handler. -/
namespace LucidiOS.Interrupt
namespace Machine

/-- Reads of the data port that handlers have still to make. -/
def readsAhead (m : Machine) : ℕ :=
  (m.active.map fun f => f.rest.countP Action.isInb).sum

/-- The reads to come, with that of a pending keyboard interrupt. -/
def credit (m : Machine) : ℕ := (if 50 ∈ m.apic.requested then 1 else 0) + m.readsAhead

/-- Before `sti` only `kmain` reads. From then on a byte in the buffer has a read to come, and
there is at most one read too many. -/
structure KeyboardOrder (m : Machine) : Prop where
  order : m.typed = m.drained ++ m.handled ++ if m.full then [m.data] else []
  bound : m.credit + m.stale ≤ m.full.toNat + 1
  polling : m.kmain = .poll ∨ m.kmain = .drain → m.stale = 0 ∧ m.handled = []
  drain : m.kmain = .drain → m.full = true
  served : m.kmain = .sti ∨ m.kmain = .enabled → m.full.toNat ≤ m.credit

section Steps
variable {idt : Idt} {m m' : Machine} {v : Isr} {a : Action} {rest : List Action} {saved : Bool}
  {active : List Activation}

theorem countP_actions (v : Isr) :
    v.actions.countP Action.isInb = if v = .isr50 then 1 else 0 := by
  cases v <;> rfl

/-- Only the handler of a hardware interrupt reads the data port. -/
theorem Orderly.readsAhead_of_none (h : m.Orderly) (hnone : m.hardware = []) :
    m.readsAhead = 0 := by
  rw [readsAhead, List.sum_eq_zero_iff]
  intro n hn
  obtain ⟨f, hf, rfl⟩ := List.mem_map.mp hn
  rw [List.countP_eq_zero]
  intro a ha hinb
  have hv : f.isr.hardware = false := by
    by_contra hc
    have hmem : f ∈ m.hardware := List.mem_filter.mpr ⟨hf, by simpa using hc⟩
    rw [hnone] at hmem
    contradiction
  rw [(actions_exception hv).2.1 a ((h.rest f hf).mem ha)] at hinb
  contradiction

theorem credit_le_of_off (h : m.Orderly) (hoff : m.kmain ≠ .enabled) : m.credit ≤ 1 := by
  rw [credit, h.readsAhead_of_none (h.off hoff).2]
  split_ifs <;> decide

theorem readsAhead_cons (htop : m.active = ⟨v, rest, saved⟩ :: active) :
    m.readsAhead =
      rest.countP Action.isInb + (active.map fun f => f.rest.countP Action.isInb).sum := by
  rw [readsAhead, htop, List.map_cons, List.sum_cons]

theorem credit_congr (hrequested : 50 ∈ m'.apic.requested ↔ 50 ∈ m.apic.requested)
    (hreads : m'.readsAhead = m.readsAhead) : m'.credit = m.credit := by
  rw [credit, credit, hreads, if_congr hrequested rfl rfl]

/-- A step of the others: the keyboard's bytes, the reads to come and `kmain` are as before. -/
theorem KeyboardOrder.congr (h : m.KeyboardOrder) (hkmain : m'.kmain = m.kmain)
    (hfull : m'.full = m.full) (hdata : m'.data = m.data)
    (hhistory : m'.typed = m.typed ∧ m'.drained = m.drained ∧ m'.handled = m.handled ∧
      m'.stale = m.stale) (hcredit : m'.credit = m.credit) : m'.KeyboardOrder := by
  obtain ⟨htyped, hdrained, hhandled, hstale⟩ := hhistory
  constructor
  · rw [htyped, hdrained, hhandled, hfull, hdata]
    exact h.order
  · rw [hcredit, hstale, hfull]
    exact h.bound
  · rw [hkmain, hstale, hhandled]
    exact h.polling
  · rw [hkmain, hfull]
    exact h.drain
  · rw [hkmain, hfull, hcredit]
    exact h.served

theorem KeyboardOrder.key (h : m.KeyboardOrder) (b : BitVec 8) (hempty : m.full = false) :
    (m.keyboard b).KeyboardOrder := by
  have hbound := h.bound
  have hcredit : (m.keyboard b).credit = 1 + m.readsAhead := by
    have hmem : 50 ∈ (m.keyboard b).apic.requested :=
      InterruptController.mem_raise_requested.mpr (Or.inl rfl)
    rw [credit, if_pos hmem]
    rfl
  have hle : m.readsAhead ≤ m.credit := Nat.le_add_left _ _
  rw [hempty] at hbound
  refine ⟨?_, ?_, h.polling, fun _ => rfl, fun _ => ?_⟩
  · change m.typed ++ [b] = m.drained ++ m.handled ++ [b]
    rw [h.order, hempty, if_neg Bool.false_ne_true, List.append_nil]
  · rw [hcredit]
    change 1 + m.readsAhead + m.stale ≤ 1 + 1
    simp only [Bool.toNat_false] at hbound
    omega
  · rw [hcredit]
    change 1 ≤ 1 + m.readsAhead
    omega

theorem KeyboardOrder.poll (h : m.KeyboardOrder) (hmain : m.kmain = .poll) :
    ({ m with kmain := if m.full then .drain else .sti } : Machine).KeyboardOrder := by
  refine ⟨h.order, h.bound, fun _ => h.polling (Or.inl hmain), fun hc => ?_, fun hc => ?_⟩
  · change (if m.full then Progress.drain else Progress.sti) = .drain at hc
    change m.full = true
    by_contra hf
    rw [if_neg hf] at hc
    contradiction
  · change (if m.full then Progress.drain else Progress.sti) = .sti ∨ _ = Progress.enabled at hc
    change m.full.toNat ≤ m.credit
    cases hf : m.full with
    | true =>
      rw [hf, if_pos rfl] at hc
      rcases hc with hc | hc <;> contradiction
    | false => exact Nat.zero_le _

theorem KeyboardOrder.drained (h : m.KeyboardOrder) (ho : m.Orderly) (hmain : m.kmain = .drain) :
    ({ m with kmain := .poll, full := false, drained := m.drained ++ [m.data] } :
      Machine).KeyboardOrder := by
  obtain ⟨hstale, hhandled⟩ := h.polling (Or.inr hmain)
  have horder := h.order
  rw [hhandled, h.drain hmain, if_pos rfl, List.append_nil] at horder
  have hcredit := credit_le_of_off ho (by rw [hmain]; decide)
  refine ⟨?_, ?_, fun _ => ⟨hstale, hhandled⟩, by simp, by simp⟩
  · change m.typed = m.drained ++ [m.data] ++ m.handled ++ []
    rw [horder, hhandled, List.append_nil, List.append_nil]
  · change m.credit + m.stale ≤ 0 + 1
    rw [hstale]
    exact hcredit

theorem KeyboardOrder.sti (h : m.KeyboardOrder) (hmain : m.kmain = .sti) :
    ({ m with kmain := .enabled, interruptFlag := true } : Machine).KeyboardOrder :=
  ⟨h.order, h.bound, by simp, by simp, fun _ => h.served (Or.inl hmain)⟩

/-- The pending interrupt of the keyboard becomes the read that its handler has to make. -/
theorem credit_accept (hnext : m.apic.Accepts v.vector.toNat) :
    (({ m with apic := m.apic.accept v.vector.toNat } : Machine).enter idt v).credit =
      m.credit := by
  have hreads : (({ m with apic := m.apic.accept v.vector.toNat } : Machine).enter
      idt v).readsAhead = (if v = .isr50 then 1 else 0) + m.readsAhead := by
    rw [readsAhead_cons rfl, countP_actions]
    rfl
  rw [credit, credit, hreads]
  change (if 50 ∈ m.apic.requested.erase v.vector.toNat then 1 else 0) + _ = _
  by_cases hv : v = .isr50
  · subst hv
    have hmem : 50 ∈ m.apic.requested := hnext.requested
    have hnot : 50 ∉ m.apic.requested.erase Isr.isr50.vector.toNat := Finset.notMem_erase _ _
    rw [if_neg hnot, if_pos rfl, if_pos hmem, Nat.zero_add]
  · have hne : 50 ≠ v.vector.toNat := fun hc => hv (Isr.vector_injective hc.symm)
    rw [if_neg hv, Nat.zero_add, if_congr (Finset.mem_erase.trans (and_iff_right hne)) rfl rfl]

theorem credit_fault (hv : v.hardware = false) : (m.enter idt v).credit = m.credit := by
  refine credit_congr Iff.rfl ?_
  have hne : v ≠ .isr50 := by
    rintro rfl
    contradiction
  rw [readsAhead_cons rfl, countP_actions, if_neg hne, Nat.zero_add]
  rfl

/-- The handler's read takes the byte, or is the one too many. -/
theorem KeyboardOrder.read (h : m.KeyboardOrder) (hcredit : m'.credit + 1 = m.credit)
    (hm' : m'.full = m.full ∧ m'.data = m.data ∧ m'.typed = m.typed ∧ m'.drained = m.drained ∧
      m'.handled = m.handled ∧ m'.stale = m.stale) (henabled : m'.kmain = .enabled)
    (hmain : m.kmain = .enabled) : m'.readData.KeyboardOrder := by
  obtain ⟨hfull, hdata, htyped, hdrained, hhandled, hstale⟩ := hm'
  have hbound := h.bound
  have hserved := h.served (Or.inr hmain)
  have horder := h.order
  unfold readData
  cases hf : m.full with
  | true =>
    rw [hf] at hbound hserved horder
    rw [hfull, hf, if_pos rfl]
    refine ⟨?_, ?_, by simp [henabled], by simp [henabled], fun _ => Nat.zero_le _⟩
    · change m'.typed = m'.drained ++ (m'.handled ++ [m'.data]) ++ []
      rw [htyped, hdrained, hhandled, hdata, horder]
      simp
    · change m'.credit + m'.stale ≤ 0 + 1
      rw [hstale]
      simp only [Bool.toNat_true] at hbound
      omega
  | false =>
    rw [hf] at hbound horder
    rw [hfull, hf, if_neg Bool.false_ne_true]
    refine ⟨?_, ?_, by simp [henabled], by simp [henabled], fun _ => Nat.zero_le _⟩
    · change m'.typed = m'.drained ++ m'.handled ++ []
      rw [htyped, hdrained, hhandled, horder]
      rfl
    · change m'.credit + (m'.stale + 1) ≤ 0 + 1
      rw [hstale]
      simp only [Bool.toNat_false] at hbound
      omega

theorem KeyboardOrder.act (h : m.KeyboardOrder) (ho : m.Orderly)
    (htop : m.active = ⟨v, a :: rest, saved⟩ :: active) :
    (({ m with active := ⟨v, rest, saved⟩ :: active } : Machine).perform a).KeyboardOrder := by
  have hreads := readsAhead_cons htop
  rw [List.countP_cons] at hreads
  have hreads' := readsAhead_cons
    (m := { m with active := ⟨v, rest, saved⟩ :: active }) rfl
  cases hinb : a.isInb with
  | true =>
    rw [hinb, if_pos rfl] at hreads
    have hcredit : ({ m with active := ⟨v, rest, saved⟩ :: active } : Machine).credit + 1 =
        m.credit := by
      rw [credit, credit, hreads, hreads']
      change (if 50 ∈ m.apic.requested then 1 else 0) + _ + 1 = _
      omega
    have hmain : m.kmain = .enabled := by
      by_contra hoff
      have hzero := ho.readsAhead_of_none (ho.off hoff).2
      omega
    cases a with
    | inb p => exact h.read hcredit ⟨rfl, rfl, rfl, rfl, rfl, rfl⟩ hmain hmain
    | _ => contradiction
  | false =>
    rw [hinb, if_neg Bool.false_ne_true, Nat.add_zero, ← hreads'] at hreads
    have hcredit : ({ m with active := ⟨v, rest, saved⟩ :: active } : Machine).credit = m.credit :=
      credit_congr Iff.rfl hreads.symm
    cases a with
    | inb p => contradiction
    | _ => exact h.congr rfl rfl rfl ⟨rfl, rfl, rfl, rfl⟩ hcredit

theorem KeyboardOrder.step (h : m.KeyboardOrder) (ho : m.Orderly) (hstep : MachineStep idt m m') :
    m'.KeyboardOrder := by
  cases hstep with
  | key b hempty => exact h.key b hempty
  | @raise v hv hother =>
    refine h.congr rfl rfl rfl ⟨rfl, rfl, rfl, rfl⟩ (credit_congr ?_ rfl)
    have hne : 50 ≠ v.vector.toNat := fun hc => hother (Isr.vector_injective hc.symm)
    exact InterruptController.mem_raise_requested.trans (or_iff_right hne)
  | poll hmain _ => exact h.poll hmain
  | drain hmain _ => exact h.drained ho hmain
  | sti hmain _ => exact h.sti hmain
  | accept _ hnext _ =>
    exact h.congr rfl rfl rfl ⟨rfl, rfl, rfl, rfl⟩ (credit_accept hnext)
  | fault hv => exact h.congr rfl rfl rfl ⟨rfl, rfl, rfl, rfl⟩ (credit_fault hv)
  | act htop _ => exact h.act ho htop
  | iret htop =>
    refine h.congr rfl rfl rfl ⟨rfl, rfl, rfl, rfl⟩ (credit_congr Iff.rfl ?_)
    rw [readsAhead_cons htop, List.countP_nil, Nat.zero_add]
    rfl

theorem Initial.keyboardOrder (h : m.Initial) : m.KeyboardOrder := by
  obtain ⟨hdrained, hhandled, -, hstale, -⟩ := h.history
  have hpoll {p : Progress} (hp : p ≠ .poll) : m.kmain ≠ p := fun hc => hp (hc.symm.trans h.kmain)
  refine ⟨?_, ?_, fun _ => ⟨hstale, hhandled⟩, fun hc => absurd hc (hpoll (by decide)), ?_⟩
  · rw [h.typed, hdrained, hhandled]
    rfl
  · have hcredit := credit_le_of_off h.orderly (hpoll (by decide))
    omega
  · rintro (hc | hc) <;> exact absurd hc (hpoll (by decide))

theorem KeyboardOrder.run (htrap : ∀ v : Isr,
    (idt v.vector.toNat).typeAttributes.getLsbD 0 = decide (v = .isr1)) (h : m.Initial)
    (hrun : MachineRun idt m m') : m'.KeyboardOrder := by
  induction hrun with
  | refl => exact h.keyboardOrder
  | tail hrun hstep ih => exact ih.step (h.orderly.run htrap hrun) hstep

theorem KeyboardOrder.stale_le (h : m.KeyboardOrder) : m.stale ≤ 1 := by
  have hbound := h.bound
  by_cases hmain : m.kmain = .sti ∨ m.kmain = .enabled
  · have hserved := h.served hmain
    omega
  · have hpolling : m.kmain = .poll ∨ m.kmain = .drain := by
      cases hk : m.kmain <;> simp_all
    rw [(h.polling hpolling).1]
    exact Nat.zero_le 1

theorem KeyboardOrder.pending (h : m.KeyboardOrder) (hmain : m.kmain = .enabled)
    (hfull : m.full = true) (hnone : m.readsAhead = 0) : 50 ∈ m.apic.requested := by
  have hserved := h.served (Or.inr hmain)
  by_contra hc
  rw [hfull, credit, if_neg hc, hnone] at hserved
  contradiction

/-- Some handler has the read still to make. -/
theorem Orderly.reader (h : m.Orderly) (hreads : m.readsAhead ≠ 0) :
    ∃ f ∈ m.active, f.isr = .isr50 ∧ .inb 0x60 ∈ f.rest := by
  obtain ⟨n, hn, hpos⟩ := List.exists_mem_ne_zero_of_sum_ne_zero hreads
  obtain ⟨f, hf, rfl⟩ := List.mem_map.mp hn
  obtain ⟨a, ha, hinb⟩ := List.countP_pos_iff.mp (Nat.pos_of_ne_zero hpos)
  cases a with
  | inb p =>
    obtain ⟨hisr, rfl⟩ := actions_inb p ((h.rest f hf).mem ha)
    exact ⟨f, hf, hisr, ha⟩
  | _ => contradiction

/-- No hardware vector is above that of the keyboard. -/
theorem Orderly.accepts_keyboard (h : m.Orderly) (hflag : m.interruptFlag = true)
    (hrequest : 50 ∈ m.apic.requested) : m.apic.Accepts 50 := by
  refine ⟨hrequest, fun w hw => ?_, by simp [(h.unmasked hflag).2.1]⟩
  obtain ⟨v, -, rfl⟩ := h.requested w hw
  cases v <;> decide

end Steps
end Machine

/-- In every state that the kernel reaches, the bytes that the keyboard has sent are those that
`kmain` drained, then those that the handler took, then the one in the buffer, and at most one read
was of an old byte. After `sti` the byte in the buffer has its interrupt pending or a handler about
to read it, and while interrupts are on the processor takes that interrupt next. -/
theorem keyboard_bytes_kept (I : Image) (css : BitVec 16) {m₀ m : Machine} (h : m₀.Initial)
    (hrun : MachineRun (initInterrupts I css) m₀ m) :
    (m.typed = m.drained ++ m.handled ++ if m.full then [m.data] else []) ∧
    m.stale ≤ 1 ∧
    (m.kmain = .enabled → m.full = true → 50 ∈ m.apic.requested ∨
      ∃ f ∈ m.active, f.isr = .isr50 ∧ .inb 0x60 ∈ f.rest) ∧
    (m.interruptFlag = true → m.full = true → m.apic.Accepts 50) := by
  have htrap := initInterrupts_trap I css
  have ho := h.orderly.run htrap hrun
  have hk := Machine.KeyboardOrder.run htrap h hrun
  refine ⟨hk.order, hk.stale_le, fun hmain hfull => ?_, fun hflag hfull => ?_⟩
  · by_cases hreads : m.readsAhead = 0
    · exact Or.inl (hk.pending hmain hfull hreads)
    · exact Or.inr (ho.reader hreads)
  · obtain ⟨hnone, -, hmain⟩ := ho.unmasked hflag
    exact ho.accepts_keyboard hflag (hk.pending hmain hfull (ho.readsAhead_of_none hnone))

/-- A key is pressed after `sti`. -/
theorem keyboard_bytes_kept_key : (twoPendingDrained.keyboard 0x9E).apic.Accepts 50 :=
  (keyboard_bytes_kept linkedAt2000 0x28 twoPending_initial
    ((twoPending_run _).tail (.key 0x9E rfl))).2.2.2 rfl rfl

end LucidiOS.Interrupt
