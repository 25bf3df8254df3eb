import LucidiOS.Interrupt.KeyboardBytes

/-! The way of a byte from the keyboard to the serial port. -/
namespace LucidiOS.Interrupt

/-- The handler has read a byte and not printed it yet. -/
def Activation.owesPrint (f : Activation) : Bool :=
  f.rest.any Action.isKprintf && !f.rest.any Action.isInb

namespace Machine

def unprinted (m : Machine) : List (BitVec 8) :=
  (m.active.filter Activation.owesPrint).map fun _ => m.scancode

/-- What was read is printed in order, and the bytes that were not read before are among it. -/
structure PrintOrder (m : Machine) : Prop where
  printed : m.reads = m.printed ++ m.unprinted
  handled : m.handled.Sublist m.reads
  length : m.reads.length = m.handled.length + m.stale

section Steps
variable {idt : Idt} {m m' : Machine} {v : Isr} {a : Action} {rest : List Action} {saved : Bool}
  {active : List Activation}

theorem unprinted_cons (f : Activation) (htop : m.active = f :: active) : m.unprinted =
    (if f.owesPrint then [m.scancode] else []) ++
      (active.filter Activation.owesPrint).map fun _ => m.scancode := by
  rw [unprinted, htop, List.filter_cons]
  split_ifs <;> rfl

theorem start_not_owes (v : Isr) (saved : Bool) :
    (⟨v, v.actions, saved⟩ : Activation).owesPrint = false := by
  cases v <;> rfl

/-- Only the handlers of hardware interrupts print a scancode. -/
theorem Orderly.hardware_of_owes (h : m.Orderly) {f : Activation} (hf : f ∈ m.active)
    (howes : f.owesPrint = true) : f.isr.hardware = true := by
  obtain ⟨a, ha, hprint⟩ := List.any_eq_true.mp (Bool.and_eq_true_iff.mp howes).1
  rw [actions_isKprintf (List.any_eq_true.mpr ⟨a, (h.rest f hf).mem ha, hprint⟩)]
  rfl

theorem Orderly.below_not_owes (h : m.Orderly) (htop : m.active = ⟨v, rest, saved⟩ :: active)
    (hv : v.hardware = true) : active.filter Activation.owesPrint = [] := by
  refine List.filter_eq_nil_iff.mpr fun g hg howes => ?_
  have hg' := h.below_hardware htop hv g hg
  rw [h.hardware_of_owes (htop ▸ List.mem_cons_of_mem _ hg) howes] at hg'
  contradiction

theorem PrintOrder.congr (h : m.PrintOrder) (hprinted : m'.printed = m.printed)
    (hunprinted : m'.unprinted = m.unprinted)
    (hreads : m'.reads = m.reads ∧ m'.handled = m.handled ∧ m'.stale = m.stale) :
    m'.PrintOrder := by
  obtain ⟨hreads, hhandled, hstale⟩ := hreads
  refine ⟨?_, ?_, ?_⟩
  · rw [hreads, hprinted, hunprinted]
    exact h.printed
  · rw [hreads, hhandled]
    exact h.handled
  · rw [hreads, hhandled, hstale]
    exact h.length

theorem PrintOrder.read {p : BitVec 16} (h : m.PrintOrder) (ho : m.Orderly)
    (htop : m.active = ⟨v, .inb p :: rest, saved⟩ :: active) :
    ({ m with active := ⟨v, rest, saved⟩ :: active } : Machine).readData.PrintOrder := by
  obtain ⟨rfl, hprint, hinb⟩ := rest_of_inb (ho.rest _ (htop ▸ List.mem_cons_self))
  have hbelow := ho.below_not_owes htop rfl
  have hbefore : m.unprinted = [] := by
    rw [unprinted_cons _ htop, hbelow, if_neg (by simp [Activation.owesPrint, Action.isInb])]
    rfl
  have hread : m.reads = m.printed := by
    rw [h.printed, hbefore, List.append_nil]
  have howes : (⟨.isr50, rest, saved⟩ : Activation).owesPrint = true := by
    rw [Activation.owesPrint, hprint, hinb]
    rfl
  have hlength := h.length
  unfold readData
  cases hfull : m.full with
  | true =>
    rw [if_pos rfl]
    refine ⟨?_, h.handled.append (List.Sublist.refl [m.data]), ?_⟩
    · rw [unprinted_cons _ rfl, hbelow, if_pos howes, List.map_nil, List.append_nil]
      exact congrArg (· ++ [m.data]) hread
    · simp only [List.length_append, hlength]
      omega
  | false =>
    rw [if_neg Bool.false_ne_true]
    refine ⟨?_, h.handled.trans (List.sublist_append_left _ _), ?_⟩
    · rw [unprinted_cons _ rfl, hbelow, if_pos howes, List.map_nil, List.append_nil]
      exact congrArg (· ++ [m.data]) hread
    · simp only [List.length_append, hlength]
      exact Nat.add_assoc _ _ _

theorem PrintOrder.print {format : String} (h : m.PrintOrder) (ho : m.Orderly)
    (htop : m.active = ⟨v, .kprintf format :: rest, saved⟩ :: active) :
    (({ m with active := ⟨v, rest, saved⟩ :: active } : Machine).perform
      (.kprintf format)).PrintOrder := by
  obtain ⟨rfl, hprint, hinb⟩ := rest_of_kprintf (ho.rest _ (htop ▸ List.mem_cons_self))
  have hbelow := ho.below_not_owes htop rfl
  have howes : (⟨.isr50, .kprintf format :: rest, saved⟩ : Activation).owesPrint = true := by
    rw [Activation.owesPrint, List.any_cons, List.any_cons, hinb]
    rfl
  have hread := h.printed
  rw [unprinted_cons _ htop, hbelow, if_pos howes, List.map_nil, List.append_nil] at hread
  refine ⟨?_, h.handled, h.length⟩
  rw [unprinted_cons _ rfl, hbelow, if_neg (by simp [Activation.owesPrint, hprint])]
  exact hread.trans (List.append_nil _).symm

theorem PrintOrder.act (h : m.PrintOrder) (ho : m.Orderly)
    (htop : m.active = ⟨v, a :: rest, saved⟩ :: active) :
    (({ m with active := ⟨v, rest, saved⟩ :: active } : Machine).perform a).PrintOrder := by
  have hother (hinb : a.isInb = false) (hprint : a.isKprintf = false) :
      ({ m with active := ⟨v, rest, saved⟩ :: active } : Machine).unprinted = m.unprinted := by
    have howes : (⟨v, a :: rest, saved⟩ : Activation).owesPrint =
        (⟨v, rest, saved⟩ : Activation).owesPrint := by
      rw [Activation.owesPrint, Activation.owesPrint, List.any_cons, List.any_cons, hinb, hprint,
        Bool.false_or, Bool.false_or]
    rw [unprinted_cons _ htop, unprinted_cons _ rfl, howes]
  cases a with
  | inb p => exact h.read ho htop
  | kprintf format => exact h.print ho htop
  | _ => exact h.congr rfl (hother rfl rfl) ⟨rfl, rfl, rfl⟩

theorem PrintOrder.step (h : m.PrintOrder) (ho : m.Orderly) (hstep : MachineStep idt m m') :
    m'.PrintOrder := by
  cases hstep with
  | key | raise | poll | drain | sti => exact h.congr rfl rfl ⟨rfl, rfl, rfl⟩
  | @accept v _ _ _ | @fault v _ =>
    refine h.congr rfl ?_ ⟨rfl, rfl, rfl⟩
    rw [unprinted_cons ⟨v, v.actions, m.interruptFlag⟩ rfl, start_not_owes]
    rfl
  | act htop _ => exact h.act ho htop
  | iret htop =>
    refine h.congr rfl ?_ ⟨rfl, rfl, rfl⟩
    rw [unprinted_cons _ htop]
    rfl

theorem Initial.printOrder (h : m.Initial) : m.PrintOrder := by
  obtain ⟨-, hhandled, hreads, hstale, hprinted⟩ := h.history
  refine ⟨?_, ?_, ?_⟩
  · rw [hreads, hprinted, unprinted, h.active]
    rfl
  · rw [hhandled]
    exact List.nil_sublist _
  · rw [hreads, hhandled, hstale]
    rfl

theorem PrintOrder.run (htrap : ∀ v : Isr,
    (idt v.vector.toNat).typeAttributes.getLsbD 0 = decide (v = .isr1)) (h : m.Initial)
    (hrun : MachineRun idt m m') : m'.PrintOrder := by
  induction hrun with
  | refl => exact h.printOrder
  | tail hrun hstep ih => exact ih.step (h.orderly.run htrap hrun) hstep

end Steps
end Machine

/-- In every state that the kernel reaches, the handler has printed what it read, in order and but
for the last byte that it may still have to print. So, when no handler is running and no byte waits,
the bytes that the keyboard sent behind the drained ones were printed in order, with at most one old
byte among them. -/
theorem scancodes_printed (I : Image) (css : BitVec 16) {m₀ m : Machine} (h : m₀.Initial)
    (hrun : MachineRun (initInterrupts I css) m₀ m) :
    m.reads = m.printed ++ m.unprinted ∧ m.handled.Sublist m.reads ∧
    m.reads.length = m.handled.length + m.stale ∧ m.stale ≤ 1 ∧
    (m.active = [] → m.full = false →
      (m.typed.drop m.drained.length).Sublist m.printed ∧
        m.printed.length ≤ m.typed.length - m.drained.length + 1) := by
  have htrap := initInterrupts_trap I css
  have hkeys := Machine.KeyboardOrder.run htrap h hrun
  have hprint := Machine.PrintOrder.run htrap h hrun
  have hstale := hkeys.stale_le
  refine ⟨hprint.printed, hprint.handled, hprint.length, hstale, fun hidle hempty => ?_⟩
  have hprinted := hprint.printed
  have htyped := hkeys.order
  have hlength := hprint.length
  rw [Machine.unprinted, hidle, List.filter_nil, List.map_nil, List.append_nil] at hprinted
  rw [hempty, if_neg Bool.false_ne_true, List.append_nil] at htyped
  rw [← hprinted, htyped, List.drop_left, List.length_append, Nat.add_sub_cancel_left]
  exact ⟨hprint.handled, by omega⟩

/-- A key is pressed, and its interrupt is handled. -/
theorem scancodes_printed_key : ∃ m,
    MachineRun (initInterrupts linkedAt2000 0x28) twoPending m ∧ m.typed = [0x1E, 0x9E] ∧
      [(0x9E : BitVec 8)].Sublist m.printed := by
  let pressed := twoPendingDrained.keyboard 0x9E
  let entered : Machine := ({ pressed with apic := pressed.apic.accept 50 } : Machine).enter
    (initInterrupts linkedAt2000 0x28) .isr50
  have hpressed : MachineRun (initInterrupts linkedAt2000 0x28) twoPending pressed :=
    (twoPending_run _).tail (.key 0x9E rfl)
  have haccepts : pressed.apic.Accepts Isr.isr50.vector.toNat :=
    ⟨by decide, by decide, by decide⟩
  have hentered : MachineRun (initInterrupts linkedAt2000 0x28) twoPending entered :=
    hpressed.tail (.accept rfl haccepts (initInterrupts_present linkedAt2000 0x28 .isr50))
  have hread := hentered.tail (.act rfl (by decide))
  have hprint := hread.tail (.act rfl (by decide))
  have hwrite := hprint.tail (.act rfl (by decide))
  have hend := hwrite.tail (.act rfl (by decide))
  have hreturn := hend.tail (.iret rfl)
  exact ⟨_, hreturn, rfl,
    ((scancodes_printed linkedAt2000 0x28 twoPending_initial hreturn).2.2.2.2 rfl rfl).1⟩

end LucidiOS.Interrupt
