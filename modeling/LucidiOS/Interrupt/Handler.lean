import LucidiOS.Interrupt.DescriptorTable

/-! `isr_handler_C`: what it does for each vector, in order. -/
namespace LucidiOS.Interrupt

inductive Action
  | writeBetter (text : String)
  | inb (port : BitVec 16)
  | kprintf (format : String)
  | readCr2
  | writeEsr
  | readEsr
  | eoi
  | loop
  deriving DecidableEq

/-- The `switch` over the vector of the frame. What it only leaves in `rax` is left out. -/
def isrHandlerC (vector : StackMachine.Word) : List Action :=
  match vector.toNat with
  | 0 => [.writeBetter "\n#DE\n", .loop]
  | 1 => [.writeBetter "\n#DB\n", .loop]
  | 6 => [.writeBetter "\n#UD\n", .loop]
  | 8 => [.writeBetter "\n#DF\n", .loop]
  | 13 => [.writeBetter "\n#GP\n", .loop]
  | 14 => [.writeBetter "\n#PF\n", .readCr2, .loop]
  | 32 => [.writeBetter "\n#APIC error\n", .writeEsr, .readEsr, .eoi]
  | 33 => [.writeBetter "\n#APIC timer\n", .eoi]
  | 50 => [.inb 0x60, .kprintf "%x", .writeBetter "\n#I/O APIC keyboard\n", .eoi]
  | _ => [.writeBetter "\nNo valid interrupt given\n"]

/-- The vectors that controllers raise. The others are exceptions. -/
def Isr.hardware : Isr → Bool
  | .isr32 | .isr33 | .isr50 => true
  | _ => false

/-- What the handler of a stub does. -/
def Isr.actions (v : Isr) : List Action := isrHandlerC v.vector

def Action.isInb : Action → Bool
  | .inb _ => true
  | _ => false

def Action.isKprintf : Action → Bool
  | .kprintf _ => true
  | _ => false

def Action.writesText : Action → Bool
  | .writeBetter _ | .kprintf _ => true
  | _ => false

section Actions
variable {v : Isr}

/-- The handler of a hardware interrupt returns, and ends with its only `EOI`. -/
theorem actions_hardware (h : v.hardware = true) : .loop ∉ v.actions ∧
    v.actions = v.actions.dropLast ++ [.eoi] ∧ .eoi ∉ v.actions.dropLast := by
  cases v <;> first | contradiction | exact ⟨by decide, rfl, by decide⟩

/-- The handler of an exception never returns, and neither ends an interrupt nor reads a port. -/
theorem actions_exception (h : v.hardware = false) : .eoi ∉ v.actions ∧
    (∀ a ∈ v.actions, a.isInb = false) ∧ v.actions = v.actions.dropLast ++ [.loop] := by
  cases v <;> first | contradiction | exact ⟨by decide, by decide, rfl⟩

theorem actions_writesText (v : Isr) : v.actions.any Action.writesText = true := by
  cases v <;> rfl

theorem actions_text {text : String} (h : .writeBetter text ∈ v.actions) : text ≠ "" := by
  rintro rfl
  cases v <;> exact absurd h (by decide)

theorem eoi_last {rest : List Action} (h : v.hardware = true) (hrest : .eoi :: rest <:+ v.actions) :
    rest = [] := by
  obtain ⟨-, heq, hnot⟩ := actions_hardware h
  rcases List.eq_nil_or_concat rest with rfl | ⟨rest, a, rfl⟩
  · rfl
  · rw [heq, List.concat_eq_append, ← List.cons_append] at hrest
    obtain ⟨before, hb⟩ := hrest
    rw [← List.append_assoc] at hb
    have hmem : .eoi ∈ before ++ .eoi :: rest := by simp
    rw [List.append_inj_left' hb rfl] at hmem
    exact absurd hmem hnot

theorem actions_isKprintf (h : v.actions.any Action.isKprintf = true) : v = .isr50 := by
  cases v <;> first | rfl | contradiction

/-- The keyboard's handler prints after its read, and then does neither again. -/
theorem rest_of_inb {p : BitVec 16} {rest : List Action} (h : .inb p :: rest <:+ v.actions) :
    v = .isr50 ∧ rest.any Action.isKprintf = true ∧ rest.any Action.isInb = false := by
  cases v <;> simp [Isr.actions, isrHandlerC, Isr.vector, List.suffix_cons_iff] at h
  obtain ⟨-, rfl⟩ := h
  exact ⟨rfl, by decide, by decide⟩

theorem rest_of_kprintf {format : String} {rest : List Action}
    (h : .kprintf format :: rest <:+ v.actions) :
    v = .isr50 ∧ rest.any Action.isKprintf = false ∧ rest.any Action.isInb = false := by
  cases v <;> simp [Isr.actions, isrHandlerC, Isr.vector, List.suffix_cons_iff] at h
  obtain ⟨-, rfl⟩ := h
  exact ⟨rfl, by decide, by decide⟩

theorem inb_first {p : BitVec 16} {done rest : List Action} (h : v.actions = done ++ .inb p :: rest) :
    done = [] := by
  cases done with
  | nil => rfl
  | cons a done =>
    have hmem : .inb p ∈ v.actions.tail := by simp [h]
    cases v <;> simp [Isr.actions, isrHandlerC, Isr.vector] at hmem

/-- Only the keyboard's handler reads a port: that of the keyboard, first of all and once. -/
theorem actions_inb (p : BitVec 16) (h : .inb p ∈ v.actions) :
    v = .isr50 ∧ p = 0x60 := by
  cases v <;> simp_all [Isr.actions, isrHandlerC, Isr.vector]

/-- An interrupt gate clears the interrupt flag, a trap gate leaves it. -/
theorem initInterrupts_trap (I : Image) (css : BitVec 16) (v : Isr) :
    (initInterrupts I css v.vector.toNat).typeAttributes.getLsbD 0 = decide (v = .isr1) := by
  have hg : (v.vector, if v = .isr1 then 0x8F else 0x8E, v) ∈ gates := by cases v <;> decide
  rw [(initInterrupts_gate I css hg).1]
  cases v <;> decide

theorem initInterrupts_present (I : Image) (css : BitVec 16) (v : Isr) :
    (initInterrupts I css v.vector.toNat).present = true :=
  (initInterrupts_present_iff I css _).mpr (by cases v <;> decide)

end Actions
end LucidiOS.Interrupt
