import Mathlib

/-! Devices with memory-mapped registers. -/

/-- How a device with states `δ` answers to accesses of its addresses. A read may change the
device as well. -/
structure Mmio (α β δ : Type*) where
  read : α → δ → β × δ
  write : α → β → δ → δ

namespace Mmio
variable {α β δ : Type*}

/-- Read, change and write back. -/
def modify (D : Mmio α β δ) (a : α) (f : β → β) (d : δ) : δ :=
  let r := D.read a d
  D.write a (f r.1) r.2

/-- The device together with the addresses accessed, the first one first. -/
def logged (D : Mmio α β δ) : Mmio α β (δ × List α) where
  read a d := ((D.read a d.1).1, (D.read a d.1).2, d.2 ++ [a])
  write a v d := (D.write a v d.1, d.2 ++ [a])

/-- Registers that keep what is written to them. -/
def registers [DecidableEq α] : Mmio α β (α → β) where
  read a d := (d a, d)
  write a v d := Function.update d a v

@[simp] theorem logged_write (D : Mmio α β δ) (a : α) (v : β) (d : δ × List α) :
    D.logged.write a v d = (D.write a v d.1, d.2 ++ [a]) := rfl

@[simp] theorem logged_modify (D : Mmio α β δ) (a : α) (f : β → β) (d : δ × List α) :
    D.logged.modify a f d = (D.modify a f d.1, d.2 ++ [a, a]) := by
  simp [modify, logged]

section Registers
variable [DecidableEq α]

@[simp] theorem registers_write (a : α) (v : β) (d : α → β) :
    registers.write a v d = Function.update d a v := rfl

@[simp] theorem registers_modify (a : α) (f : β → β) (d : α → β) :
    registers.modify a f d = Function.update d a (f (d a)) := rfl

@[simp] theorem registers_read (a : α) (d : α → β) : registers.read a d = (d a, d) := rfl

end Registers
end Mmio
