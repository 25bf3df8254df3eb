import LucidiOS.Interrupt.DescriptorTable
import LucidiOS.Memory.Packed

/-! The gates as the processor reads them from memory. -/
namespace LucidiOS.Interrupt
open ByteMemory StackMachine

/-- The packed `idt_entry`. -/
def IdtEntry.bits (e : IdtEntry) : BitVec (8 * 16) :=
  e.reserved0 ++ e.offset3 ++ e.offset2 ++ e.typeAttributes ++ e.ist ++ e.selector ++ e.offset1

/-- The memory with `i_entry` at `base`. -/
def Idt.inMemory (iEntry : Idt) (base : ℕ) (m : Memory) : Memory :=
  place m base (16 * 256) (arrayByte 16 fun v => (iEntry v).bits)

/-- What the processor takes from a gate. -/
structure Gate where
  offset : Word
  selector : BitVec 16
  ist : BitVec 8
  attributes : BitVec 8
  deriving DecidableEq

/-- The gate at `a`: the offset lies in bytes 0, 6 and 8. -/
def gateAt (m : Memory) (a : ℕ) : Gate where
  offset := load32 m (a + 8) ++ load16 m (a + 6) ++ load16 m a
  selector := load16 m (a + 2)
  ist := m (a + 4)
  attributes := m (a + 5)

section Layout
variable {m : Memory} {a base : ℕ} {iEntry : Idt}

/-- The fields of an entry lie where the processor looks for them. -/
theorem gateAt_of_holds {e : IdtEntry} (h : Holds m a 16 e.bits) :
    gateAt m a = ⟨e.handler, e.selector, e.ist, e.typeAttributes⟩ := by
  have h0 : load16 m a = e.bits.extractLsb' 0 16 := h.load16 (i := 0) (by omega)
  rw [gateAt, h0, h.load16 (by omega), h.load16 (by omega), h.load32 (by omega), h 4 (by omega),
    h 5 (by omega)]
  simp (disch := decide) only [byte, IdtEntry.bits, BitVec.extractLsb'_append_eq_of_le,
    BitVec.extractLsb'_append_eq_of_add_le, Nat.reduceMul, Nat.reduceSub, BitVec.extractLsb'_eq_self]
  rfl

theorem gateAt_inMemory {v : ℕ} (hv : v < 256) (m : Memory) :
    gateAt (iEntry.inMemory base m) (base + 16 * v) =
      ⟨(iEntry v).handler, (iEntry v).selector, (iEntry v).ist, (iEntry v).typeAttributes⟩ :=
  gateAt_of_holds (holds_place_array (fun v => (iEntry v).bits) hv)

/-- The gate is read as it was set. -/
theorem setGate_gateAt {n : Word} (hn : n.toNat < 256) (flags : BitVec 8) (isr : Word)
    (ist : BitVec 8) (css : BitVec 16) (m : Memory) :
    gateAt ((setGate n flags isr ist css iEntry).inMemory base m) (base + 16 * n.toNat) =
      ⟨isr, css, ist, flags⟩ := by
  rw [gateAt_inMemory hn, setGate_handler]
  simp only [setGate, Function.update_self]

/-- The memory outside of it is as before. -/
theorem setGate_outside (n : Word) (flags : BitVec 8) (isr : Word) (ist : BitVec 8)
    (css : BitVec 16) (m : Memory) {x : ℕ}
    (hx : x < base + 16 * n.toNat ∨ base + 16 * n.toNat + 16 ≤ x) :
    (setGate n flags isr ist css iEntry).inMemory base m x = iEntry.inMemory base m x := by
  refine place_congr fun i _ hxi => ?_
  have hne : i / 16 ≠ n.toNat := by omega
  rw [arrayByte, setGate_of_ne hne]
  rfl

end Layout
end LucidiOS.Interrupt
