import Mathlib.Data.List.Basic

/-! The registers and the transmitter of a 16550 UART. Bytes wait in the transmit FIFO, which holds
one byte while it is disabled, and leave on the line in order. -/

structure Uart where
  interruptEnable : BitVec 8
  lineControl : BitVec 8
  modemControl : BitVec 8
  fifoControl : BitVec 8
  divisor : BitVec 16
  waiting : List (BitVec 8)
  line : List (BitVec 8)

namespace Uart

/-- The divisor latch stands in the place of the first two registers. -/
def dlab (u : Uart) : Bool := u.lineControl.getLsbD 7

def capacity (u : Uart) : ℕ := if u.fifoControl.getLsbD 0 then 16 else 1

/-- A byte for which there is no room is lost. -/
def transmit (b : BitVec 8) (u : Uart) : Uart :=
  if u.waiting.length < u.capacity then { u with waiting := u.waiting ++ [b] } else u

def outb (register : ℕ) (b : BitVec 8) (u : Uart) : Uart :=
  match register with
  | 0 => if u.dlab then { u with divisor := u.divisor.extractLsb' 8 8 ++ b } else u.transmit b
  | 1 =>
    if u.dlab then { u with divisor := b ++ u.divisor.extractLsb' 0 8 }
    else { u with interruptEnable := b &&& 0x0F }
  -- the FIFO is cleared on demand, and whenever it is enabled or disabled
  | 2 =>
    { u with
      fifoControl := b
      waiting := if b.getLsbD 0 = u.fifoControl.getLsbD 0 ∧ b &&& 0x05 ≠ 0x05 then u.waiting
        else [] }
  | 3 => { u with lineControl := b }
  | 4 => { u with modemControl := b }
  | _ => u

/-- Bit 5 says that no byte waits. -/
def lineStatus (other : BitVec 8) (u : Uart) : BitVec 8 :=
  if u.waiting = [] then other ||| 0x20 else other &&& 0xDF

/-- The transmitter takes the next byte. -/
def shift (u : Uart) : Uart :=
  match u.waiting with
  | [] => u
  | b :: waiting => { u with waiting, line := u.line ++ [b] }

/-- What has left or will leave on the line. -/
def output (u : Uart) : List (BitVec 8) := u.line ++ u.waiting

/-- The registers are as in `v`. -/
structure SameRegisters (u v : Uart) : Prop where
  interruptEnable : u.interruptEnable = v.interruptEnable
  lineControl : u.lineControl = v.lineControl
  modemControl : u.modemControl = v.modemControl
  fifoControl : u.fifoControl = v.fifoControl
  divisor : u.divisor = v.divisor

section Lemmas
variable {u v w : Uart} {b : BitVec 8}

theorem lineStatus_ne_zero (other : BitVec 8) (u : Uart) :
    u.lineStatus other &&& 0x20 ≠ 0 ↔ u.waiting = [] := by
  unfold lineStatus
  split_ifs with h
  · refine iff_of_true (fun hc => ?_) h
    have hbit := congrArg (·.getLsbD 5) hc
    simp at hbit
  · refine iff_of_false (not_not_intro ?_) h
    rw [BitVec.and_assoc]
    simp

theorem SameRegisters.refl (u : Uart) : u.SameRegisters u := ⟨rfl, rfl, rfl, rfl, rfl⟩

theorem SameRegisters.trans (h : u.SameRegisters v) (h' : v.SameRegisters w) :
    u.SameRegisters w :=
  ⟨h.1.trans h'.1, h.2.trans h'.2, h.3.trans h'.3, h.4.trans h'.4, h.5.trans h'.5⟩

theorem SameRegisters.dlab_eq (h : u.SameRegisters v) : u.dlab = v.dlab := by
  rw [dlab, dlab, h.lineControl]

theorem SameRegisters.capacity_eq (h : u.SameRegisters v) : u.capacity = v.capacity := by
  rw [capacity, capacity, h.fifoControl]

theorem transmit_same (b : BitVec 8) (u : Uart) : (u.transmit b).SameRegisters u := by
  unfold transmit
  split_ifs <;> exact ⟨rfl, rfl, rfl, rfl, rfl⟩

theorem shift_same (u : Uart) : u.shift.SameRegisters u := by
  unfold shift
  split <;> exact ⟨rfl, rfl, rfl, rfl, rfl⟩

theorem outb_data (hdlab : u.dlab = false) (b : BitVec 8) : u.outb 0 b = u.transmit b := by
  rw [outb, hdlab, if_neg Bool.false_ne_true]

theorem transmit_of_lt (h : u.waiting.length < u.capacity) :
    u.transmit b = { u with waiting := u.waiting ++ [b] } := if_pos h

theorem transmit_of_le (h : u.capacity ≤ u.waiting.length) : u.transmit b = u :=
  if_neg (Nat.not_lt.mpr h)

theorem capacity_pos (u : Uart) : 0 < u.capacity := by
  unfold capacity
  split_ifs <;> decide

@[simp] theorem shift_waiting (u : Uart) : u.shift.waiting = u.waiting.tail := by
  unfold shift
  split <;> rename_i h
  · rw [h, List.tail_nil]
  · rw [h, List.tail_cons]

@[simp] theorem shift_output (u : Uart) : u.shift.output = u.output := by
  unfold shift
  split <;> rename_i h
  · rfl
  · simp [output, h]

theorem transmit_output (h : u.waiting.length < u.capacity) :
    (u.transmit b).output = u.output ++ [b] := by
  rw [transmit_of_lt h, output, output, List.append_assoc]

theorem transmit_length (b : BitVec 8) (u : Uart) :
    (u.transmit b).waiting.length ≤ u.waiting.length + 1 := by
  unfold transmit
  split_ifs
  · rw [List.length_append]
    exact Nat.le_refl _
  · exact Nat.le_succ _

end Lemmas
end Uart
