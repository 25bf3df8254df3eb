import LucidiOS.Device.Uart
import Mathlib.Logic.Relation

/-! Writes to the serial port as the UART sees them, and `init_serial`. -/
namespace LucidiOS

/-- A call that writes a text to the serial port: the bytes to come, and whether the transmitter
was seen empty for the first of them. -/
structure SerialCall where
  text : List (BitVec 8)
  ready : Bool

namespace SerialCall

def idle : SerialCall := ⟨[], false⟩

/-- One turn of the wait in `write_serial`, or its `outb`. The list holds the byte stored. -/
inductive Step : Uart × SerialCall → List (BitVec 8) → Uart × SerialCall → Prop
  | poll (u : Uart) (b : BitVec 8) (text : List (BitVec 8)) (other : BitVec 8) :
      Step (u, ⟨b :: text, false⟩) []
        (u, ⟨b :: text, u.lineStatus other &&& 0x20 ≠ 0⟩)
  | store (u : Uart) (b : BitVec 8) (text : List (BitVec 8)) :
      Step (u, ⟨b :: text, true⟩) [b] (u.outb 0 b, ⟨text, false⟩)

/-- The call goes on, or the transmitter does. -/
inductive Send : Uart × SerialCall → Uart × SerialCall → Prop
  | step {s s' : Uart × SerialCall} {out : List (BitVec 8)} (h : Step s out s') : Send s s'
  | shift (u : Uart) (c : SerialCall) : Send (u, c) (u.shift, c)

abbrev Sends : Uart × SerialCall → Uart × SerialCall → Prop := Relation.ReflTransGen Send

section Sending
variable {u u' : Uart} {c c' : SerialCall} {out : List (BitVec 8)} {b : BitVec 8}
  {text : List (BitVec 8)}

theorem Step.same (hdlab : u.dlab = false) (h : Step (u, c) out (u', c')) :
    u'.SameRegisters u := by
  cases h with
  | poll => exact Uart.SameRegisters.refl u
  | store _ b _ =>
    rw [Uart.outb_data hdlab]
    exact Uart.transmit_same b u

/-- Nothing waits when an uninterrupted call stores. -/
structure Writing (u₀ : Uart) (text : List (BitVec 8)) (s : Uart × SerialCall) : Prop where
  same : s.1.SameRegisters u₀
  output : s.1.output ++ s.2.text = u₀.output ++ text
  length : s.1.waiting.length ≤ 1
  ready : s.2.ready = true → s.1.waiting = []

theorem Writing.step {u₀ : Uart} {s s' : Uart × SerialCall} (hdlab : u₀.dlab = false)
    (h : Writing u₀ text s) (hstep : Send s s') : Writing u₀ text s' := by
  cases hstep with
  | shift u c =>
    have htail : u.waiting.tail.length ≤ u.waiting.length := by
      rw [List.length_tail]
      exact Nat.sub_le _ _
    refine ⟨(Uart.shift_same u).trans h.same, ?_, ?_, fun hready => ?_⟩
    · rw [Uart.shift_output]
      exact h.output
    · rw [Uart.shift_waiting]
      exact Nat.le_trans htail h.length
    · rw [Uart.shift_waiting, h.ready hready, List.tail_nil]
  | step hstep =>
    cases hstep with
    | poll u b text other =>
      refine ⟨h.same, h.output, h.length, fun hready => ?_⟩
      exact (Uart.lineStatus_ne_zero other u).mp (of_decide_eq_true hready)
    | store u b text =>
      have hempty := h.ready rfl
      have hroom : u.waiting.length < u.capacity := by
        rw [hempty]
        exact u.capacity_pos
      have hout := h.output
      rw [Uart.outb_data (h.same.dlab_eq.trans hdlab)]
      refine ⟨(Uart.transmit_same b u).trans h.same, ?_, ?_, fun hready => by contradiction⟩
      · rw [Uart.transmit_output hroom, List.append_assoc]
        exact hout
      · rw [Uart.transmit_of_lt hroom, hempty]
        exact Nat.le_refl 1

/-- The transmitter becomes empty. -/
theorem exists_empty (u : Uart) (c : SerialCall) :
    ∃ v, Sends (u, c) (v, c) ∧ v.SameRegisters u ∧ v.waiting = [] := by
  generalize hlen : u.waiting.length = n
  induction n generalizing u with
  | zero => exact ⟨u, .refl, .refl u, List.length_eq_zero_iff.mp hlen⟩
  | succ n ih =>
    obtain ⟨v, hrun, hsame, hempty⟩ := ih u.shift (by simp [hlen])
    exact ⟨v, .head (.shift u c) hrun, hsame.trans (Uart.shift_same u), hempty⟩

/-- The wait of a call that is not interrupted ends. -/
theorem exists_ready (u : Uart) (b : BitVec 8) (text : List (BitVec 8)) (ready : Bool) :
    ∃ v, Sends (u, ⟨b :: text, ready⟩) (v, ⟨b :: text, true⟩) ∧ v.SameRegisters u ∧
      v.waiting = [] := by
  obtain ⟨v, hv, hsame, hempty⟩ := exists_empty u ⟨b :: text, ready⟩
  cases ready with
  | true => exact ⟨v, hv, hsame, hempty⟩
  | false =>
    have hpoll := Send.step (Step.poll v b text 0)
    rw [decide_eq_true ((Uart.lineStatus_ne_zero 0 v).mpr hempty)] at hpoll
    exact ⟨v, hv.tail hpoll, hsame, hempty⟩

/-- A call that is not interrupted returns, with its last byte just stored. -/
theorem exists_finish (hdlab : u.dlab = false) (b : BitVec 8) (text : List (BitVec 8))
    (ready : Bool) : ∃ v, Sends (u, ⟨b :: text, ready⟩) (v, idle) ∧ v.SameRegisters u ∧
      v.waiting ≠ [] := by
  induction text generalizing u b ready with
  | nil =>
    obtain ⟨v, hv, hsame, hempty⟩ := exists_ready u b [] ready
    have hvdlab := hsame.dlab_eq.trans hdlab
    have hstore := Step.store v b []
    refine ⟨v.outb 0 b, hv.tail (.step hstore), (hstore.same hvdlab).trans hsame, ?_⟩
    rw [Uart.outb_data hvdlab, Uart.transmit_of_lt (hempty ▸ v.capacity_pos)]
    exact List.append_ne_nil_of_right_ne_nil _ (List.cons_ne_nil b [])
  | cons b' text ih =>
    obtain ⟨v, hv, hsame, hempty⟩ := exists_ready u b (b' :: text) ready
    have hvdlab := hsame.dlab_eq.trans hdlab
    have hstore := Step.store v b (b' :: text)
    have hstored := hstore.same hvdlab
    obtain ⟨w, hw, hwsame, hlast⟩ := ih (hstored.dlab_eq.trans hvdlab) b' false
    exact ⟨w, (hv.tail (.step hstore)).trans hw, hwsame.trans (hstored.trans hsame), hlast⟩

end Sending
end SerialCall

/-- The registers that `init_serial` writes, from `COM1` on. -/
def serialSetup : List (ℕ × BitVec 8) :=
  [(1, 0x00), (3, 0x80), (0, 0x0C), (1, 0x00), (3, 0x03), (2, 0xC7), (4, 0x0B)]

def setUpSerial (u : Uart) : Uart := serialSetup.foldl (fun u w => u.outb w.1 w.2) u

/-- The message of `init_serial`. -/
def daisy : List (BitVec 8) :=
  "\n\nDaisy, Daisy, give me your answer do.\n\n".toList.map fun c => BitVec.ofNat 8 c.toNat

/-- The registers are written, and the message is to be sent. -/
def initSerial (u : Uart) : Uart × SerialCall := (setUpSerial u, ⟨daisy, false⟩)

section Setup

theorem latch_twelve (d : BitVec 16) :
    (0x00#8 ++ (d.extractLsb' 8 8 ++ 0x0C#8).extractLsb' 0 8 : BitVec 16) = 12#16 := by
  rw [BitVec.extractLsb'_append_eq_right]
  rfl

/-- The divisor latch is in place from the second write on. -/
theorem serialSetup_tail (u : Uart) :
    serialSetup.tail.foldl (fun u w => u.outb w.1 w.2) u =
      { u with
        lineControl := 0x03
        modemControl := 0x0B
        fifoControl := 0xC7
        divisor := 12
        waiting := [] } := by
  simp [serialSetup, Uart.outb, Uart.dlab, latch_twelve]

/-- Only the first write depends on what the UART was set to. -/
theorem setUpSerial_eq (u : Uart) : setUpSerial u =
    { interruptEnable := if u.dlab then u.interruptEnable else 0
      lineControl := 0x03
      modemControl := 0x0B
      fifoControl := 0xC7
      divisor := 12
      waiting := []
      line := u.line } := by
  have htail : setUpSerial u = serialSetup.tail.foldl (fun u w => u.outb w.1 w.2) (u.outb 1 0) :=
    rfl
  rw [htail, serialSetup_tail, Uart.outb]
  split_ifs <;> rfl

theorem setUpSerial_dlab (u : Uart) : (setUpSerial u).dlab = false := by
  have hbit : (0x03 : BitVec 8).getLsbD 7 = false := by decide
  rw [setUpSerial_eq]
  exact hbit

theorem setUpSerial_capacity (u : Uart) : (setUpSerial u).capacity = 16 := by
  have hbit : (0xC7 : BitVec 8).getLsbD 0 = true := by decide
  rw [setUpSerial_eq]
  exact if_pos hbit

theorem setUpSerial_interruptEnable (u : Uart) :
    (setUpSerial u).interruptEnable = 0 ↔ u.dlab = false ∨ u.interruptEnable = 0 := by
  rw [setUpSerial_eq]
  cases u.dlab <;> simp

theorem initSerial_writing (u : Uart) : SerialCall.Writing (setUpSerial u) daisy (initSerial u) := by
  refine ⟨Uart.SameRegisters.refl _, rfl, ?_, fun hc => by contradiction⟩
  rw [initSerial, setUpSerial_eq]
  exact Nat.zero_le 1

end Setup

/-- Whatever the UART was set to and whenever it transmits, during `init_serial` it runs at 9600
baud with 8 data bits and an enabled FIFO, the message goes out behind what had left before, and
`init_serial` can return. The interrupts of the UART are off unless the divisor latch was in place
and they were on. -/
theorem initSerial_sends (u : Uart) {s : Uart × SerialCall} (hrun : SerialCall.Sends (initSerial u) s) :
    (s.1.divisor = 12 ∧ s.1.lineControl = 0x03 ∧ s.1.modemControl = 0x0B ∧ s.1.capacity = 16) ∧
    (s.1.interruptEnable = 0 ↔ u.dlab = false ∨ u.interruptEnable = 0) ∧
    s.1.output ++ s.2.text = u.line ++ daisy ∧ s.1.waiting.length ≤ 1 ∧
    ∃ v ready, SerialCall.Sends s (v, ⟨[], ready⟩) := by
  have hw : SerialCall.Writing (setUpSerial u) daisy s := by
    induction hrun with
    | refl => exact initSerial_writing u
    | tail _ hstep ih => exact ih.step (setUpSerial_dlab u) hstep
  have hfinish : ∃ v ready, SerialCall.Sends s (v, ⟨[], ready⟩) := by
    obtain ⟨v, text, ready⟩ := s
    cases text with
    | nil => exact ⟨v, ready, .refl⟩
    | cons b text =>
      obtain ⟨w, hw', -⟩ := SerialCall.exists_finish (hw.same.dlab_eq.trans (setUpSerial_dlab u))
        b text ready
      exact ⟨w, false, hw'⟩
  have houtput : (setUpSerial u).output = u.line := by
    rw [setUpSerial_eq, Uart.output, List.append_nil]
  refine ⟨⟨?_, ?_, ?_, ?_⟩, ?_, houtput ▸ hw.output, hw.length, hfinish⟩
  · rw [hw.same.divisor, setUpSerial_eq]
  · rw [hw.same.lineControl, setUpSerial_eq]
  · rw [hw.same.modemControl, setUpSerial_eq]
  · rw [hw.same.capacity_eq, setUpSerial_capacity]
  · rw [hw.same.interruptEnable]
    exact setUpSerial_interruptEnable u

/-- Firmware left the divisor latch in place, an interrupt on and a byte unsent. -/
def latchedUart : Uart := ⟨0x01, 0x83, 0, 0, 1, [0x41], []⟩

/-- The message leaves on the line, and the interrupt stays on. -/
theorem initSerial_sends_latched : ∃ v ready,
    SerialCall.Sends (initSerial latchedUart) (v, ⟨[], ready⟩) ∧ v.line = daisy ∧
      v.interruptEnable ≠ 0 := by
  obtain ⟨-, -, -, -, v, ready, hreturn⟩ := initSerial_sends latchedUart .refl
  obtain ⟨w, hempties, -, hempty⟩ := SerialCall.exists_empty v ⟨[], ready⟩
  have hrun := hreturn.trans hempties
  obtain ⟨-, hinterrupts, hout, -⟩ := initSerial_sends latchedUart hrun
  refine ⟨w, ready, hrun, ?_, ?_⟩
  · have hline : latchedUart.line = [] := rfl
    rw [Uart.output, hempty, hline, List.append_nil, List.append_nil, List.nil_append] at hout
    exact hout
  · exact hinterrupts.not.mpr (by decide)

end LucidiOS
