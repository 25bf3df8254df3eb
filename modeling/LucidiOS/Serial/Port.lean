import LucidiOS.Control.Loop
import LucidiOS.Text.CString

/-! Output to the serial port, of `common.c`. -/
namespace LucidiOS

/-- What was sent, and how often the line status register was read. -/
structure Port where
  sent : List (BitVec 8)
  polls : ℕ

/-- What the code does not determine: the line status, in which the transmitter becomes empty after
some time, and what `print_int_serial` finds in its buffer. -/
structure Platform where
  lineStatus : Port → BitVec 8
  empties : ∀ p : Port, ∃ n, lineStatus { p with polls := p.polls + n } &&& 0x20 ≠ 0
  stack : Port → ℕ → BitVec 8

namespace Platform
variable (m : Platform)

def isTransmitEmpty (p : Port) : BitVec 8 × Port :=
  (m.lineStatus p &&& 0x20, { p with polls := p.polls + 1 })

def waitTurn (p : Port) : Port ⊕ Port :=
  if (m.isTransmitEmpty p).1 = 0 then .inl (m.isTransmitEmpty p).2
  else .inr (m.isTransmitEmpty p).2

/-- A turn only reads the line status. -/
theorem waitTurn_cases (p : Port) :
    (m.waitTurn p = .inl { p with polls := p.polls + 1 } ∧ m.lineStatus p &&& 0x20 = 0) ∨
      (m.waitTurn p = .inr { p with polls := p.polls + 1 } ∧ m.lineStatus p &&& 0x20 ≠ 0) := by
  unfold waitTurn isTransmitEmpty
  split_ifs with hempty
  · exact .inl ⟨rfl, hempty⟩
  · exact .inr ⟨rfl, hempty⟩

theorem wait_terminates (p : Port) : Loop.Terminates m.waitTurn p := by
  obtain ⟨n, hn⟩ := m.empties p
  induction n generalizing p with
  | zero =>
    obtain ⟨-, hempty⟩ | ⟨hturn, -⟩ := m.waitTurn_cases p
    · exact absurd hempty hn
    · exact ⟨1, _, Loop.run_succ_inr hturn⟩
  | succ n ih =>
    obtain ⟨hturn, -⟩ | ⟨hturn, -⟩ := m.waitTurn_cases p
    · rw [← Nat.add_assoc, Nat.add_right_comm] at hn
      obtain ⟨k, r, hk⟩ := ih { p with polls := p.polls + 1 } hn
      exact ⟨k + 1, r, (Loop.run_succ_inl hturn).trans hk⟩
    · exact ⟨1, _, Loop.run_succ_inr hturn⟩

def writeSerial (a : BitVec 8) (p : Port) : Port :=
  let p := Loop.result (m.wait_terminates p)
  { p with sent := p.sent ++ [a] }

@[simp] theorem writeSerial_sent (a : BitVec 8) (p : Port) :
    (m.writeSerial a p).sent = p.sent ++ [a] := by
  have hwait : (Loop.result (m.wait_terminates p)).sent = p.sent := by
    apply Loop.result_inv (m.wait_terminates p) (P := fun q => q.sent = p.sent)
      (Q := fun q => q.sent = p.sent) rfl
    · intro q q' hsent hturn
      obtain ⟨heq, -⟩ | ⟨heq, -⟩ := m.waitTurn_cases q <;> rw [heq] at hturn <;> cases hturn
      exact hsent
    · intro q r hsent hturn
      obtain ⟨heq, -⟩ | ⟨heq, -⟩ := m.waitTurn_cases q <;> rw [heq] at hturn <;> cases hturn
      exact hsent
  exact congrArg (· ++ [a]) hwait

def writeBetterTurn (a : CString) (s : ℕ × Port) : (ℕ × Port) ⊕ Port :=
  if a.byte s.1 ≠ 0 then .inl (s.1 + 1, m.writeSerial (a.byte s.1) s.2) else .inr s.2

section WriteBetter
variable {m} {a : CString} {p : Port} {s s' : ℕ × Port}

/-- What was sent and what is still to be sent make up the string. -/
def WritingBetter (a : CString) (p : Port) (s : ℕ × Port) : Prop :=
  ∃ text, a.Rest s.1 text ∧ s.2.sent ++ text = p.sent ++ a.text

theorem WritingBetter.turn (h : WritingBetter a p s) (hturn : m.writeBetterTurn a s = .inl s') :
    WritingBetter a p s' ∧ s'.1 = s.1 + 1 ∧ s'.1 ≤ a.text.length := by
  obtain ⟨text, hrest, hsent⟩ := h
  unfold writeBetterTurn at hturn
  split_ifs at hturn with hbyte
  cases hturn
  cases text with
  | nil => exact absurd hrest.byte_eq hbyte
  | cons b text =>
    refine ⟨⟨text, hrest.tail, ?_⟩, rfl, hrest.tail.le⟩
    rw [writeSerial_sent, hrest.byte_eq, ← hsent]
    simp

theorem WritingBetter.of_visits (h : Loop.Visits (m.writeBetterTurn a) (0, p) s) :
    WritingBetter a p s :=
  h.inv ⟨a.text, CString.rest_zero, rfl⟩ fun _ _ hw hturn => (hw.turn hturn).1

theorem writeBetter_terminates (m : Platform) (a : CString) (p : Port) :
    Loop.Terminates (m.writeBetterTurn a) (0, p) := by
  refine Loop.terminates_of_rank (fun s => a.text.length - s.1) fun s hs s' hturn => ?_
  obtain ⟨-, hnext, hle⟩ := (WritingBetter.of_visits hs).turn hturn
  omega

end WriteBetter

def writeBetter (a : CString) (p : Port) : Port := Loop.result (writeBetter_terminates m a p)

/-- `write_better` sends the string. -/
@[simp] theorem writeBetter_sent (a : CString) (p : Port) :
    (m.writeBetter a p).sent = p.sent ++ a.text := by
  apply Loop.result_inv (writeBetter_terminates m a p) (P := WritingBetter a p)
    (Q := fun q => q.sent = p.sent ++ a.text) ⟨a.text, CString.rest_zero, rfl⟩
  · exact fun _ _ hw hturn => (hw.turn hturn).1
  · rintro s q ⟨text, hrest, hsent⟩ hturn
    unfold writeBetterTurn at hturn
    split_ifs at hturn with hbyte
    cases hturn
    cases text with
    | nil => rw [← hsent, List.append_nil]
    | cons b text =>
      rw [hrest.byte_eq] at hbyte
      exact absurd hrest.head_ne hbyte

/-- A transmitter that is always empty. -/
def ready : Platform where
  lineStatus _ := 0x60
  empties _ := ⟨0, by decide⟩
  stack _ _ := 0

end Platform
end LucidiOS
