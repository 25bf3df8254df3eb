import LucidiOS.Interrupt.EntryStub
import LucidiOS.Memory.Packed

/-! The interrupt descriptor table: `set_gate` and `init_interrupts`. -/
namespace LucidiOS.Interrupt
open StackMachine ByteMemory

structure IdtEntry where
  offset1 : BitVec 16
  selector : BitVec 16
  ist : BitVec 8
  typeAttributes : BitVec 8
  offset2 : BitVec 16
  offset3 : BitVec 32
  reserved0 : BitVec 32
  deriving DecidableEq

/-- `i_entry`. -/
abbrev Idt := ℕ → IdtEntry

def setGate (n : Word) (flags : BitVec 8) (isrAddress : Word) (ist : BitVec 8) (css : BitVec 16)
    (iEntry : Idt) : Idt :=
  Function.update iEntry n.toNat
    { iEntry n.toNat with
      typeAttributes := flags
      selector := css
      offset1 := (isrAddress &&& 0xFFFF).setWidth 16
      offset2 := ((isrAddress >>> 16) &&& 0xFFFF).setWidth 16
      offset3 := ((isrAddress >>> 32) &&& 0xFFFFFFFF).setWidth 32
      ist := ist }

/-- The calls of `set_gate` in `init_interrupts`: vector, flags and stub. -/
def gates : List (Word × BitVec 8 × Isr) :=
  [(0, 0x8E, .isr0), (1, 0x8F, .isr1), (6, 0x8E, .isr6), (8, 0x8E, .isr8), (13, 0x8E, .isr13),
    (14, 0x8E, .isr14), (32, 0x8E, .isr32), (33, 0x8E, .isr33), (50, 0x8E, .isr50)]

/-- The table is cleared first, so that it does not matter what it holds. -/
def initInterrupts (I : Image) (currentCs : BitVec 16) : Idt :=
  gates.foldl (fun iEntry g => setGate g.1 g.2.1 (I.isr g.2.2) 0 currentCs iEntry)
    fun _ => ⟨0, 0, 0, 0, 0, 0, 0⟩

/-- The P bit of the type attributes. -/
def IdtEntry.present (e : IdtEntry) : Bool := e.typeAttributes.getLsbD 7

/-- The address that the processor takes from a gate. -/
def IdtEntry.handler (e : IdtEntry) : Word := e.offset3 ++ e.offset2 ++ e.offset1

section Gates
variable {iEntry : Idt} {css : BitVec 16} {isr : Isr → Word}

theorem setGate_same (n : Word) (flags : BitVec 8) (a : Word) (ist : BitVec 8) :
    (setGate n flags a ist css iEntry n.toNat).typeAttributes = flags := by
  simp [setGate]

theorem setGate_selector (n : Word) (flags : BitVec 8) (a : Word) (ist : BitVec 8) :
    (setGate n flags a ist css iEntry n.toNat).selector = css := by
  simp [setGate]

theorem setGate_of_ne {n : Word} {v : ℕ} (h : v ≠ n.toNat) (flags : BitVec 8) (a : Word)
    (ist : BitVec 8) : setGate n flags a ist css iEntry v = iEntry v := by
  simp [setGate, h]

/-- The three parts of an offset give the address back. -/
theorem setGate_handler (n : Word) (flags : BitVec 8) (a : Word) (ist : BitVec 8) :
    (setGate n flags a ist css iEntry n.toNat).handler = a := by
  have h1 : (a &&& 0xFFFF).setWidth 16 = a.extractLsb' 0 16 := setWidth_shift_mask a 0 16 rfl
  have h2 : ((a >>> 16) &&& 0xFFFF).setWidth 16 = a.extractLsb' 16 16 :=
    setWidth_shift_mask a 16 16 rfl
  have h3 : ((a >>> 32) &&& 0xFFFFFFFF).setWidth 32 = a.extractLsb' 32 32 :=
    setWidth_shift_mask a 32 32 rfl
  simp only [setGate, Function.update_self, IdtEntry.handler]
  rw [h1, h2, h3, BitVec.extractLsb'_append_extractLsb'_eq_extractLsb' (show 32 = 16 + 16 from rfl),
    BitVec.extractLsb'_append_extractLsb'_eq_extractLsb' (show 16 = 0 + 16 from rfl)]
  exact BitVec.extractLsb'_eq_self

theorem foldl_setGate_of_notMem {gs : List (Word × BitVec 8 × Isr)} {v : ℕ}
    (hv : v ∉ gs.map (·.1.toNat)) (iEntry : Idt) :
    gs.foldl (fun e g => setGate g.1 g.2.1 (isr g.2.2) 0 css e) iEntry v = iEntry v := by
  induction gs generalizing iEntry with
  | nil => rfl
  | cons g gs ih =>
    rw [List.map_cons, List.mem_cons, not_or] at hv
    rw [List.foldl_cons, ih hv.2, setGate_of_ne hv.1]

/-- Each of a list of calls for different vectors sets its gate. -/
theorem foldl_setGate {gs : List (Word × BitVec 8 × Isr)} (hgs : (gs.map (·.1.toNat)).Nodup)
    {n : Word} {flags : BitVec 8} {v : Isr} (hg : (n, flags, v) ∈ gs) (iEntry : Idt) :
    ∃ e : Idt, gs.foldl (fun e g => setGate g.1 g.2.1 (isr g.2.2) 0 css e) iEntry n.toNat =
      setGate n flags (isr v) 0 css e n.toNat := by
  induction gs generalizing iEntry with
  | nil => exact absurd hg List.not_mem_nil
  | cons g gs ih =>
    rw [List.map_cons, List.nodup_cons] at hgs
    rcases List.mem_cons.mp hg with rfl | hg
    · exact ⟨iEntry, foldl_setGate_of_notMem hgs.1 _⟩
    · exact ih hgs.2 hg _

end Gates

/-- The vectors with a gate. -/
def gateVectors : List ℕ := gates.map (·.1.toNat)

theorem gates_nodup : (gates.map (·.1.toNat)).Nodup := by decide

theorem initInterrupts_gate (I : Image) (css : BitVec 16) {n : Word} {flags : BitVec 8} {v : Isr}
    (h : (n, flags, v) ∈ gates) : (initInterrupts I css n.toNat).typeAttributes = flags ∧
      (initInterrupts I css n.toNat).selector = css ∧
      (initInterrupts I css n.toNat).handler = I.isr v := by
  obtain ⟨e, he⟩ := foldl_setGate gates_nodup h _
  rw [initInterrupts, he]
  exact ⟨setGate_same n flags (I.isr v) 0, setGate_selector n flags (I.isr v) 0,
    setGate_handler n flags (I.isr v) 0⟩

theorem initInterrupts_of_notMem (I : Image) (css : BitVec 16) {n : ℕ} (h : n ∉ gateVectors) :
    initInterrupts I css n = ⟨0, 0, 0, 0, 0, 0, 0⟩ :=
  foldl_setGate_of_notMem h _

/-- The gate of each stub leads to it. -/
theorem initInterrupts_handler (I : Image) (css : BitVec 16) (v : Isr) :
    (initInterrupts I css v.vector.toNat).handler = I.isr v := by
  have hg : (v.vector, if v = .isr1 then 0x8F else 0x8E, v) ∈ gates := by cases v <;> decide
  exact (initInterrupts_gate I css hg).2.2

theorem initInterrupts_selector (I : Image) (css : BitVec 16) {n : ℕ} (h : n ∈ gateVectors) :
    (initInterrupts I css n).selector = css := by
  obtain ⟨g, hg, rfl⟩ := List.mem_map.mp h
  exact (initInterrupts_gate I css hg).2.1

theorem initInterrupts_present_iff (I : Image) (css : BitVec 16) (n : ℕ) :
    (initInterrupts I css n).present = true ↔ n ∈ gateVectors := by
  constructor
  · intro h
    by_contra hn
    rw [initInterrupts_of_notMem I css hn] at h
    exact absurd h (by decide)
  · intro h
    obtain ⟨g, hg, rfl⟩ := List.mem_map.mp h
    have hp : ∀ g ∈ gates, g.2.1.getLsbD 7 = true := by decide
    rw [IdtEntry.present, (initInterrupts_gate I css hg).1]
    exact hp g hg

end LucidiOS.Interrupt
