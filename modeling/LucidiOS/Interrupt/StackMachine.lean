import LucidiOS.Memory.ByteMemory

/-! A fragment of x86-64: straight-line code that saves registers on a stack and restores them,
and the delivery of an interrupt. -/
namespace StackMachine
open ByteMemory

abbrev Word := BitVec 64

inductive Reg
  | rax | rbx | rcx | rdx | rsi | rdi | rbp | rsp
  | r8 | r9 | r10 | r11 | r12 | r13 | r14 | r15
  deriving DecidableEq

/-- The instruction pointer is kept up to date at the ends of blocks only. -/
structure Cpu where
  regs : Reg → Word
  rip : Word
  cs : BitVec 16
  ss : BitVec 16
  rflags : Word
  mem : Memory

/-- `lea` has the address of its label, `call` the addresses of its target and of the instruction
after it. -/
inductive Instr
  | push (r : Reg)
  | pushImm (v : Word)
  | pop (r : Reg)
  | mov (d r : Reg)
  | lea (d : Reg) (a : Word)
  | addImm (d : Reg) (v : Word)
  | jmp (r : Reg)
  | call (f ret : Word)
  | iretq

namespace Cpu

def setReg (s : Cpu) (r : Reg) (w : Word) : Cpu :=
  { s with regs := Function.update s.regs r w }

/-- The `k`th word from the top of the stack. -/
def stackWord (s : Cpu) (k : ℕ) : Word :=
  load64 s.mem (s.regs .rsp + BitVec.ofNat 64 (8 * k)).toNat

def push (s : Cpu) (w : Word) : Cpu :=
  { s.setReg .rsp (s.regs .rsp - 8) with mem := store64 s.mem (s.regs .rsp - 8).toNat w }

end Cpu

/-- The status flags of `a + b`: carry, parity, adjust, zero, sign and overflow. -/
def addFlags (a b : Word) : Word :=
  let r := a + b
  let flag (c : Bool) (i : ℕ) : Word := if c then 1 <<< i else 0
  flag (decide (r.toNat < a.toNat)) 0 |||
    flag (decide (((List.range 8).filter r.getLsbD).length % 2 = 0)) 2 |||
    flag ((a ^^^ b ^^^ r).getLsbD 4) 4 ||| flag (r == 0) 6 ||| flag r.msb 7 |||
    flag (a.msb == b.msb && r.msb != a.msb) 11

def statusFlags : Word := 0x8D5

def exec (s : Cpu) : Instr → Cpu
  | .push r => s.push (s.regs r)
  | .pushImm v => s.push v
  | .pop r => (s.setReg .rsp (s.regs .rsp + 8)).setReg r (s.stackWord 0)
  | .mov d r => s.setReg d (s.regs r)
  | .lea d a => s.setReg d a
  | .addImm d v =>
      { s.setReg d (s.regs d + v) with
        rflags := (s.rflags &&& ~~~statusFlags) ||| addFlags (s.regs d) v }
  | .jmp r => { s with rip := s.regs r }
  | .call f ret => { s.push ret with rip := f }
  | .iretq =>
      { s.setReg .rsp (s.stackWord 3) with
        rip := s.stackWord 0
        cs := (s.stackWord 1).setWidth 16
        rflags := s.stackWord 2
        ss := (s.stackWord 4).setWidth 16 }

/-- Straight-line code up to and including its transfer of control. -/
def runBlock (is : List Instr) (s : Cpu) : Cpu := is.foldl exec s

/-- What the processor takes from its tables and from the event when it delivers an interrupt:
the stack to use, the gate's code segment, the flags that the gate clears and the error code. -/
structure Delivery where
  stack : Word
  cs : BitVec 16
  cleared : Word
  error : Word

def alignDown (a : Word) : Word := a &&& ~~~15

/-- Entry through a gate: the stack pointer is aligned, then the interrupted `ss`, `rsp`,
`rflags`, `cs` and `rip` are pushed, and for some vectors an error code. -/
def deliver (d : Delivery) (hasError : Bool) (handler : Word) (s : Cpu) : Cpu :=
  let t := s.setReg .rsp (alignDown d.stack)
  let t := ((((t.push (s.ss.setWidth 64)).push (s.regs .rsp)).push s.rflags).push
    (s.cs.setWidth 64)).push s.rip
  let t := if hasError then t.push d.error else t
  { t with
    rip := handler
    cs := d.cs
    ss := if s.cs.setWidth 2 = d.cs.setWidth 2 then s.ss else 0
    rflags := s.rflags &&& ~~~d.cleared }

namespace Cpu
variable {s : Cpu} {ws : List Word} {w : Word}

/-- The words on top of the stack are `ws`, and the stack is aligned to words. -/
structure Top (s : Cpu) (ws : List Word) : Prop where
  aligned : (s.regs .rsp).toNat % 8 = 0
  short : ws.length < 2 ^ 32
  word : ∀ k w, ws[k]? = some w → s.stackWord k = w

theorem Top.congr {t : Cpu} (h : s.Top ws) (hr : t.regs .rsp = s.regs .rsp) (hm : t.mem = s.mem) :
    t.Top ws := by
  refine ⟨hr ▸ h.aligned, h.short, fun k w hk => ?_⟩
  rw [← h.word k w hk, stackWord, stackWord, hr, hm]

theorem Top.head (h : s.Top (w :: ws)) : s.stackWord 0 = w := h.word 0 w rfl

private theorem sub_eight {a : Word} (k : ℕ) :
    a - 8 + BitVec.ofNat 64 (8 * (k + 1)) = a + BitVec.ofNat 64 (8 * k) := by
  have h8 : (8 : Word).toNat = 8 := rfl
  apply BitVec.eq_of_toNat_eq
  rw [BitVec.toNat_add, BitVec.toNat_add, BitVec.toNat_sub, BitVec.toNat_ofNat,
    BitVec.toNat_ofNat, h8]
  omega

@[simp] theorem push_regs_rsp (s : Cpu) (w : Word) :
    (s.push w).regs .rsp = s.regs .rsp - 8 := by simp [push, setReg]

theorem push_regs_of_ne (s : Cpu) (w : Word) {r : Reg} (h : r ≠ .rsp) :
    (s.push w).regs r = s.regs r := by simp [push, setReg, h]

theorem Top.push (h : s.Top ws) (hs : ws.length + 1 < 2 ^ 32) (w : Word) :
    (s.push w).Top (w :: ws) := by
  have h8 : (8 : Word).toNat = 8 := rfl
  have ha := h.aligned
  have hsub : (s.regs .rsp - 8).toNat = (2 ^ 64 - 8 + (s.regs .rsp).toNat) % 2 ^ 64 := by
    rw [BitVec.toNat_sub, h8]
  refine ⟨?_, by simpa using hs, fun k v hk => ?_⟩
  · rw [push_regs_rsp, hsub]
    omega
  rw [stackWord, push_regs_rsp]
  cases k with
  | zero =>
    have hv : w = v := by simpa using hk
    have hz : (s.regs .rsp - 8 + BitVec.ofNat 64 (8 * 0)) = s.regs .rsp - 8 := BitVec.add_zero _
    rw [hz, ← hv]
    exact load64_store64_same _ _ _
  | succ k =>
    have hk' : ws[k]? = some v := by simpa using hk
    have hlt : k < ws.length := (List.getElem?_eq_some_iff.mp hk').1
    have := h.short
    rw [sub_eight, ← h.word k v hk', stackWord]
    apply load64_store64_apart _ _
    rw [hsub, BitVec.toNat_add, BitVec.toNat_ofNat]
    omega

/-- Dropping words from the top. -/
theorem Top.drop (vs : List Word) (h : s.Top (vs ++ ws)) {t : Cpu} (hm : t.mem = s.mem)
    (hr : t.regs .rsp = s.regs .rsp + BitVec.ofNat 64 (8 * vs.length)) : t.Top ws := by
  have ha := h.aligned
  have hl := h.short
  rw [List.length_append] at hl
  refine ⟨?_, by omega, fun k w hk => ?_⟩
  · rw [hr, BitVec.toNat_add, BitVec.toNat_ofNat]
    omega
  · have hk' : (vs ++ ws)[vs.length + k]? = some w := by
      rw [List.getElem?_append_right (by omega), Nat.add_sub_cancel_left, hk]
    rw [← h.word _ w hk', stackWord, stackWord, hr, hm, BitVec.add_assoc, ← BitVec.ofNat_add,
      ← Nat.mul_add]

theorem Top.pop (h : s.Top (w :: ws)) {r : Reg} (hr : r ≠ .rsp) :
    (exec s (.pop r)).Top ws ∧ (exec s (.pop r)).regs r = w ∧
      ∀ q, q ≠ r → q ≠ .rsp → (exec s (.pop r)).regs q = s.regs q := by
  refine ⟨Top.drop [w] h rfl ?_, ?_, fun q h1 h2 => ?_⟩
  · simp [exec, setReg, hr.symm]
  · simp [exec, setReg, h.head]
  · simp [exec, setReg, h1, h2]

end Cpu

section Blocks
variable {s : Cpu} {ws : List Word}

@[simp] theorem runBlock_nil (s : Cpu) : runBlock [] s = s := rfl

@[simp] theorem runBlock_cons (i : Instr) (is : List Instr) (s : Cpu) :
    runBlock (i :: is) s = runBlock is (exec s i) := rfl

theorem runBlock_append (is js : List Instr) (s : Cpu) :
    runBlock (is ++ js) s = runBlock js (runBlock is s) := List.foldl_append

/-- Pushing registers leaves their values on top of the stack, the last one first. -/
theorem runBlock_push (rs : List Reg) (h : s.Top ws) (hs : ws.length + rs.length < 2 ^ 32)
    (hrs : Reg.rsp ∉ rs) :
    (runBlock (rs.map .push) s).Top ((rs.map s.regs).reverse ++ ws) ∧
      ∀ q, q ≠ .rsp → (runBlock (rs.map .push) s).regs q = s.regs q := by
  induction rs generalizing s ws with
  | nil => exact ⟨by simpa using h, fun q _ => rfl⟩
  | cons r rs ih =>
    rw [List.length_cons] at hs
    have hne (q : Reg) (hq : q ∈ rs) : q ≠ .rsp := by
      rintro rfl
      exact hrs (List.mem_cons_of_mem _ hq)
    have htop := h.push (by omega) (s.regs r)
    have := ih htop (by rw [List.length_cons]; omega) fun hc => hrs (List.mem_cons_of_mem _ hc)
    have hmap : rs.map (s.push (s.regs r)).regs = rs.map s.regs :=
      List.map_congr_left fun q hq => Cpu.push_regs_of_ne s _ (hne q hq)
    rw [hmap] at this
    refine ⟨?_, fun q hq => ?_⟩
    · rw [List.map_cons, List.map_cons, runBlock_cons, List.reverse_cons, List.append_assoc]
      exact this.1
    · rw [List.map_cons, runBlock_cons]
      exact (this.2 q hq).trans (Cpu.push_regs_of_ne s _ hq)

/-- Popping distinct registers gives each of them its word. -/
theorem runBlock_pop (rs : List Reg) (f : Reg → Word) (h : s.Top (rs.map f ++ ws))
    (hrs : Reg.rsp ∉ rs) :
    (runBlock (rs.map .pop) s).Top ws ∧ (∀ r ∈ rs, (runBlock (rs.map .pop) s).regs r = f r) ∧
      ∀ q, q ∉ rs → q ≠ .rsp → (runBlock (rs.map .pop) s).regs q = s.regs q := by
  induction rs generalizing s with
  | nil => exact ⟨by simpa using h, by simp, fun q _ _ => rfl⟩
  | cons r rs ih =>
    have hr : r ≠ .rsp := by
      rintro rfl
      exact hrs List.mem_cons_self
    obtain ⟨htop, hreg, hother⟩ := h.pop hr
    obtain ⟨h1, h2, h3⟩ := ih htop fun hc => hrs (List.mem_cons_of_mem _ hc)
    rw [List.map_cons, runBlock_cons]
    refine ⟨h1, fun q hq => ?_, fun q hq hq' => ?_⟩
    · by_cases hmem : q ∈ rs
      · exact h2 q hmem
      · rcases List.mem_cons.mp hq with rfl | hc
        · exact (h3 q hmem hr).trans hreg
        · exact absurd hc hmem
    · rw [List.mem_cons, not_or] at hq
      exact (h3 q hq.2 hq').trans (hother q hq.1 hq')

theorem alignDown_mod (a : Word) : (alignDown a).toNat % 16 = 0 := by
  have hmask : alignDown a &&& 15 = 0 := by
    rw [alignDown, BitVec.and_assoc]
    have h : (~~~15 &&& 15 : Word) = 0 := rfl
    rw [h]
    exact BitVec.and_zero
  have h := congrArg BitVec.toNat hmask
  have h15 : (15 : Word).toNat = 2 ^ 4 - 1 := rfl
  rw [BitVec.toNat_and, h15, Nat.and_two_pow_sub_one_eq_mod] at h
  exact h

/-- The words that the processor pushes, from the top. -/
def deliveredWords (d : Delivery) (hasError : Bool) (s : Cpu) : List Word :=
  (if hasError then [d.error] else []) ++
    [s.rip, s.cs.setWidth 64, s.rflags, s.regs .rsp, s.ss.setWidth 64]

theorem deliver_top (d : Delivery) (hasError : Bool) (handler : Word) (s : Cpu) :
    (deliver d hasError handler s).Top (deliveredWords d hasError s) := by
  have h0 : (s.setReg .rsp (alignDown d.stack)).Top [] := by
    have := alignDown_mod d.stack
    exact ⟨by simp [Cpu.setReg]; omega, by simp, by simp⟩
  have h5 := ((((h0.push (by simp) (s.ss.setWidth 64)).push (by simp) (s.regs .rsp)).push
    (by simp) s.rflags).push (by simp) (s.cs.setWidth 64)).push (by simp) s.rip
  cases hasError with
  | false => exact h5.congr rfl rfl
  | true => exact (h5.push (by simp) d.error).congr rfl rfl

theorem deliver_regs (d : Delivery) (hasError : Bool) (handler : Word) (s : Cpu) {q : Reg}
    (hq : q ≠ .rsp) : (deliver d hasError handler s).regs q = s.regs q := by
  cases hasError <;> simp [deliver, Cpu.push, Cpu.setReg, hq]

/-- `iretq` undoes a delivery whose words are on top of the stack. -/
theorem exec_iretq (d : Delivery) {s t : Cpu} (h : t.Top (deliveredWords d false s)) :
    exec t .iretq = { s with
      regs := Function.update t.regs .rsp (s.regs .rsp)
      mem := t.mem } := by
  have h0 := h.word 0 _ rfl
  have h1 := h.word 1 _ rfl
  have h2 := h.word 2 _ rfl
  have h3 := h.word 3 _ rfl
  have h4 := h.word 4 _ rfl
  simp only [exec, Cpu.setReg, h0, h1, h2, h3, h4]
  congr 1 <;> simp

end Blocks
end StackMachine
