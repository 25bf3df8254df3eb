import LucidiOS.Interrupt.StackMachine

/-! The interrupt entry stubs and `isr_common`. A stub reaches `isr_common` through `rax`, before
the registers are saved. -/
namespace LucidiOS.Interrupt
open StackMachine ByteMemory

/-- The gates that have an entry stub. -/
inductive Isr
  | isr0 | isr1 | isr6 | isr8 | isr13 | isr14 | isr32 | isr33 | isr50
  deriving DecidableEq

/-- The vectors for which the processor pushes an error code. -/
def Isr.hasError : Isr → Bool
  | .isr8 | .isr13 | .isr14 => true
  | _ => false

def isrNoErr (isrCommon vector : Word) : List Instr :=
  [.pushImm 0, .pushImm vector, .lea .rax isrCommon, .jmp .rax]

def isrErr (isrCommon vector : Word) : List Instr :=
  [.pushImm vector, .lea .rax isrCommon, .jmp .rax]

def isrHard (isrCommon vector : Word) : List Instr :=
  [.pushImm 0, .pushImm vector, .lea .rax isrCommon, .jmp .rax]

def Isr.vector : Isr → Word
  | .isr0 => 0
  | .isr1 => 1
  | .isr6 => 6
  | .isr8 => 8
  | .isr13 => 13
  | .isr14 => 14
  | .isr32 => 32
  | .isr33 => 33
  | .isr50 => 50

def Isr.code (isrCommon : Word) : Isr → List Instr
  | .isr0 => isrNoErr isrCommon 0
  | .isr1 => isrNoErr isrCommon 1
  | .isr6 => isrNoErr isrCommon 6
  | .isr8 => isrErr isrCommon 8
  | .isr13 => isrErr isrCommon 13
  | .isr14 => isrErr isrCommon 14
  | .isr32 => isrHard isrCommon 32
  | .isr33 => isrHard isrCommon 33
  | .isr50 => isrHard isrCommon 50

def pushAllRegs : List Reg :=
  [.rax, .rbx, .rcx, .rdx, .rsi, .rdi, .rbp, .r8, .r9, .r10, .r11, .r12, .r13, .r14, .r15]

def pullAllRegs : List Reg :=
  [.r15, .r14, .r13, .r12, .r11, .r10, .r9, .r8, .rbp, .rdi, .rsi, .rdx, .rcx, .rbx, .rax]

def pushAll : List Instr := pushAllRegs.map .push

def pullAll : List Instr := pullAllRegs.map .pop

/-- `isr_common` up to the call of the handler. -/
def isrCommonCall (isrHandlerC isrReturn : Word) : List Instr :=
  pushAll ++ [.mov .rdi .rsp, .call isrHandlerC isrReturn]

/-- `isr_common` after the call. -/
def isrCommonReturn : List Instr := pullAll ++ [.addImm .rsp 16, .iretq]

structure StackFrame where
  (r15 r14 r13 r12 r11 r10 r9 r8 : Word)
  (rbp rdi rsi rdx rcx rbx rax : Word)
  (vector code : Word)
  (rip cs rflags rsp ss : Word)

/-- The frame that a `stack_frame_t *` points to. -/
def StackFrame.read (m : Memory) (p : Word) : StackFrame :=
  let field k := load64 m (p + BitVec.ofNat 64 (8 * k)).toNat
  { r15 := field 0, r14 := field 1, r13 := field 2, r12 := field 3, r11 := field 4, r10 := field 5,
    r9 := field 6, r8 := field 7, rbp := field 8, rdi := field 9, rsi := field 10, rdx := field 11,
    rcx := field 12, rbx := field 13, rax := field 14, vector := field 15, code := field 16,
    rip := field 17, cs := field 18, rflags := field 19, rsp := field 20, ss := field 21 }

def StackFrame.reg (f : StackFrame) : Reg → Word
  | .rax => f.rax | .rbx => f.rbx | .rcx => f.rcx | .rdx => f.rdx
  | .rsi => f.rsi | .rdi => f.rdi | .rbp => f.rbp | .rsp => f.rsp
  | .r8 => f.r8 | .r9 => f.r9 | .r10 => f.r10 | .r11 => f.r11
  | .r12 => f.r12 | .r13 => f.r13 | .r14 => f.r14 | .r15 => f.r15

/-- The linked kernel: where the code of this file lies. Addresses without code here belong to
other code, such as the compiled `isr_handler_C`. -/
structure Image where
  fetch : Word → Option (List Instr)
  isr : Isr → Word
  isrCommon : Word
  isrReturn : Word
  isrHandlerC : Word
  fetch_isr : ∀ v, fetch (isr v) = some (v.code isrCommon)
  fetch_isrCommon : fetch isrCommon = some (isrCommonCall isrHandlerC isrReturn)
  fetch_isrReturn : fetch isrReturn = some isrCommonReturn
  fetch_isrHandlerC : fetch isrHandlerC = none

namespace Image
variable (I : Image) (other : Cpu → Option Cpu)

/-- One block of code, or a whole run of other code until it hands control back. -/
def step (s : Cpu) : Option Cpu :=
  match I.fetch s.rip with
  | some block => some (runBlock block s)
  | none => other s

def run : ℕ → Cpu → Option Cpu
  | 0, s => some s
  | n + 1, s => I.step other s >>= run n

/-- The state in which `isr_handler_C` is entered. -/
def atHandler (v : Isr) (d : Delivery) (s : Cpu) : Option Cpu :=
  I.run other 2 (deliver d v.hasError (I.isr v) s)

/-- The state after `iretq`. -/
def resumed (v : Isr) (d : Delivery) (s : Cpu) : Option Cpu :=
  I.run other 4 (deliver d v.hasError (I.isr v) s)

end Image

/-- `isr_handler_C` returns to its caller as the calling convention demands, and leaves the frame
it was passed alone. -/
structure HandlerContract (I : Image) (other : Cpu → Option Cpu) : Prop where
  returns : ∀ u w, u.rip = I.isrHandlerC → other u = some w →
    w.rip = u.stackWord 0 ∧ w.regs .rsp = u.regs .rsp + 8
  frame : ∀ u w, u.rip = I.isrHandlerC → other u = some w → ∀ k < 22,
    load64 w.mem (u.regs .rdi + BitVec.ofNat 64 (8 * k)).toNat =
      load64 u.mem (u.regs .rdi + BitVec.ofNat 64 (8 * k)).toNat

/-- The frame passed to the handler holds the interrupted state. -/
structure FrameHolds (f : StackFrame) (s : Cpu) : Prop where
  regs : ∀ r, f.reg r = s.regs r
  rip : f.rip = s.rip
  cs : f.cs = s.cs.setWidth 64
  rflags : f.rflags = s.rflags
  ss : f.ss = s.ss.setWidth 64

/-- Control is back in the interrupted program, with every register as it was. -/
structure Restored (t s : Cpu) : Prop where
  regs : ∀ r, t.regs r = s.regs r
  rip : t.rip = s.rip
  cs : t.cs = s.cs
  rflags : t.rflags = s.rflags
  ss : t.ss = s.ss

/-- The interrupt is invisible to the program that it interrupts. -/
structure Transparent (I : Image) (other : Cpu → Option Cpu) (v : Isr) (d : Delivery) (s : Cpu) :
    Prop where
  frame : ∃ u, I.atHandler other v d s = some u ∧ u.rip = I.isrHandlerC ∧
    FrameHolds (StackFrame.read u.mem (u.regs .rdi)) s
  restored : ∀ t, I.resumed other v d s = some t → Restored t s

/-- The saved value of each register: `rax` already has the address of `isr_common`. -/
def savedReg (isrCommon : Word) (s : Cpu) : Reg → Word :=
  Function.update s.regs .rax isrCommon

/-- The words from `vector` to the end of the frame. -/
def isrWords (v : Isr) (d : Delivery) (s : Cpu) : List Word :=
  v.vector :: (if v.hasError then d.error else 0) :: deliveredWords d false s

def frameWords (isrCommon : Word) (v : Isr) (d : Delivery) (s : Cpu) : List Word :=
  pullAllRegs.map (savedReg isrCommon s) ++ isrWords v d s

@[simp] theorem savedReg_rsp (isrCommon : Word) (s : Cpu) :
    savedReg isrCommon s .rsp = s.regs .rsp := rfl

theorem pushAllRegs_saved (f : Reg → Word) :
    (pushAllRegs.map f).reverse = pullAllRegs.map f := rfl

section Save
variable {isrCommon : Word} {v : Isr} {d : Delivery} {s : Cpu}

theorem update_rax_of_ne {u w : Cpu} (h : ∀ q, q ≠ .rsp → u.regs q = w.regs q) (a : Word) {q : Reg}
    (hq : q ≠ .rsp) : Function.update u.regs .rax a q = Function.update w.regs .rax a q := by
  by_cases hrax : q = .rax
  · rw [hrax, Function.update_self, Function.update_self]
  · rw [Function.update_of_ne hrax, Function.update_of_ne hrax, h q hq]

theorem runBlock_isrErr {u : Cpu} {ws : List Word} (isrCommon vector : Word) (h : u.Top ws)
    (hs : ws.length + 1 < 2 ^ 32) :
    (runBlock (isrErr isrCommon vector) u).Top (vector :: ws) ∧
      (runBlock (isrErr isrCommon vector) u).rip = isrCommon ∧
      ∀ q, q ≠ .rsp →
        (runBlock (isrErr isrCommon vector) u).regs q = Function.update u.regs .rax isrCommon q := by
  refine ⟨(h.push hs vector).congr ?_ rfl, ?_, fun q hq => ?_⟩
  · simp [isrErr, exec, Cpu.setReg]
  · simp [isrErr, exec, Cpu.setReg]
  · simp only [isrErr, runBlock_cons, runBlock_nil, exec]
    exact update_rax_of_ne (fun q hq => Cpu.push_regs_of_ne u _ hq) isrCommon hq

theorem runBlock_isrNoErr {u : Cpu} {ws : List Word} (isrCommon vector : Word) (h : u.Top ws)
    (hs : ws.length + 2 < 2 ^ 32) :
    (runBlock (isrNoErr isrCommon vector) u).Top (vector :: 0 :: ws) ∧
      (runBlock (isrNoErr isrCommon vector) u).rip = isrCommon ∧
      ∀ q, q ≠ .rsp → (runBlock (isrNoErr isrCommon vector) u).regs q =
        Function.update u.regs .rax isrCommon q := by
  obtain ⟨h1, h2, h3⟩ := runBlock_isrErr isrCommon vector (h.push (by omega) 0)
    (by rw [List.length_cons]; omega)
  refine ⟨h1, h2, fun q hq => (h3 q hq).trans ?_⟩
  exact update_rax_of_ne (fun q hq => Cpu.push_regs_of_ne u _ hq) isrCommon hq

/-- A stub completes the frame and jumps with the address of `isr_common` in `rax`. -/
theorem runBlock_isr (isrCommon isr : Word) (v : Isr) (d : Delivery) (s : Cpu) :
    (runBlock (v.code isrCommon) (deliver d v.hasError isr s)).Top (isrWords v d s) ∧
      (runBlock (v.code isrCommon) (deliver d v.hasError isr s)).rip = isrCommon ∧
      ∀ q, q ≠ .rsp → (runBlock (v.code isrCommon) (deliver d v.hasError isr s)).regs q =
        savedReg isrCommon s q := by
  have htop := deliver_top d v.hasError isr s
  have hregs (q : Reg) (hq : q ≠ .rsp) := deliver_regs d v.hasError isr s hq
  generalize deliver d v.hasError isr s = u at htop hregs ⊢
  have herr (n : Word) (h : u.Top (d.error :: deliveredWords d false s)) :
      (runBlock (isrErr isrCommon n) u).Top (n :: d.error :: deliveredWords d false s) ∧
        (runBlock (isrErr isrCommon n) u).rip = isrCommon ∧
        ∀ q, q ≠ .rsp → (runBlock (isrErr isrCommon n) u).regs q = savedReg isrCommon s q := by
    obtain ⟨h1, h2, h3⟩ := runBlock_isrErr isrCommon n h (by simp [deliveredWords])
    exact ⟨h1, h2, fun q hq => (h3 q hq).trans (update_rax_of_ne hregs isrCommon hq)⟩
  have hnoErr (n : Word) (h : u.Top (deliveredWords d false s)) :
      (runBlock (isrNoErr isrCommon n) u).Top (n :: 0 :: deliveredWords d false s) ∧
        (runBlock (isrNoErr isrCommon n) u).rip = isrCommon ∧
        ∀ q, q ≠ .rsp → (runBlock (isrNoErr isrCommon n) u).regs q = savedReg isrCommon s q := by
    obtain ⟨h1, h2, h3⟩ := runBlock_isrNoErr isrCommon n h (by simp [deliveredWords])
    exact ⟨h1, h2, fun q hq => (h3 q hq).trans (update_rax_of_ne hregs isrCommon hq)⟩
  cases v with
  | isr8 | isr13 | isr14 => exact herr _ htop
  | isr0 | isr1 | isr6 | isr32 | isr33 | isr50 => exact hnoErr _ htop

theorem frameWords_length : (frameWords isrCommon v d s).length = 22 := rfl

/-- `isr_common` calls the handler with a pointer to the completed frame. -/
theorem runBlock_isrCommonCall {t : Cpu} (isrHandlerC isrReturn : Word)
    (h : t.Top (isrWords v d s)) (hregs : ∀ q, q ≠ .rsp → t.regs q = savedReg isrCommon s q) :
    let u := runBlock (isrCommonCall isrHandlerC isrReturn) t
    u.Top (isrReturn :: frameWords isrCommon v d s) ∧ u.rip = isrHandlerC ∧
      u.regs .rdi = u.regs .rsp + 8 := by
  obtain ⟨htop, -⟩ := runBlock_push pushAllRegs h (by simp [isrWords, deliveredWords, pushAllRegs])
    (by decide)
  have hmap : pushAllRegs.map t.regs = pushAllRegs.map (savedReg isrCommon s) :=
    List.map_congr_left fun q hq => hregs q (by rintro rfl; revert hq; decide)
  rw [hmap, pushAllRegs_saved] at htop
  simp only [isrCommonCall, pushAll, runBlock_append]
  generalize runBlock (pushAllRegs.map .push) t = p at htop
  have hmov : (exec p (.mov .rdi .rsp)).Top (frameWords isrCommon v d s) :=
    htop.congr (by simp [exec, Cpu.setReg]) rfl
  refine ⟨(hmov.push (by rw [frameWords_length]; decide) isrReturn).congr rfl rfl, rfl, ?_⟩
  simp [exec, Cpu.setReg, Cpu.push]

/-- What the handler reads in a block of memory that holds the words of the frame. -/
theorem frameWords_read {m : Memory} {p : Word}
    (h : ∀ k w, (frameWords isrCommon v d s)[k]? = some w →
      load64 m (p + BitVec.ofNat 64 (8 * k)).toNat = w) :
    (∀ r, (StackFrame.read m p).reg r = savedReg isrCommon s r) ∧
      (StackFrame.read m p).vector = v.vector ∧
      (StackFrame.read m p).code = (if v.hasError then d.error else 0) ∧
      (StackFrame.read m p).rip = s.rip ∧ (StackFrame.read m p).cs = s.cs.setWidth 64 ∧
      (StackFrame.read m p).rflags = s.rflags ∧ (StackFrame.read m p).ss = s.ss.setWidth 64 := by
  refine ⟨fun r => ?_, h 15 _ rfl, h 16 _ rfl, h 17 _ rfl, h 18 _ rfl, h 19 _ rfl, h 21 _ rfl⟩
  cases r with
  | r15 => exact h 0 _ rfl
  | r14 => exact h 1 _ rfl
  | r13 => exact h 2 _ rfl
  | r12 => exact h 3 _ rfl
  | r11 => exact h 4 _ rfl
  | r10 => exact h 5 _ rfl
  | r9 => exact h 6 _ rfl
  | r8 => exact h 7 _ rfl
  | rbp => exact h 8 _ rfl
  | rdi => exact h 9 _ rfl
  | rsi => exact h 10 _ rfl
  | rdx => exact h 11 _ rfl
  | rcx => exact h 12 _ rfl
  | rbx => exact h 13 _ rfl
  | rax => exact h 14 _ rfl
  | rsp => exact h 20 _ rfl

/-- `isr_common` takes the frame apart again and returns to the interrupted program. -/
theorem runBlock_isrCommonReturn {w : Cpu} (h : w.Top (frameWords isrCommon v d s)) :
    let t := runBlock isrCommonReturn w
    (∀ r, t.regs r = savedReg isrCommon s r) ∧ t.rip = s.rip ∧ t.cs = s.cs ∧
      t.rflags = s.rflags ∧ t.ss = s.ss := by
  obtain ⟨htop, hregs, -⟩ := runBlock_pop pullAllRegs (savedReg isrCommon s) h (by decide)
  simp only [isrCommonReturn, pullAll, runBlock_append]
  generalize runBlock (pullAllRegs.map .pop) w = p at htop hregs
  have hadd : (exec p (.addImm .rsp 16)).Top (deliveredWords d false s) :=
    Cpu.Top.drop [v.vector, if v.hasError then d.error else 0] htop rfl
      (by simp [exec, Cpu.setReg])
  rw [runBlock_cons, runBlock_cons, runBlock_nil, exec_iretq d hadd]
  refine ⟨fun r => ?_, rfl, rfl, rfl, rfl⟩
  by_cases hr : r = .rsp
  · simp [hr]
  · have hmem : r ∈ pullAllRegs := by cases r <;> first | decide | contradiction
    simp [hr, exec, Cpu.setReg, ← hregs r hmem]

end Save

section Run
variable {I : Image} {other : Cpu → Option Cpu} {v : Isr} {d : Delivery} {s : Cpu}

theorem Image.step_of_fetch (other : Cpu → Option Cpu) {block : List Instr} {u : Cpu}
    (h : I.fetch u.rip = some block) : I.step other u = some (runBlock block u) := by
  rw [Image.step, h]

theorem Image.run_succ {n : ℕ} {u w : Cpu} (h : I.step other u = some w) :
    I.run other (n + 1) u = I.run other n w := by
  rw [Image.run, h, Option.bind_eq_bind, Option.bind_some]

/-- Every interrupt reaches the handler, with the frame on top of the stack. -/
theorem atHandler_spec (I : Image) (other : Cpu → Option Cpu) (v : Isr) (d : Delivery) (s : Cpu) :
    ∃ u, I.atHandler other v d s = some u ∧ u.rip = I.isrHandlerC ∧
      u.Top (I.isrReturn :: frameWords I.isrCommon v d s) ∧ u.regs .rdi = u.regs .rsp + 8 ∧
      I.resumed other v d s = I.run other 2 u := by
  obtain ⟨htop, hrip, hregs⟩ := runBlock_isr I.isrCommon (I.isr v) v d s
  have hfirst := Image.step_of_fetch (I := I) other
    (u := deliver d v.hasError (I.isr v) s) (I.fetch_isr v)
  have hsecond := Image.step_of_fetch (I := I) other (hrip ▸ I.fetch_isrCommon)
  obtain ⟨h1, h2, h3⟩ := runBlock_isrCommonCall I.isrHandlerC I.isrReturn htop hregs
  refine ⟨_, ?_, h2, h1, h3, ?_⟩
  · rw [Image.atHandler, Image.run_succ hfirst, Image.run_succ hsecond, Image.run]
  · rw [Image.resumed, Image.run_succ hfirst, Image.run_succ hsecond]

theorem words_at_rdi {u : Cpu} {ret : Word} {ws : List Word} (h : u.Top (ret :: ws))
    (hrdi : u.regs .rdi = u.regs .rsp + 8) {k : ℕ} {w : Word} (hk : ws[k]? = some w) :
    load64 u.mem (u.regs .rdi + BitVec.ofNat 64 (8 * k)).toNat = w := by
  have htop : (u.setReg .rsp (u.regs .rdi)).Top ws :=
    Cpu.Top.drop [ret] h rfl (by simp [Cpu.setReg, hrdi])
  have := htop.word k w hk
  simpa [Cpu.stackWord, Cpu.setReg] using this

/-- A handler that returns leaves the frame on top of the stack. -/
theorem returns_top (hc : HandlerContract I other) {u w : Cpu}
    (hu : I.atHandler other v d s = some u) (hw : other u = some w) :
    w.Top (frameWords I.isrCommon v d s) ∧ w.regs .rsp = u.regs .rsp + 8 ∧
      I.step other u = some w ∧ I.step other w = some (runBlock isrCommonReturn w) := by
  obtain ⟨u', hu', hrip, htop, hrdi, -⟩ := atHandler_spec I other v d s
  rw [hu, Option.some.injEq] at hu'
  subst hu'
  obtain ⟨hret, hsp⟩ := hc.returns u w hrip hw
  rw [htop.head] at hret
  refine ⟨⟨?_, by rw [frameWords_length]; decide, fun k x hk => ?_⟩, hsp,
    by rw [Image.step, hrip, I.fetch_isrHandlerC, hw],
    Image.step_of_fetch (I := I) other (hret ▸ I.fetch_isrReturn)⟩
  · have := htop.aligned
    have h8 : (8 : Word).toNat = 8 := rfl
    rw [hsp, BitVec.toNat_add, h8]
    omega
  · have hlt : k < 22 := by
      have := (List.getElem?_eq_some_iff.mp hk).1
      rwa [frameWords_length] at this
    rw [Cpu.stackWord, hsp, ← hrdi, hc.frame u w hrip hw k hlt]
    exact words_at_rdi htop hrdi hk

/-- When the handler returns, the interrupted program continues with the saved registers. -/
theorem resumed_of_returns (hc : HandlerContract I other) {u w : Cpu}
    (hu : I.atHandler other v d s = some u) (hw : other u = some w) :
    ∃ t, I.resumed other v d s = some t ∧ (∀ r, t.regs r = savedReg I.isrCommon s r) ∧
      t.rip = s.rip ∧ t.cs = s.cs ∧ t.rflags = s.rflags ∧ t.ss = s.ss := by
  obtain ⟨hframe, -, hcall, hreturn⟩ := returns_top hc hu hw
  obtain ⟨u', hu', -, -, -, hrun⟩ := atHandler_spec I other v d s
  rw [hu, Option.some.injEq] at hu'
  subst hu'
  refine ⟨_, ?_, runBlock_isrCommonReturn hframe⟩
  rw [hrun, Image.run_succ hcall, Image.run_succ hreturn, Image.run]

theorem resumed_spec (hc : HandlerContract I other) {t : Cpu}
    (h : I.resumed other v d s = some t) :
    (∀ r, t.regs r = savedReg I.isrCommon s r) ∧ t.rip = s.rip ∧ t.cs = s.cs ∧
      t.rflags = s.rflags ∧ t.ss = s.ss := by
  obtain ⟨u, hu, hrip, -, -, hrun⟩ := atHandler_spec I other v d s
  cases hw : other u with
  | none =>
    rw [hrun, Image.run, Image.step, hrip, I.fetch_isrHandlerC] at h
    simp [hw] at h
  | some w =>
    obtain ⟨t', ht', hspec⟩ := resumed_of_returns hc hu hw
    rw [ht', Option.some.injEq] at h
    subst h
    exact hspec

theorem rax_of_transparent (h : Transparent I other v d s) : s.regs .rax = I.isrCommon := by
  obtain ⟨u, hu, -, htop, hrdi, -⟩ := atHandler_spec I other v d s
  obtain ⟨u', hu', -, hholds⟩ := h.frame
  rw [hu, Option.some.injEq] at hu'
  subst hu'
  have hsaved := (frameWords_read fun k w hk => words_at_rdi htop hrdi hk).1 .rax
  exact (hholds.regs .rax).symm.trans hsaved

end Run

/-- An interrupt is transparent exactly when the interrupted program happens to have the address of
`isr_common` in `rax`. -/
theorem transparent_iff {I : Image} {other : Cpu → Option Cpu} (hc : HandlerContract I other)
    (v : Isr) (d : Delivery) (s : Cpu) :
    Transparent I other v d s ↔ s.regs .rax = I.isrCommon := by
  refine ⟨rax_of_transparent, fun hrax => ?_⟩
  have hsaved (r : Reg) : savedReg I.isrCommon s r = s.regs r := by
    rw [savedReg, ← hrax, Function.update_eq_self]
  constructor
  · obtain ⟨u, hu, hrip, htop, hrdi, -⟩ := atHandler_spec I other v d s
    obtain ⟨hregs, -, -, h1, h2, h3, h4⟩ :=
      frameWords_read fun k w hk => words_at_rdi htop hrdi (k := k) (w := w) hk
    exact ⟨u, hu, hrip, fun r => (hregs r).trans (hsaved r), h1, h2, h3, h4⟩
  · intro t ht
    obtain ⟨h1, h2, h3, h4, h5⟩ := resumed_spec hc ht
    exact ⟨fun r => (h1 r).trans (hsaved r), h2, h3, h4, h5⟩

/-- An image with `isr_common` at 0x2000 and the stubs below it. -/
def linkedAt2000 : Image where
  isr v := 0x1000 + 16 * v.vector
  isrCommon := 0x2000
  isrReturn := 0x2100
  isrHandlerC := 0x3000
  fetch a :=
    if a = 0x2000 then some (isrCommonCall 0x3000 0x2100)
    else if a = 0x2100 then some isrCommonReturn
    else ([Isr.isr0, .isr1, .isr6, .isr8, .isr13, .isr14, .isr32, .isr33, .isr50].find? fun v =>
      a == 0x1000 + 16 * v.vector).map (Isr.code 0x2000)
  fetch_isr v := by cases v <;> rfl
  fetch_isrCommon := rfl
  fetch_isrReturn := rfl
  fetch_isrHandlerC := rfl

/-- A handler that uses `rax` and returns. -/
def returnAtOnce (u : Cpu) : Option Cpu :=
  some { (u.setReg .rax 0).setReg .rsp (u.regs .rsp + 8) with rip := u.stackWord 0 }

theorem returnAtOnce_contract (I : Image) : HandlerContract I returnAtOnce where
  returns u w _ h := by
    simp only [returnAtOnce, Option.some.injEq] at h
    subst h
    exact ⟨rfl, by simp [Cpu.setReg]⟩
  frame u w _ h k _ := by
    simp only [returnAtOnce, Option.some.injEq] at h
    subst h
    rfl

/-- A program with 5 in every register. -/
def interruptedProgram : Cpu := ⟨fun _ => 5, 0x400000, 8, 16, 0x202, fun _ => 0⟩

def timerDelivery : Delivery := ⟨0x8000, 8, 0x200, 0⟩

theorem transparent_iff_timer :
    Transparent linkedAt2000 returnAtOnce .isr33 timerDelivery interruptedProgram ↔
      interruptedProgram.regs .rax = linkedAt2000.isrCommon :=
  transparent_iff (returnAtOnce_contract linkedAt2000) .isr33 timerDelivery interruptedProgram

/-- The timer interrupt replaces the 5 in `rax` by the address of `isr_common`. -/
theorem timer_clobbers_rax :
    HandlerContract linkedAt2000 returnAtOnce ∧
    ¬Transparent linkedAt2000 returnAtOnce .isr33 timerDelivery interruptedProgram ∧
    interruptedProgram.regs .rax = 5 ∧
    ∃ t, linkedAt2000.resumed returnAtOnce .isr33 timerDelivery interruptedProgram = some t ∧
      t.regs .rax = 0x2000 := by
  refine ⟨returnAtOnce_contract _, fun h => ?_, rfl, ?_⟩
  · have hrax : (5 : Word) = 0x2000 := rax_of_transparent h
    revert hrax
    decide
  · obtain ⟨u, hu, -⟩ := atHandler_spec linkedAt2000 returnAtOnce .isr33 timerDelivery
      interruptedProgram
    obtain ⟨t, ht, hregs, -⟩ := resumed_of_returns (returnAtOnce_contract _) hu rfl
    exact ⟨t, ht, hregs .rax⟩

end LucidiOS.Interrupt
