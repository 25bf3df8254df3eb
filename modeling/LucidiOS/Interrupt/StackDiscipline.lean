import LucidiOS.Interrupt.EntryStub

/-! The stack pointer on the way into a handler and back. -/
namespace LucidiOS.Interrupt
open StackMachine ByteMemory

/-- Where the processor leaves the interrupted `rip`, below the aligned top of the stack. -/
def pushedRip (d : Delivery) : Word := alignDown d.stack - 40

/-- `isr_common` between the return of the handler and `iretq`. -/
def isrCommonUnwind : List Instr := pullAll ++ [.addImm .rsp 16]

theorem isrCommonReturn_eq : isrCommonReturn = isrCommonUnwind ++ [.iretq] := rfl

/-- The state in which the handler comes back to `isr_common`. -/
def Image.atReturn (I : Image) (other : Cpu → Option Cpu) (v : Isr) (d : Delivery) (s : Cpu) :
    Option Cpu :=
  I.run other 3 (deliver d v.hasError (I.isr v) s)

/-- The part of the frame that the stub and the processor fill in. -/
structure FrameTail (f : StackFrame) (v : Isr) (d : Delivery) (s : Cpu) : Prop where
  vector : f.vector = v.vector
  code : f.code = if v.hasError then d.error else 0
  rip : f.rip = s.rip
  cs : f.cs = s.cs.setWidth 64
  rflags : f.rflags = s.rflags
  rsp : f.rsp = s.regs .rsp
  ss : f.ss = s.ss.setWidth 64

/-- The handler gets the completed frame on an aligned stack, and `iretq` finds exactly what the
processor pushed. The call has pushed a return address below the frame. -/
structure StackDiscipline (I : Image) (other : Cpu → Option Cpu) (v : Isr) (d : Delivery)
    (s : Cpu) : Prop where
  entered : ∃ u, I.atHandler other v d s = some u ∧ u.rip = I.isrHandlerC ∧
    FrameTail (StackFrame.read u.mem (u.regs .rdi)) v d s ∧
    u.regs .rdi + BitVec.ofNat 64 (8 * 17) = pushedRip d ∧ (u.regs .rsp + 8).toNat % 16 = 0
  left : ∀ w, I.atReturn other v d s = some w →
    let t := runBlock isrCommonUnwind w
    t.regs .rsp = pushedRip d ∧
      (∀ k x, (deliveredWords d false s)[k]? = some x → t.stackWord k = x) ∧
      I.resumed other v d s = some (exec t .iretq) ∧
      exec t .iretq = { s with
        regs := Function.update t.regs .rsp (s.regs .rsp)
        mem := t.mem }

section Pointer
variable {s : Cpu}

theorem runBlock_push_rsp (rs : List Reg) (s : Cpu) :
    (runBlock (rs.map .push) s).regs .rsp = s.regs .rsp - BitVec.ofNat 64 (8 * rs.length) := by
  induction rs generalizing s with
  | nil => simp
  | cons r rs ih =>
    rw [List.map_cons, runBlock_cons, ih, exec, Cpu.push_regs_rsp, List.length_cons, Nat.mul_add,
      BitVec.ofNat_add]
    exact (BitVec.sub_sub _ _ _).trans (congrArg _ (BitVec.add_comm _ _))

theorem runBlock_pop_rsp (rs : List Reg) (s : Cpu) (h : Reg.rsp ∉ rs) :
    (runBlock (rs.map .pop) s).regs .rsp = s.regs .rsp + BitVec.ofNat 64 (8 * rs.length) := by
  induction rs generalizing s with
  | nil => simp
  | cons r rs ih =>
    have hne : Reg.rsp ≠ r := fun hc => h (by rw [hc]; exact List.mem_cons_self)
    have hpop : (exec s (.pop r)).regs .rsp = s.regs .rsp + 8 := by
      simp [exec, Cpu.setReg, hne]
    rw [List.map_cons, runBlock_cons, ih _ fun hc => h (List.mem_cons_of_mem _ hc), hpop,
      List.length_cons, Nat.mul_add, BitVec.ofNat_add, BitVec.add_assoc]
    exact congrArg _ (BitVec.add_comm _ _)

theorem deliver_rsp (d : Delivery) (hasError : Bool) (handler : Word) (s : Cpu) :
    (deliver d hasError handler s).regs .rsp = pushedRip d - if hasError then 8 else 0 := by
  cases hasError <;> simp [deliver, pushedRip, Cpu.setReg, BitVec.sub_sub]

/-- Error code or not, a stub leaves two words below the pushed `rip`. -/
theorem runBlock_isr_rsp (isrCommon isr : Word) (v : Isr) (d : Delivery) (s : Cpu) :
    (runBlock (v.code isrCommon) (deliver d v.hasError isr s)).regs .rsp = pushedRip d - 16 := by
  have hrsp := deliver_rsp d v.hasError isr s
  generalize deliver d v.hasError isr s = u at hrsp ⊢
  cases v with
  | isr8 | isr13 | isr14 =>
    simp [Isr.code, isrErr, exec, Cpu.setReg, hrsp, Isr.hasError, BitVec.sub_sub]
  | isr0 | isr1 | isr6 | isr32 | isr33 | isr50 =>
    simp [Isr.code, isrNoErr, isrHard, exec, Cpu.setReg, hrsp, Isr.hasError, BitVec.sub_sub]

theorem runBlock_isrCommonCall_rsp (isrHandlerC isrReturn : Word) (t : Cpu) :
    (runBlock (isrCommonCall isrHandlerC isrReturn) t).regs .rsp = t.regs .rsp - 128 := by
  have hpush := runBlock_push_rsp pushAllRegs t
  simp only [isrCommonCall, pushAll, runBlock_append]
  generalize runBlock (pushAllRegs.map .push) t = p at hpush
  simp [exec, Cpu.setReg, hpush, pushAllRegs, BitVec.sub_sub]

theorem runBlock_isrCommonUnwind_rsp (w : Cpu) :
    (runBlock isrCommonUnwind w).regs .rsp = w.regs .rsp + 136 := by
  have hpop := runBlock_pop_rsp pullAllRegs w (by decide)
  simp only [isrCommonUnwind, pullAll, runBlock_append]
  generalize runBlock (pullAllRegs.map .pop) w = p at hpop
  simp [exec, Cpu.setReg, hpop, pullAllRegs, BitVec.add_assoc]

end Pointer

section Run

theorem Image.run_append {I : Image} {other : Cpu → Option Cpu} {m n : ℕ} {s u : Cpu}
    (h : I.run other m s = some u) : I.run other (m + n) s = I.run other n u := by
  induction m generalizing s with
  | zero =>
    rw [Image.run, Option.some.injEq] at h
    rw [h, Nat.zero_add]
  | succ m ih =>
    rw [Image.run] at h
    cases hs : I.step other s with
    | none => simp [hs] at h
    | some w =>
      rw [hs, Option.bind_eq_bind, Option.bind_some] at h
      rw [Nat.succ_add, Image.run_succ hs, ih h]

theorem Image.run_one (I : Image) (other : Cpu → Option Cpu) (s : Cpu) :
    I.run other 1 s = I.step other s := by
  cases h : I.step other s with
  | none => simp [Image.run, h]
  | some w => rw [Image.run_succ h, Image.run]

variable {I : Image} {other : Cpu → Option Cpu} {v : Isr} {d : Delivery} {s : Cpu}

/-- On entry of the handler the stack holds the frame and the return address. -/
theorem atHandler_rsp {u : Cpu} (h : I.atHandler other v d s = some u) :
    u.regs .rsp = pushedRip d - 144 := by
  have hstub := runBlock_isr I.isrCommon (I.isr v) v d s
  have hrsp := runBlock_isr_rsp I.isrCommon (I.isr v) v d s
  have hfirst := Image.step_of_fetch (I := I) other
    (u := deliver d v.hasError (I.isr v) s) (I.fetch_isr v)
  have hsecond := Image.step_of_fetch (I := I) other (hstub.2.1 ▸ I.fetch_isrCommon)
  rw [Image.atHandler, Image.run_succ hfirst, Image.run_succ hsecond, Image.run,
    Option.some.injEq] at h
  rw [← h, runBlock_isrCommonCall_rsp, hrsp, BitVec.sub_sub]
  rfl

/-- The frame ends where the words of the processor begin, on a multiple of 16. -/
theorem pushedRip_sub_mod (d : Delivery) : (pushedRip d - 136).toNat % 16 = 0 := by
  have h := alignDown_mod d.stack
  have h176 : (176 : Word).toNat = 176 := rfl
  rw [pushedRip, BitVec.sub_sub]
  change (alignDown d.stack - 176).toNat % 16 = 0
  rw [BitVec.toNat_sub, h176]
  omega

/-- Unwinding a frame leaves the words of the processor on top of the stack. -/
theorem isrCommonUnwind_top {w : Cpu} (h : w.Top (frameWords I.isrCommon v d s)) :
    (runBlock isrCommonUnwind w).Top (deliveredWords d false s) := by
  obtain ⟨htop, -, -⟩ := runBlock_pop pullAllRegs (savedReg I.isrCommon s) h (by decide)
  rw [isrCommonUnwind, pullAll, runBlock_append, runBlock_cons, runBlock_nil]
  generalize runBlock (pullAllRegs.map .pop) w = p at htop
  exact Cpu.Top.drop [v.vector, if v.hasError then d.error else 0] htop rfl
    (by simp [exec, Cpu.setReg])

/-- The handler returns to `isr_common` with the frame it was called with. -/
theorem atReturn_spec (hc : HandlerContract I other) {w : Cpu}
    (h : I.atReturn other v d s = some w) :
    w.Top (frameWords I.isrCommon v d s) ∧ w.regs .rsp = pushedRip d - 136 ∧
      I.resumed other v d s = some (runBlock isrCommonReturn w) := by
  obtain ⟨u, hu, hrip, -, -, hrun⟩ := atHandler_spec I other v d s
  have hw : other u = some w := by
    rw [Image.atHandler] at hu
    rw [Image.atReturn, show 3 = 2 + 1 from rfl, Image.run_append hu, Image.run_one, Image.step,
      hrip, I.fetch_isrHandlerC] at h
    exact h
  obtain ⟨htop, hsp, hcall, hreturn⟩ := returns_top hc hu hw
  refine ⟨htop, ?_, ?_⟩
  · rw [hsp, atHandler_rsp hu]
    bv_omega
  · rw [hrun, Image.run_succ hcall, Image.run_succ hreturn, Image.run]

end Run

/-- Whatever the interrupted stack pointer and the error code, the handler and `iretq` find their
frames. -/
theorem stackDiscipline {I : Image} {other : Cpu → Option Cpu} (hc : HandlerContract I other)
    (v : Isr) (d : Delivery) (s : Cpu) : StackDiscipline I other v d s := by
  constructor
  · obtain ⟨u, hu, hrip, htop, hrdi, -⟩ := atHandler_spec I other v d s
    have hword (k : ℕ) (x : Word) (hk : (frameWords I.isrCommon v d s)[k]? = some x) :
        load64 u.mem (u.regs .rdi + BitVec.ofNat 64 (8 * k)).toNat = x :=
      words_at_rdi htop hrdi hk
    have hrsp := atHandler_rsp hu
    have haligned := pushedRip_sub_mod d
    refine ⟨u, hu, hrip, ⟨hword 15 _ rfl, hword 16 _ rfl, hword 17 _ rfl, hword 18 _ rfl,
      hword 19 _ rfl, hword 20 _ rfl, hword 21 _ rfl⟩, ?_, ?_⟩
    · rw [hrdi, hrsp]
      bv_omega
    · have hcall : u.regs .rsp + 8 = pushedRip d - 136 := by
        rw [hrsp]
        bv_omega
      rw [hcall, haligned]
  · intro w hw t
    obtain ⟨htop, hrsp, hresumed⟩ := atReturn_spec hc hw
    have hunwound := isrCommonUnwind_top htop
    refine ⟨?_, hunwound.word, ?_, exec_iretq d hunwound⟩
    · rw [runBlock_isrCommonUnwind_rsp, hrsp]
      exact BitVec.sub_add_cancel _ _
    · rw [hresumed, isrCommonReturn_eq, runBlock_append]
      rfl

theorem stackDiscipline_timer :
    StackDiscipline linkedAt2000 returnAtOnce .isr33 timerDelivery interruptedProgram :=
  stackDiscipline (returnAtOnce_contract linkedAt2000) .isr33 timerDelivery interruptedProgram

end LucidiOS.Interrupt
