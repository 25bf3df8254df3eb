import LucidiOS.Interrupt.GateLayout
import LucidiOS.Segments.GlobalTable

/-! The descriptors that the kernel writes, as the processor reads them. -/
namespace LucidiOS.Boot
open ByteMemory Interrupt Segments

/-- A gate or the TSS descriptor is read as it was set, and nothing else in memory changes. -/
theorem descriptors_decode :
    (∀ (iEntry : Idt) (base : ℕ) (m : Memory) (n : Word) (flags : BitVec 8) (isr : Word)
      (ist : BitVec 8) (css : BitVec 16), n.toNat < 256 →
      let m' := (setGate n flags isr ist css iEntry).inMemory base m
      let gate := base + 16 * n.toNat
      gateAt m' gate = ⟨isr, css, ist, flags⟩ ∧
        ∀ x, x < gate ∨ gate + 16 ≤ x → m' x = iEntry.inMemory base m x) ∧
    ∀ (A : Addresses) (s : State) (base : ℕ) (m : Memory) (access flag : BitVec 8),
      let m' := (setTSS A access flag s).aGdt.inMemory base m
      let tss := base + 0x28
      systemSegmentAt m' tss =
          ⟨A.tssEntry, BitVec.ofNat 20 (TssEntry.size - 1), access, flag.setWidth 4⟩ ∧
        ∀ x, x < tss ∨ tss + 16 ≤ x → m' x = s.aGdt.inMemory base m x := by
  constructor
  · intro iEntry base m n flags isr ist css hn
    exact ⟨setGate_gateAt hn flags isr ist css m, fun _ => setGate_outside n flags isr ist css m⟩
  · intro A s base m access flag
    exact ⟨setTSS_systemSegmentAt base m, fun _ => setTSS_outside base m⟩

/-- The gate of the page fault handler. -/
theorem descriptors_decode_pageFault :
    gateAt ((setGate 14 0x8E 0xFFFFFFFF80001234 0 0x08 fun _ => ⟨0, 0, 0, 0, 0, 0, 0⟩).inMemory
      0x1000 fun _ => 0) 0x10E0 = ⟨0xFFFFFFFF80001234, 0x08, 0, 0x8E⟩ :=
  (descriptors_decode.1 (fun _ => ⟨0, 0, 0, 0, 0, 0, 0⟩) 0x1000 (fun _ => 0) 14 0x8E
    0xFFFFFFFF80001234 0 0x08 (by decide)).1

/-- An interrupt enters each stub through a gate that is present, in the code segment that
`init_gdt` has set up. -/
theorem stub_entered (A : Addresses) (s : State) : ∃ s' r, initGdt A s = some (s', r) ∧
    ∀ (I : Image) (v : Isr) (idt gdt : ℕ) (m : Memory),
      let gate := gateAt ((initInterrupts I r.cs).inMemory idt m) (idt + 16 * v.vector.toNat)
      gate.offset = I.isr v ∧ gate.attributes.getLsbD 7 = true ∧
        segmentAt (s'.aGdt.inMemory gdt m) (gdt + gate.selector.toNat) =
          ⟨0, 0xFFFFF, 0x9B, 0x0A⟩ := by
  obtain ⟨s', r, hinit, hloads⟩ := initGdt_loads A s
  refine ⟨s', r, hinit, fun I v idt gdt m => ?_⟩
  have hv : v.vector.toNat < 256 ∧ v.vector.toNat ∈ gateVectors := by cases v <;> decide
  rw [gateAt_inMemory hv.1, initInterrupts_handler, initInterrupts_selector I r.cs hv.2]
  exact ⟨rfl, (initInterrupts_present_iff I r.cs _).mpr hv.2, (hloads gdt m).1⟩

end LucidiOS.Boot
