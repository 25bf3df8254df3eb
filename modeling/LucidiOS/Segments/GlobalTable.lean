import LucidiOS.Memory.Packed
import LucidiOS.Pmm.PageBitmap

/-! The global descriptor table: `set_segment`, `set_TSS` and `init_gdt`. -/
namespace LucidiOS.Segments
open ByteMemory

structure TssEntry where
  reserved0 : BitVec 32
  rsp0 : Word
  rsp1 : Word
  rsp2 : Word
  reserved1 : Word
  ist1 : Word
  ist2 : Word
  ist3 : Word
  ist4 : Word
  ist5 : Word
  ist6 : Word
  ist7 : Word
  reserved2 : Word
  reserved3 : BitVec 16
  iopb : BitVec 16

/-- `sizeof(tss_entry_t)`. -/
def TssEntry.size : ℕ := 104

def TssEntry.bits (t : TssEntry) : BitVec (8 * TssEntry.size) :=
  t.iopb ++ t.reserved3 ++ t.reserved2 ++ t.ist7 ++ t.ist6 ++ t.ist5 ++ t.ist4 ++ t.ist3 ++
    t.ist2 ++ t.ist1 ++ t.reserved1 ++ t.rsp2 ++ t.rsp1 ++ t.rsp0 ++ t.reserved0

structure GdtDescriptor where
  limit1 : BitVec 16
  base1 : BitVec 16
  base2 : BitVec 8
  accessByte : BitVec 8
  limit2 : BitVec 4
  flags : BitVec 4
  base3 : BitVec 8

/-- The packed descriptor. Of two bit-fields in a byte the first takes the low bits. -/
def GdtDescriptor.bits (d : GdtDescriptor) : BitVec (8 * 8) :=
  d.base3 ++ d.flags ++ d.limit2 ++ d.accessByte ++ d.base2 ++ d.base1 ++ d.limit1

/-- A descriptor that is twice as long and begins in the same way. -/
structure TssDescriptor extends GdtDescriptor where
  base4 : BitVec 32
  reserved0 : BitVec 32

def TssDescriptor.bits (d : TssDescriptor) : BitVec (8 * 16) :=
  d.reserved0 ++ d.base4 ++ d.toGdtDescriptor.bits

structure TheGdt where
  null : GdtDescriptor
  kernelCs : GdtDescriptor
  userCs : GdtDescriptor
  kernelDs : GdtDescriptor
  userDs : GdtDescriptor
  tss : TssDescriptor

/-- `sizeof(a_gdt)`. -/
def TheGdt.size : ℕ := 56

def TheGdt.bits (t : TheGdt) : BitVec (8 * TheGdt.size) :=
  t.tss.bits ++ (t.userDs.bits ++ t.kernelDs.bits ++ t.userCs.bits ++ t.kernelCs.bits ++ t.null.bits)

/-- The memory with `a_gdt` at `base`. -/
def TheGdt.inMemory (t : TheGdt) (base : ℕ) (m : Memory) : Memory :=
  place m base TheGdt.size (byte t.bits)

structure Gdtr where
  limit : BitVec 16
  base : Word

/-- The registers that `lgdt`, `reload_segments` and `ltr` load; `ds` stands for all that hold the
data segment. -/
structure SegmentRegisters where
  gdtr : Gdtr
  cs : BitVec 16
  ds : BitVec 16
  tr : BitVec 16

/-- The addresses of the variables. -/
structure Addresses where
  aGdt : Word
  tssEntry : Word
  kernelStack : Word

/-- The tables of `segments.c`. -/
structure State where
  aGdt : TheGdt
  tssEntry : TssEntry

/-- The fields that each case of `set_segment` sets. -/
def flatSegment (access flag : BitVec 8) : GdtDescriptor where
  limit1 := 0xFFFF
  base1 := 0
  base2 := 0
  accessByte := access
  limit2 := 0xF
  flags := flag.setWidth 4
  base3 := 0

/-- Any other segment is an undefined instruction. -/
def setSegment (n : Word) (access flag : BitVec 8) (s : State) : Option State :=
  match n.toNat with
  | 1 => some { s with aGdt := { s.aGdt with kernelCs := flatSegment access flag } }
  | 2 => some { s with aGdt := { s.aGdt with userCs := flatSegment access flag } }
  | 3 => some { s with aGdt := { s.aGdt with kernelDs := flatSegment access flag } }
  | 4 => some { s with aGdt := { s.aGdt with userDs := flatSegment access flag } }
  | _ => none

def setTSS (A : Addresses) (access flag : BitVec 8) (s : State) : State :=
  let temp := A.tssEntry
  { aGdt := { s.aGdt with
      tss := { s.aGdt.tss with
        flags := (flag &&& 0x0F).setWidth 4
        accessByte := access
        limit1 := BitVec.ofNat 16 (TssEntry.size - 1)
        limit2 := 0
        base1 := temp.setWidth 16 &&& 0xFFFF
        base2 := (temp >>> 16).setWidth 8 &&& 0xFF
        base3 := (temp >>> 24).setWidth 8 &&& 0xFF
        base4 := (temp >>> 32).setWidth 32 &&& 0xFFFFFFFF } }
    tssEntry := { s.tssEntry with
      rsp0 := A.kernelStack + 8192
      iopb := BitVec.ofNat 16 TssEntry.size } }

/-- What `memset` leaves of the table. -/
def clearedGdt : TheGdt :=
  let null : GdtDescriptor := ⟨0, 0, 0, 0, 0, 0, 0⟩
  ⟨null, null, null, null, null, ⟨null, 0, 0⟩⟩

def initGdt (A : Addresses) (s : State) : Option (State × SegmentRegisters) := do
  let gdtReg : Gdtr := ⟨BitVec.ofNat 16 (TheGdt.size - 1), A.aGdt⟩
  let s := { s with aGdt := clearedGdt }
  let s ← setSegment 1 0x9B 0x0A s
  let s ← setSegment 2 0xFB 0x0A s
  let s ← setSegment 3 0x93 0x0C s
  let s ← setSegment 4 0xF3 0x0C s
  let s := setTSS A 0b10001001 0b0000 s
  return (s, ⟨gdtReg, 0x08, 0x18, 0x28⟩)

/-- What the processor takes from a descriptor with an address of `w` bits. -/
structure Descriptor (w : ℕ) where
  base : BitVec w
  limit : BitVec 20
  access : BitVec 8
  flags : BitVec 4
  deriving DecidableEq

/-- The descriptor of a segment at `a`. -/
def segmentAt (m : Memory) (a : ℕ) : Descriptor 32 where
  base := m (a + 7) ++ m (a + 4) ++ load16 m (a + 2)
  limit := (m (a + 6)).extractLsb' 0 4 ++ load16 m a
  access := m (a + 5)
  flags := (m (a + 6)).extractLsb' 4 4

/-- The descriptor of a system segment goes on with the upper half of the address. -/
def systemSegmentAt (m : Memory) (a : ℕ) : Descriptor 64 :=
  let low := segmentAt m a
  ⟨load32 m (a + 8) ++ low.base, low.limit, low.access, low.flags⟩

section Layout
variable {m : Memory} {a base : ℕ}

theorem segmentAt_of_holds {d : GdtDescriptor} (h : Holds m a 8 d.bits) :
    segmentAt m a =
      ⟨d.base3 ++ d.base2 ++ d.base1, d.limit2 ++ d.limit1, d.accessByte, d.flags⟩ := by
  have h0 : load16 m a = d.bits.extractLsb' 0 16 := h.load16 (i := 0) (by omega)
  have hlimit : (m (a + 6)).extractLsb' 0 4 = d.bits.extractLsb' 48 4 := by
    rw [h 6 (by omega)]
    exact byte_extractLsb' d.bits (by decide)
  have hflags : (m (a + 6)).extractLsb' 4 4 = d.bits.extractLsb' 52 4 := by
    rw [h 6 (by omega)]
    exact byte_extractLsb' d.bits (by decide)
  rw [segmentAt, hlimit, hflags, h0, h.load16 (by omega), h 4 (by omega), h 5 (by omega),
    h 7 (by omega)]
  simp (disch := decide) only [byte, GdtDescriptor.bits, BitVec.extractLsb'_append_eq_of_le,
    BitVec.extractLsb'_append_eq_of_add_le, Nat.reduceMul, Nat.reduceSub, BitVec.extractLsb'_eq_self]

theorem segmentAt_flat {access flag : BitVec 8} (h : Holds m a 8 (flatSegment access flag).bits) :
    segmentAt m a = ⟨0, 0xFFFFF, access, flag.setWidth 4⟩ := by
  simp only [segmentAt_of_holds h, flatSegment, Descriptor.mk.injEq]
  exact ⟨by decide, by decide, trivial, trivial⟩

theorem systemSegmentAt_of_holds {d : TssDescriptor} (h : Holds m a 16 d.bits) :
    systemSegmentAt m a = ⟨d.base4 ++ (d.base3 ++ d.base2 ++ d.base1), d.limit2 ++ d.limit1,
      d.accessByte, d.flags⟩ := by
  have hlow : Holds m a 8 d.toGdtDescriptor.bits := h.low rfl (by omega)
  rw [systemSegmentAt, segmentAt_of_holds hlow, h.load32 (by omega)]
  simp (disch := decide) only [TssDescriptor.bits, BitVec.extractLsb'_append_eq_of_le,
    BitVec.extractLsb'_append_eq_of_add_le, Nat.reduceMul, Nat.reduceSub, BitVec.extractLsb'_eq_self]

/-- Where the descriptors lie in the table. -/
theorem TheGdt.holds_segments (t : TheGdt) (base : ℕ) (m : Memory) :
    Holds (t.inMemory base m) base 40
      (t.userDs.bits ++ t.kernelDs.bits ++ t.userCs.bits ++ t.kernelCs.bits ++ t.null.bits) :=
  (holds_place t.bits).low rfl (by decide)

theorem TheGdt.holds_kernelCs (t : TheGdt) (base : ℕ) (m : Memory) :
    Holds (t.inMemory base m) (base + 0x08) 8 t.kernelCs.bits := by
  have h8 := Holds.high (i := 8) (n := 32) (t.holds_segments base m) rfl
  exact h8.low rfl (by decide)

theorem TheGdt.holds_kernelDs (t : TheGdt) (base : ℕ) (m : Memory) :
    Holds (t.inMemory base m) (base + 0x18) 8 t.kernelDs.bits := by
  have h8 := Holds.high (i := 8) (n := 32) (t.holds_segments base m) rfl
  have h16 := Holds.high (i := 8) (n := 24) h8 rfl
  have h24 := Holds.high (i := 8) (n := 16) h16 rfl
  exact h24.low rfl (by decide)

theorem TheGdt.holds_tss (t : TheGdt) (base : ℕ) (m : Memory) :
    Holds (t.inMemory base m) (base + 0x28) 16 t.tss.bits :=
  Holds.high (i := 40) (holds_place t.bits) rfl

end Layout

section Tss
variable {A : Addresses} {access flag : BitVec 8} {s : State}

/-- The four parts of a base give the address back. -/
theorem setTSS_base : let t := (setTSS A access flag s).aGdt.tss
    t.base4 ++ (t.base3 ++ t.base2 ++ t.base1) = A.tssEntry := by
  have h1 : A.tssEntry.setWidth 16 &&& 0xFFFF = A.tssEntry.extractLsb' 0 16 :=
    setWidth_shift_and_allOnes A.tssEntry 0 16
  have h2 : (A.tssEntry >>> 16).setWidth 8 &&& 0xFF = A.tssEntry.extractLsb' 16 8 :=
    setWidth_shift_and_allOnes A.tssEntry 16 8
  have h3 : (A.tssEntry >>> 24).setWidth 8 &&& 0xFF = A.tssEntry.extractLsb' 24 8 :=
    setWidth_shift_and_allOnes A.tssEntry 24 8
  have h4 : (A.tssEntry >>> 32).setWidth 32 &&& 0xFFFFFFFF = A.tssEntry.extractLsb' 32 32 :=
    setWidth_shift_and_allOnes A.tssEntry 32 32
  simp only [setTSS]
  rw [h1, h2, h3, h4,
    BitVec.extractLsb'_append_extractLsb'_eq_extractLsb' (show 24 = 16 + 8 from rfl),
    BitVec.extractLsb'_append_extractLsb'_eq_extractLsb' (show 16 = 0 + 16 from rfl),
    BitVec.extractLsb'_append_extractLsb'_eq_extractLsb' (show 32 = 0 + (8 + 8 + 16) from rfl)]
  exact BitVec.extractLsb'_eq_self

theorem setTSS_systemSegmentAt (base : ℕ) (m : Memory) :
    systemSegmentAt ((setTSS A access flag s).aGdt.inMemory base m) (base + 0x28) =
      ⟨A.tssEntry, BitVec.ofNat 20 (TssEntry.size - 1), access, flag.setWidth 4⟩ := by
  have hflag : (flag &&& 0x0F).setWidth 4 = flag.setWidth 4 := by
    rw [BitVec.setWidth_and]
    exact BitVec.and_allOnes
  rw [systemSegmentAt_of_holds (TheGdt.holds_tss _ base m), setTSS_base]
  simp only [setTSS, hflag]
  rfl

/-- The memory outside of the descriptor is as before. -/
theorem setTSS_outside (base : ℕ) (m : Memory) {x : ℕ} (hx : x < base + 0x28 ∨ base + 0x38 ≤ x) :
    (setTSS A access flag s).aGdt.inMemory base m x = s.aGdt.inMemory base m x := by
  refine place_congr fun i hi hxi => ?_
  have hlow : i < 40 := by
    rw [TheGdt.size] at hi
    omega
  have hsegments (t : TheGdt) : byte t.bits i = byte (t.userDs.bits ++ t.kernelDs.bits ++
      t.userCs.bits ++ t.kernelCs.bits ++ t.null.bits) i :=
    BitVec.extractLsb'_append_eq_of_add_le (by omega)
  rw [hsegments, hsegments]
  rfl

end Tss

section Init
variable (A : Addresses) (s : State)

theorem initGdt_spec : ∃ s₀ : State,
    initGdt A s = some (setTSS A 0x89 0 s₀, ⟨⟨55, A.aGdt⟩, 0x08, 0x18, 0x28⟩) ∧
      s₀.aGdt.null = clearedGdt.null ∧ s₀.aGdt.kernelCs = flatSegment 0x9B 0x0A ∧
      s₀.aGdt.userCs = flatSegment 0xFB 0x0A ∧ s₀.aGdt.kernelDs = flatSegment 0x93 0x0C ∧
      s₀.aGdt.userDs = flatSegment 0xF3 0x0C :=
  ⟨_, rfl, rfl, rfl, rfl, rfl, rfl⟩

/-- The selectors that `init_gdt` loads are those of the kernel's code, its data and the TSS. -/
theorem initGdt_loads : ∃ s' r, initGdt A s = some (s', r) ∧ ∀ base m,
    let m' := s'.aGdt.inMemory base m
    segmentAt m' (base + r.cs.toNat) = ⟨0, 0xFFFFF, 0x9B, 0x0A⟩ ∧
      segmentAt m' (base + r.ds.toNat) = ⟨0, 0xFFFFF, 0x93, 0x0C⟩ ∧
      systemSegmentAt m' (base + r.tr.toNat) = ⟨A.tssEntry, 103, 0x89, 0⟩ := by
  obtain ⟨s₀, hinit, -, hcs, -, hds, -⟩ := initGdt_spec A s
  refine ⟨_, _, hinit, fun base m => ?_⟩
  have hcode := (setTSS A 0x89 0 s₀).aGdt.holds_kernelCs base m
  have hdata := (setTSS A 0x89 0 s₀).aGdt.holds_kernelDs base m
  rw [show (setTSS A 0x89 0 s₀).aGdt.kernelCs = flatSegment 0x9B 0x0A from hcs] at hcode
  rw [show (setTSS A 0x89 0 s₀).aGdt.kernelDs = flatSegment 0x93 0x0C from hds] at hdata
  exact ⟨segmentAt_flat hcode, segmentAt_flat hdata, setTSS_systemSegmentAt base m⟩

end Init
end LucidiOS.Segments
