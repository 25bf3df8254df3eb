import LucidiOS.Vmm.Correctness

/-! The writes of `vmm_alloc` one by one, and what they are when `pmm_alloc2` has no page left. -/
namespace LucidiOS.Vmm
open ByteMemory Paging Pmm

/-- A write of `vmm_alloc`: to the page bitmap, to all of a new table, to an entry that names a
table, or to the entry of the page. -/
inductive VmmWrite
  | lock (page : Word)
  | clear (table : Word)
  | link (slot entry : Word)
  | map (slot entry : Word)

def VmmWrite.apply (s : Kernel) (m : Memory) : VmmWrite → Memory
  | .lock page => pmmLockPage s.pmm page m
  | .clear table => memset s.gHhdmOffset table 0 4096 m
  | .link slot entry => store64 m (phys s.gHhdmOffset slot) entry
  | .map slot entry => store64 m (phys s.gHhdmOffset slot) entry

/-- The pointers to the bytes written. -/
def VmmWrite.bytes (s : Kernel) : VmmWrite → List Word
  | .lock page => (List.range 8).map fun i => s.bitmap + 8 * (page / 64) + BitVec.ofNat 64 i
  | .clear table => (List.range 4096).map fun i => table + BitVec.ofNat 64 i
  | .link slot _ => (List.range 8).map fun i => slot + BitVec.ofNat 64 i
  | .map slot _ => (List.range 8).map fun i => slot + BitVec.ofNat 64 i

def pmmAlloc2Writes (s : Kernel) : List VmmWrite :=
  match pmmScan s.pmm s.bitmapLength s.mem with
  | some (i, j) => [.lock (BitVec.ofNat 64 (i * 64 + j))]
  | none => []

def entrySlot (tableVirt index : Word) : Word := tableVirt + BitVec.ofNat 64 (8 * index.toNat)

def nextTableWrites (tableVirt index : Word) (s : Kernel) : List VmmWrite :=
  let table := pointerArray s.gHhdmOffset tableVirt
  if table.get s.mem index.toNat &&& ptePresent = 0 then
    let newTable := (pmmAlloc2 s.pmm s.bitmapLength s.mem).1
    pmmAlloc2Writes s ++ [.clear (newTable + s.gHhdmOffset),
      .link (entrySlot tableVirt index) (newTable ||| ptePresent ||| pteWritable)]
  else []

/-- The writes of `vmm_alloc` in order. -/
def vmmAllocWrites (virt physAddr : Word) (flags : BitVec 8) (s : Kernel) : List VmmWrite :=
  let pml4Phys := s.cr3 &&& 0x000FFFFFFFFFF000
  let pml4Virt := pml4Phys + s.gHhdmOffset
  let pml4Index := (virt >>> 39) &&& 0x1FF
  let pdptIndex := (virt >>> 30) &&& 0x1FF
  let pdIndex := (virt >>> 21) &&& 0x1FF
  let ptIndex := (virt >>> 12) &&& 0x1FF
  let pdpt := nextTable pml4Virt pml4Index s
  let pd := nextTable pdpt.table pdptIndex pdpt.kernel
  let pt := nextTable pd.table pdIndex pd.kernel
  nextTableWrites pml4Virt pml4Index s ++ nextTableWrites pdpt.table pdptIndex pdpt.kernel ++
    nextTableWrites pd.table pdIndex pd.kernel ++
    [.map (entrySlot pt.table ptIndex) ((physAddr &&& pteMask) ||| flags.setWidth 64 ||| 1)]

/-- Running out of pages does no harm: page 0 is not written, no entry names it as a table, and
every translation stays. -/
structure ExhaustionSafe (virt physAddr : Word) (flags : BitVec 8) (s : Kernel) : Prop where
  page0 : ∀ w ∈ vmmAllocWrites virt physAddr flags s, ∀ p ∈ w.bytes s,
    4096 ≤ phys s.gHhdmOffset p
  entries : ∀ slot e, .link slot e ∈ vmmAllocWrites virt physAddr flags s → frame e ≠ 0
  translations : ∀ v a, translateAddr s.mem s.root v = some a →
    translateAddr (vmmAlloc virt physAddr flags s).1.mem
      (vmmAlloc virt physAddr flags s).1.root v = some a

section Replay
variable {s t : Kernel}

theorem VmmWrite.apply_congr (h : SameGlobals s t) (m : Memory) (w : VmmWrite) :
    w.apply t m = w.apply s m := by
  cases w <;> simp only [VmmWrite.apply, h.pmm_eq, h.hhdm_eq]

theorem pmmAlloc2Writes_apply (s : Kernel) :
    (pmmAlloc2Writes s).foldl (VmmWrite.apply s) s.mem =
      (pmmAlloc2 s.pmm s.bitmapLength s.mem).2 := by
  unfold pmmAlloc2Writes pmmAlloc2
  cases pmmScan s.pmm s.bitmapLength s.mem with
  | none => rfl
  | some ij => rfl

theorem nextTableWrites_apply (tableVirt index : Word) (h : SameGlobals s t) :
    (nextTableWrites tableVirt index t).foldl (VmmWrite.apply s) t.mem =
      (nextTable tableVirt index t).kernel.mem := by
  have hfun : VmmWrite.apply s = VmmWrite.apply t := by
    funext m w
    exact (w.apply_congr h m).symm
  rw [hfun]
  unfold nextTableWrites nextTable
  dsimp only
  split_ifs with habsent
  · rw [List.foldl_append, pmmAlloc2Writes_apply]
    rfl
  · rfl

/-- The writes are all that `vmm_alloc` does. -/
theorem vmmAllocWrites_apply (virt physAddr : Word) (flags : BitVec 8) (s : Kernel) :
    (vmmAllocWrites virt physAddr flags s).foldl (VmmWrite.apply s) s.mem =
      (vmmAlloc virt physAddr flags s).1.mem := by
  have hself : SameGlobals s s := SameGlobals.set_mem s s.mem
  simp only [vmmAllocWrites, vmmAlloc, List.foldl_append, nextTableWrites_apply _ _ hself]
  have h1 := nextTable_globals ((s.cr3 &&& 0x000FFFFFFFFFF000) + s.gHhdmOffset)
    ((virt >>> 39) &&& 0x1FF) s
  generalize nextTable _ ((virt >>> 39) &&& 0x1FF) s = pdpt at h1 ⊢
  have h2 := h1.trans (nextTable_globals pdpt.table ((virt >>> 30) &&& 0x1FF) pdpt.kernel)
  rw [nextTableWrites_apply _ _ h1, nextTableWrites_apply _ _ h2]
  rfl

end Replay

section Exhausted
variable {s t : Kernel} {tableVirt index virt physAddr : Word} {flags : BitVec 8}

/-- A step that gets no page clears page 0 and enters it as a table. -/
theorem nextTable_exhausted (hs : SameGlobals s t)
    (h : 0 ∈ (nextTable tableVirt index t).results) :
    .clear (0 + s.gHhdmOffset) ∈ nextTableWrites tableVirt index t ∧
      .link (entrySlot tableVirt index) (0 ||| ptePresent ||| pteWritable) ∈
        nextTableWrites tableVirt index t := by
  unfold nextTable at h
  unfold nextTableWrites
  dsimp only at h ⊢
  split_ifs at h ⊢ with habsent
  · have hzero : (pmmAlloc2 t.pmm t.bitmapLength t.mem).1 = 0 :=
      (List.mem_singleton.mp h).symm
    rw [hzero, ← hs.hhdm_eq]
    exact ⟨List.mem_append_right _ List.mem_cons_self,
      List.mem_append_right _ (List.mem_cons_of_mem _ List.mem_cons_self)⟩
  · exact absurd h List.not_mem_nil

/-- At whichever level `pmm_alloc2` fails, page 0 is cleared and entered as a table. -/
theorem vmmAlloc_exhausted (h : 0 ∈ (vmmAlloc virt physAddr flags s).2) :
    .clear (0 + s.gHhdmOffset) ∈ vmmAllocWrites virt physAddr flags s ∧
      ∃ slot, .link slot (0 ||| ptePresent ||| pteWritable) ∈
        vmmAllocWrites virt physAddr flags s := by
  have h1 := nextTable_globals ((s.cr3 &&& 0x000FFFFFFFFFF000) + s.gHhdmOffset)
    ((virt >>> 39) &&& 0x1FF) s
  simp only [vmmAlloc, List.mem_append] at h
  simp only [vmmAllocWrites, List.mem_append]
  rcases h with (h | h) | h
  · obtain ⟨hclear, hlink⟩ := nextTable_exhausted (SameGlobals.set_mem s s.mem) h
    exact ⟨.inl (.inl (.inl hclear)), _, .inl (.inl (.inl hlink))⟩
  · obtain ⟨hclear, hlink⟩ := nextTable_exhausted h1 h
    exact ⟨.inl (.inl (.inr hclear)), _, .inl (.inl (.inr hlink))⟩
  · obtain ⟨hclear, hlink⟩ := nextTable_exhausted (h1.trans (nextTable_globals _ _ _)) h
    exact ⟨.inl (.inr hclear), _, .inl (.inr hlink)⟩

theorem ExhaustionSafe.not_clear (h : ExhaustionSafe virt physAddr flags s) :
    .clear (0 + s.gHhdmOffset) ∉ vmmAllocWrites virt physAddr flags s := by
  intro hclear
  have hfirst := h.page0 _ hclear (0 + s.gHhdmOffset) (List.mem_map.mpr ⟨0, by simp, by simp⟩)
  rw [phys_add_self] at hfirst
  exact absurd hfirst (by decide)

end Exhausted

/-- No call that runs out of pages is harmless. -/
theorem vmmAlloc_not_exhaustionSafe (virt physAddr : Word) (flags : BitVec 8) (s : Kernel)
    (h : 0 ∈ (vmmAlloc virt physAddr flags s).2) : ¬ExhaustionSafe virt physAddr flags s :=
  fun hsafe => hsafe.not_clear (vmmAlloc_exhausted h).1

/-- The empty hierarchy with no page left. -/
def exhaustedTables : Kernel :=
  { emptyTables with mem := ofWords fun k => if k = 1024 then ~~~0 else 0 }

theorem exhaustedTables_results : 0 ∈ (vmmAlloc 0x40000000 0x5000 3 exhaustedTables).2 := by
  have hfirst : (nextTable ((exhaustedTables.cr3 &&& 0x000FFFFFFFFFF000) +
      exhaustedTables.gHhdmOffset) (((0x40000000 : Word) >>> 39) &&& 0x1FF) exhaustedTables).results =
      [0] := by decide +kernel
  simp only [vmmAlloc, hfirst]
  simp

theorem exhaustedTables_not_safe : ¬ExhaustionSafe 0x40000000 0x5000 3 exhaustedTables :=
  vmmAlloc_not_exhaustionSafe 0x40000000 0x5000 3 exhaustedTables exhaustedTables_results

/-- The call clears page 0 and enters it as a table. -/
theorem exhausted_page0_table :
    0 ∈ (vmmAlloc 0x40000000 0x5000 3 exhaustedTables).2 ∧
      .clear 0 ∈ vmmAllocWrites 0x40000000 0x5000 3 exhaustedTables ∧
      (∃ slot, .link slot 3 ∈ vmmAllocWrites 0x40000000 0x5000 3 exhaustedTables) ∧
      ¬ExhaustionSafe 0x40000000 0x5000 3 exhaustedTables := by
  obtain ⟨hclear, hlink⟩ := vmmAlloc_exhausted exhaustedTables_results
  exact ⟨exhaustedTables_results, hclear, hlink, fun h => h.not_clear hclear⟩

end LucidiOS.Vmm
