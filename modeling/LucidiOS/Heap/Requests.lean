import LucidiOS.Heap.KernelHeap

/-! What one request gets: `kmalloc` is exact first fit, and its memory is as large as requested
unless the rounding up of the request overflows. -/
namespace LucidiOS.Heap
open ByteMemory FirstFit

/-- A run of free blocks of the heap. -/
structure KernelHeap.FreeRun (h : KernelHeap) (s b : ℕ) : Prop where
  inside : s + b ≤ heapMaxBlocks
  free : ∀ q, s ≤ q → q < s + b → h.used q = false

/-- `h'` is `h` with `b` blocks from block `s` on taken; the memory behind the header is at `p`. -/
structure Takes (h h' : KernelHeap) (p : Word) (s b : ℕ) : Prop where
  pointer : p.toNat = heapVirtStart.toNat + 16 * s + 16
  marked : ∀ q, h'.used q = (h.used q || decide (s ≤ q ∧ q < s + b))
  header : h'.window = store64 h.window (heapVirtStart.toNat + 16 * s) (BitVec.ofNat 64 b)

/-- The memory at `p` has `amount` bytes of the heap, inside the blocks that were marked and after
the first one of them, which holds the number of blocks. -/
structure Grants (h h' : KernelHeap) (p : Word) (amount : ℕ) : Prop where
  aligned : 16 ∣ p.toNat
  above : heapVirtStart.toNat ≤ p.toNat
  below : p.toNat + amount ≤ heapVirtStart.toNat + 16 * heapMaxBlocks
  run : ∃ s b, (∀ q, h.used q = false ∧ h'.used q = true ↔ s ≤ q ∧ q < s + b) ∧
    heapVirtStart.toNat + 16 * (s + 1) = p.toNat ∧
    p.toNat + amount ≤ heapVirtStart.toNat + 16 * (s + b)
  header : (load64 h'.window (p.toNat - 16)).toNat = 1 + amount ⌈/⌉ 16

section Request
variable {h : KernelHeap} {amount : Word} {s b : ℕ}

theorem freeRun_iff :
    h.FreeRun s b ↔ s + b ≤ heapMaxBlocks ∧ freeRun (fun q => !h.used q) s b = true := by
  rw [freeRun_eq_true]
  constructor
  · intro hrun
    exact ⟨hrun.inside, fun k hk => by rw [hrun.free (s + k) (by omega) (by omega), Bool.not_false]⟩
  · rintro ⟨hin, hfree⟩
    refine ⟨hin, fun q hs hq => ?_⟩
    have := hfree (q - s) (by omega)
    rwa [Nat.add_sub_cancel' hs, Bool.not_eq_true'] at this

/-- Without overflow the blocks are a header and the request rounded up. -/
theorem blocksFor_ceil (hamount : amount.toNat + 15 < 2 ^ 64) :
    (blocksFor amount).toNat = 1 + amount.toNat ⌈/⌉ 16 := by
  have h15 : (15 : Word).toNat = 15 := rfl
  rw [blocksFor_toNat, BitVec.toNat_add, h15, Nat.mod_eq_of_lt hamount,
    Nat.ceilDiv_eq_add_pred_div, Nat.add_comm]
  rfl

/-- With overflow there is only the header. -/
theorem blocksFor_wrapped (hamount : 2 ^ 64 ≤ amount.toNat + 15) :
    (blocksFor amount).toNat = 1 := by
  have h15 : (15 : Word).toNat = 15 := rfl
  have := amount.isLt
  rw [blocksFor_toNat, BitVec.toNat_add, h15]
  omega

/-- A successful request takes the first run of free blocks that is long enough. -/
theorem kmalloc_takes (hsome : firstFit (fun q => !h.used q) (blocksFor amount).toNat
    heapMaxBlocks = some s) :
    Takes h (kmalloc amount h).2 (kmalloc amount h).1 s (blocksFor amount).toNat := by
  obtain ⟨hptr, hwindow, hused⟩ := kmalloc_some hsome
  have hs := (firstFit_eq_some.mp hsome).1
  have haddr := blockAddress_toNat (show s ≤ heapMaxBlocks by omega)
  have hstart := heapVirtStart_toNat
  have h16 := blockSize_toNat
  unfold heapMaxBlocks at hs
  refine ⟨?_, hused, ?_⟩
  · rw [hptr, BitVec.toNat_add, haddr, h16]
    omega
  · rw [hwindow, haddr, BitVec.ofNat_toNat, BitVec.setWidth_eq]

theorem Takes.ne_zero {h' : KernelHeap} {p : Word} (ht : Takes h h' p s b) : p ≠ 0 := by
  rintro rfl
  have hpointer := ht.pointer
  simp at hpointer

/-- Blocks that were free and enough for the request grant it. -/
theorem Takes.grants {h' : KernelHeap} {p : Word} {n : ℕ} (ht : Takes h h' p s b)
    (hfree : h.FreeRun s b) (hb : b = 1 + n ⌈/⌉ 16) : Grants h h' p n := by
  have hpointer := ht.pointer
  have hin := hfree.inside
  have hstart := heapVirtStart_toNat
  have hceil : n ⌈/⌉ 16 = (n + 15) / 16 := Nat.ceilDiv_eq_add_pred_div n 16
  refine ⟨by omega, by omega, by omega, ⟨s, b, fun q => ?_, by omega, by omega⟩, ?_⟩
  · rw [ht.marked]
    constructor
    · rintro ⟨hold, hnew⟩
      rwa [hold, Bool.false_or, decide_eq_true_eq] at hnew
    · intro hq
      exact ⟨hfree.free q hq.1 hq.2, by rw [decide_eq_true hq, Bool.or_true]⟩
  · unfold heapMaxBlocks at hin
    rw [ht.header, hpointer, Nat.add_sub_cancel, load64_store64_same, BitVec.toNat_ofNat, ← hb]
    exact Nat.mod_eq_of_lt (by omega)

/-- No memory of the heap has so many bytes that their rounding up overflows. -/
theorem Grants.no_overflow {h' : KernelHeap} {p : Word} {n : ℕ} (hg : Grants h h' p n) :
    n + 15 < 2 ^ 64 := by
  have hbelow := hg.below
  have hstart := heapVirtStart_toNat
  unfold heapMaxBlocks at hbelow
  omega

end Request

/-- A request is granted in full or refused, exactly when its rounding up does not overflow or no
block is free at all. -/
theorem kmalloc_grants_iff (amount : Word) (h : KernelHeap) :
    ((kmalloc amount h).1 ≠ 0 →
      Grants h (kmalloc amount h).2 (kmalloc amount h).1 amount.toNat) ↔
    amount.toNat + 15 < 2 ^ 64 ∨ ∀ q < heapMaxBlocks, h.used q = true := by
  cases hfit : firstFit (fun q => !h.used q) (blocksFor amount).toNat heapMaxBlocks with
  | none =>
    have hnull : (kmalloc amount h).1 = 0 := by rw [kmalloc_none hfit]
    refine iff_of_true (fun hne => absurd hnull hne) ?_
    by_cases hamount : amount.toNat + 15 < 2 ^ 64
    · exact .inl hamount
    · right
      intro q hq
      have hnone := firstFit_eq_none.mp hfit q
      rw [blocksFor_wrapped (by omega)] at hnone
      simpa [freeRun] using hnone hq
  | some s =>
    obtain ⟨hs, hrun, -⟩ := firstFit_eq_some.mp hfit
    have htakes := kmalloc_takes hfit
    constructor
    · intro hgrants
      exact .inl (hgrants htakes.ne_zero).no_overflow
    · rintro (hamount | hfull) -
      · exact htakes.grants (freeRun_iff.mpr ⟨hs, hrun⟩) (blocksFor_ceil hamount)
      · have hfirst := (freeRun_iff.mpr ⟨hs, hrun⟩).free s (Nat.le_refl s)
          (by have := blocksFor_pos amount; omega)
        rw [hfull s (by have := blocksFor_pos amount; omega)] at hfirst
        contradiction

/-- The largest request of all gets a header and no memory. -/
theorem kmalloc_wrapped_not_granted :
    (kmalloc 0xFFFFFFFFFFFFFFFF ⟨fun _ => 0, fun _ => 0⟩).1 = 0xFFFF800000000010 ∧
      blocksFor 0xFFFFFFFFFFFFFFFF = 1 ∧
      ¬((kmalloc 0xFFFFFFFFFFFFFFFF ⟨fun _ => 0, fun _ => 0⟩).1 ≠ 0 →
        Grants ⟨fun _ => 0, fun _ => 0⟩
          (kmalloc 0xFFFFFFFFFFFFFFFF ⟨fun _ => 0, fun _ => 0⟩).2
          (kmalloc 0xFFFFFFFFFFFFFFFF ⟨fun _ => 0, fun _ => 0⟩).1 0xFFFFFFFFFFFFFFFF) := by
  have hp : (kmalloc 0xFFFFFFFFFFFFFFFF ⟨fun _ => 0, fun _ => 0⟩).1 = 0xFFFF800000000010 := by
    decide
  refine ⟨hp, by decide, fun hgrants => ?_⟩
  have := (hgrants (by rw [hp]; decide)).no_overflow
  omega

/-- Unless its rounding up overflows a request takes the first run of free blocks that is long
enough, and is refused without any change when there is none. -/
theorem kmalloc_first_fit (amount : Word) (h : KernelHeap) (hamount : amount.toNat + 15 < 2 ^ 64) :
    ((kmalloc amount h).1 = 0 ↔ ¬∃ s, h.FreeRun s (amount.toNat ⌈/⌉ 16 + 1)) ∧
    ((kmalloc amount h).1 = 0 → (kmalloc amount h).2 = h) ∧
    ∀ s, h.FreeRun s (amount.toNat ⌈/⌉ 16 + 1) →
      (∀ t < s, ¬h.FreeRun t (amount.toNat ⌈/⌉ 16 + 1)) →
      Takes h (kmalloc amount h).2 (kmalloc amount h).1 s (amount.toNat ⌈/⌉ 16 + 1) := by
  rw [Nat.add_comm _ 1, ← blocksFor_ceil hamount]
  cases hfit : firstFit (fun q => !h.used q) (blocksFor amount).toNat heapMaxBlocks with
  | none =>
    have hnone (s : ℕ) : ¬h.FreeRun s (blocksFor amount).toNat := by
      intro hrun
      obtain ⟨hs, hfree⟩ := freeRun_iff.mp hrun
      rw [firstFit_eq_none.mp hfit s hs] at hfree
      contradiction
    rw [kmalloc_none hfit]
    exact ⟨iff_of_true rfl fun ⟨s, hrun⟩ => hnone s hrun, fun _ => rfl,
      fun s hrun => absurd hrun (hnone s)⟩
  | some s =>
    obtain ⟨hs, hfree, hleast⟩ := firstFit_eq_some.mp hfit
    have hrun : h.FreeRun s (blocksFor amount).toNat := freeRun_iff.mpr ⟨hs, hfree⟩
    have htakes := kmalloc_takes hfit
    refine ⟨iff_of_false htakes.ne_zero fun hno => hno ⟨s, hrun⟩,
      fun h0 => absurd h0 htakes.ne_zero, fun t ht hfirst => ?_⟩
    -- both runs are the first one
    obtain hlt | rfl | hgt := Nat.lt_trichotomy s t
    · exact absurd hrun (hfirst s hlt)
    · exact htakes
    · have hbefore := hleast t hgt
      rw [(freeRun_iff.mp ht).2] at hbefore
      contradiction

/-- The gap in front is too short for four blocks. -/
theorem kmalloc_first_fit_gapped :
    Takes gappedHeap (kmalloc 40 gappedHeap).2 (kmalloc 40 gappedHeap).1 8 4 := by
  have hused : ∀ q < 12, gappedHeap.used q = decide (2 ≤ q ∧ q < 8) := by decide +kernel
  refine (kmalloc_first_fit 40 gappedHeap (by decide)).2.2 8 ⟨by decide, fun q h8 hq => ?_⟩
    fun t ht hrun => ?_
  · rw [hused q hq, decide_eq_false_iff_not]
    omega
  · have hfree := hrun.free (max t 2) (by omega) (by change _ < t + 4; omega)
    rw [hused _ (by omega), decide_eq_false_iff_not] at hfree
    omega

end LucidiOS.Heap
