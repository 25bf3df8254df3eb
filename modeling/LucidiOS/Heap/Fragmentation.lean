import LucidiOS.Allocation.Fragmentation
import LucidiOS.Heap.Backing
import LucidiOS.Heap.Requests

/-! When the heap is fragmented: how full it is when a request fails, and heaps whose requests are
all of one size. -/
namespace LucidiOS.Heap
open ByteMemory FirstFit

/-- The blocks held by live allocations, headers included. -/
def liveBlocks (live : List Allocation) : ℕ := (live.map fun a => a.blocks.toNat).sum

section Refusal
variable {ok : KernelHeap → Word → Prop} {h : KernelHeap} {live : List Allocation}

/-- The blocks in use are those of the live allocations. -/
theorem heapRun_used (run : HeapRun ok h live) (q : ℕ) :
    h.used q = true ↔ ∃ a ∈ live, q ∈ a.run := by
  have := (heapRun_refines run).1.inv.occupied_iff q
  simpa [blockPool] using this

/-- The live allocations do not overlap. -/
theorem heapRun_disjoint (run : HeapRun ok h live) :
    live.Pairwise fun a b => Disjoint a.run b.run := by
  have hd := (heapRun_refines run).1.inv.disjoint
  rw [blockPool, List.pairwise_map] at hd
  exact hd

theorem heapRun_apart (run : HeapRun ok h live) {a c : Allocation} (ha : a ∈ live) (hc : c ∈ live)
    (hne : a ≠ c) : Disjoint a.run c.run := by
  have : Std.Symm fun a b : Allocation => Disjoint a.run b.run := ⟨fun _ _ hd => hd.symm⟩
  exact (heapRun_disjoint run).forall ha hc hne

theorem heapRun_nodup (run : HeapRun ok h live) : live.Nodup := by
  refine (heapRun_disjoint run).imp_of_mem fun {a b} ha _ hd hab => ?_
  have hpos := ((heapRun_refines run).2 a ha).nonempty
  have hmem : a.start ∈ a.run := ⟨Nat.le_refl _, by omega⟩
  exact Set.disjoint_left.mp hd hmem (hab ▸ hmem)

theorem card_used_le (run : HeapRun ok h live) (n : ℕ) :
    ((Finset.range n).filter fun q => h.used q = true).card ≤ liveBlocks live := by
  have hsub : ((Finset.range n).filter fun q => h.used q = true) ⊆
      live.toFinset.biUnion fun a => Finset.Ico a.start (a.start + a.blocks.toNat) := by
    intro q hq
    obtain ⟨a, ha, hq⟩ := (heapRun_used run q).mp (Finset.mem_filter.mp hq).2
    exact Finset.mem_biUnion.mpr ⟨a, List.mem_toFinset.mpr ha, Finset.mem_Ico.mpr hq⟩
  refine (Finset.card_le_card hsub).trans (Finset.card_biUnion_le.trans ?_)
  rw [liveBlocks, ← List.sum_toFinset _ (heapRun_nodup run)]
  simp

/-- A request is refused only by a heap whose live blocks and short gaps, at most one more than
there are live allocations, fill it. -/
theorem kmalloc_refused (run : HeapRun ok h live) (amount : Word)
    (hnull : (kmalloc amount h).1 = 0) :
    heapMaxBlocks ≤ liveBlocks live + (live.length + 1) * ((blocksFor amount).toNat - 1) := by
  have hnone : firstFit (fun q => !h.used q) (blocksFor amount).toNat heapMaxBlocks = none := by
    cases hfit : firstFit (fun q => !h.used q) (blocksFor amount).toNat heapMaxBlocks with
    | none => rfl
    | some s => exact absurd hnull (kmalloc_takes hfit).ne_zero
  have hfree := card_free_le (blocksFor_pos amount) hnone
    (live.map fun a => a.start + a.blocks.toNat).toFinset fun g _ hg hgfree hbefore => by
      obtain ⟨a, ha, hrun⟩ := (heapRun_used run (g - 1)).mp (by simpa using hbefore)
      have hout : g ∉ a.run := fun hc => by
        rw [(heapRun_used run g).mpr ⟨a, ha, hc⟩] at hgfree
        contradiction
      rw [List.mem_toFinset, List.mem_map]
      refine ⟨a, ha, ?_⟩
      simp only [Allocation.run, Set.mem_ofPred_eq, not_and, Nat.not_lt] at hrun hout
      have := hout (by omega)
      omega
  have hends := List.toFinset_card_le (live.map fun a => a.start + a.blocks.toNat)
  rw [List.length_map] at hends
  have hcount := card_used_le run heapMaxBlocks
  have hsplit := Finset.card_filter_add_card_filter_not (s := Finset.range heapMaxBlocks)
    fun q => h.used q = true
  rw [Finset.card_range] at hsplit
  simp only [Bool.not_eq_true', Bool.not_eq_true] at hfree hsplit
  have hmul := Nat.mul_le_mul_right ((blocksFor amount).toNat - 1) (Nat.add_le_add_right hends 1)
  omega

end Refusal

section Split

/-- A heap that is in use up to block `n` goes on there. -/
theorem kmalloc_packed {h : KernelHeap} {n : ℕ} (hused : ∀ q, h.used q = decide (q < n))
    {amount : Word} (hfit : n + (blocksFor amount).toNat ≤ heapMaxBlocks) :
    (kmalloc amount h).1 = blockAddress n + blockSize ∧
      ∀ q, (kmalloc amount h).2.used q = decide (q < n + (blocksFor amount).toNat) := by
  have hsome : firstFit (fun q => !h.used q) (blocksFor amount).toNat heapMaxBlocks = some n := by
    refine firstFit_eq_some.mpr ⟨hfit, freeRun_eq_true.mpr fun k _ => ?_, fun t ht => ?_⟩
    · rw [hused, decide_eq_false (by omega), Bool.not_false]
    · rw [← Bool.not_eq_true, freeRun_eq_true]
      intro hfree
      have := hfree 0 (blocksFor_pos amount)
      rw [Nat.add_zero, hused, decide_eq_true ht] at this
      contradiction
  obtain ⟨hptr, -, hmarked⟩ := kmalloc_some hsome
  refine ⟨hptr, fun q => ?_⟩
  rw [hmarked, hused, ← Bool.decide_or, decide_eq_decide]
  omega

/-- Its only live allocation has the two blocks in the middle. -/
def splitHeap : KernelHeap :=
  kfree 0xFFFF800000000010 (kmalloc 16 (kmalloc 0x3FFFE0 emptyHeap).2).2

theorem splitHeap_run :
    HeapRun (fun _ _ => True) splitHeap [⟨0xFFFF800000400000, 2⟩] := by
  have hblocks : (blocksFor 0x3FFFE0).toNat = 262143 := by decide
  have hblocks' : (blocksFor 16).toNat = 2 := by decide
  obtain ⟨hptr, hused⟩ := kmalloc_packed
    (fun q => by rw [emptyHeap_used, decide_eq_false (Nat.not_lt_zero q)])
    (show 0 + (blocksFor 0x3FFFE0).toNat ≤ heapMaxBlocks by rw [hblocks]; decide)
  obtain ⟨hptr', -⟩ := kmalloc_packed hused
    (show _ + (blocksFor 16).toNat ≤ heapMaxBlocks by rw [hblocks, hblocks']; decide)
  have h1 : (kmalloc 0x3FFFE0 emptyHeap).1 = 0xFFFF800000000010 := by
    rw [hptr]
    decide
  have h2 : (kmalloc 16 (kmalloc 0x3FFFE0 emptyHeap).2).1 = 0xFFFF800000400000 := by
    rw [hptr', hblocks]
    decide
  have hstart : HeapRun (fun _ _ => True) emptyHeap [] := .start fun _ => 0
  have hrun := (hstart.kmalloc 0x3FFFE0 trivial).kmalloc 16 trivial
  have hlive : holdPointer 0xFFFF800000400000 16 (holdPointer 0xFFFF800000000010 0x3FFFE0 []) =
      [⟨0xFFFF800000400000, 2⟩, ⟨0xFFFF800000000010, 262143⟩] := by decide
  have herase : List.erase [⟨0xFFFF800000400000, 2⟩, ⟨0xFFFF800000000010, 262143⟩]
      (⟨0xFFFF800000000010, 262143⟩ : Allocation) = [⟨0xFFFF800000400000, 2⟩] := by decide
  rw [h1, h2, hlive] at hrun
  have hfree := hrun.kfree (a := ⟨0xFFFF800000000010, 262143⟩)
    (List.mem_cons_of_mem _ List.mem_cons_self)
  rw [herase] at hfree
  exact hfree

/-- A request for half of the heap is refused, and the bound is attained. -/
theorem kmalloc_refused_split : (kmalloc 0x3FFFF0 splitHeap).1 = 0 ∧
    heapMaxBlocks = liveBlocks [⟨0xFFFF800000400000, 2⟩] +
      (1 + 1) * ((blocksFor 0x3FFFF0).toNat - 1) := by
  have hblocks : (blocksFor 0x3FFFF0).toNat = 262144 := by decide
  have hstart : (⟨0xFFFF800000400000, 2⟩ : Allocation).start = 262143 := by decide
  have hmiddle (q : ℕ) (hq : q = 262143 ∨ q = 262144) : splitHeap.used q = true := by
    refine (heapRun_used splitHeap_run q).mpr ⟨_, List.mem_cons_self, ?_⟩
    have htwo : (2 : Word).toNat = 2 := rfl
    rw [Allocation.run, Set.mem_ofPred_eq, hstart, htwo]
    omega
  have hnull : (kmalloc 0x3FFFF0 splitHeap).1 = 0 := by
    rw [kmalloc_none]
    refine firstFit_eq_none.mpr fun s hs => ?_
    rw [hblocks] at hs ⊢
    unfold heapMaxBlocks at hs
    rw [← Bool.not_eq_true, freeRun_eq_true]
    intro hfree
    -- every run of that length has a block in the middle
    have := hfree (max s 262143 - s) (by omega)
    rw [hmiddle _ (by omega)] at this
    contradiction
  exact ⟨hnull, le_antisymm (kmalloc_refused splitHeap_run 0x3FFFF0 hnull) (by decide)⟩

end Split

section Uniform
variable {h : KernelHeap} {live : List Allocation} {b : ℕ}

/-- Every request is for `b` blocks. -/
def ForBlocks (b : ℕ) (_ : KernelHeap) (amount : Word) : Prop := (blocksFor amount).toNat = b

/-- The live allocations fill whole slots of `b` blocks. -/
def Slotted (b : ℕ) (live : List Allocation) : Prop :=
  ∀ a ∈ live, a.blocks.toNat = b ∧ b ∣ a.start

/-- In a slot either all blocks are in use or none. -/
theorem Slotted.slot (hslot : Slotted b live) (hused : ∀ q, h.used q = true ↔
    ∃ a ∈ live, q ∈ a.run) {p q : ℕ} (hpq : p / b = q / b) (hp : h.used p = true) :
    h.used q = true := by
  obtain ⟨a, ha, hrun⟩ := (hused p).mp hp
  obtain ⟨hblocks, k, hk⟩ := hslot a ha
  refine (hused q).mpr ⟨a, ha, ?_⟩
  rw [Allocation.run, Set.mem_ofPred_eq, hblocks, hk] at hrun ⊢
  have hb : 0 < b := by
    by_contra hc
    obtain rfl : b = 0 := by omega
    omega
  have hdiv : p / b = k := by
    rw [Nat.div_eq_iff hb, Nat.mul_comm k b]
    omega
  have hq := Nat.div_add_mod q b
  have hlt := Nat.mod_lt q hb
  rw [← hpq, hdiv] at hq
  omega

/-- Among whole slots the first fit is a slot. -/
theorem Slotted.first (hslot : Slotted b live) (hused : ∀ q, h.used q = true ↔
    ∃ a ∈ live, q ∈ a.run) (hb : 0 < b) {s : ℕ}
    (hsome : firstFit (fun q => !h.used q) b heapMaxBlocks = some s) : b ∣ s := by
  obtain ⟨hs, hrun, hleast⟩ := firstFit_eq_some.mp hsome
  have hfree := freeRun_eq_true.mp hrun 0 hb
  by_contra hc
  have hmod := Nat.div_add_mod s b
  have hpos : s % b ≠ 0 := fun hz => hc (Nat.dvd_of_mod_eq_zero hz)
  -- the slot of `s` starts before it and is free as well
  have hbefore := hleast (b * (s / b)) (by omega)
  rw [← Bool.not_eq_true, freeRun_eq_true] at hbefore
  refine hbefore fun k hk => ?_
  rw [Bool.not_eq_true', ← Bool.not_eq_true]
  intro hk'
  have hsame : (b * (s / b) + k) / b = (s + 0) / b := by
    rw [Nat.mul_add_div hb, Nat.div_eq_of_lt hk, Nat.add_zero, Nat.add_zero]
  rw [hslot.slot hused hsame hk'] at hfree
  contradiction

theorem heapRun_slotted (run : HeapRun (ForBlocks b) h live) : Slotted b live := by
  induction run with
  | start => exact fun a ha => absurd ha List.not_mem_nil
  | @kmalloc h live run amount hok ih =>
    cases hfit : firstFit (fun q => !h.used q) (blocksFor amount).toNat heapMaxBlocks with
    | none =>
      rw [kmalloc_none hfit, holdPointer, if_pos rfl]
      exact ih
    | some s =>
      rw [holdPointer, if_neg (kmalloc_takes hfit).ne_zero]
      intro a ha
      rcases List.mem_cons.mp ha with rfl | ha
      · obtain ⟨-, hstart, -⟩ := kmalloc_intact hfit
        have hb : (blocksFor amount).toNat = b := hok
        refine ⟨hb, ?_⟩
        rw [hstart]
        exact ih.first (heapRun_used run) (hb ▸ blocksFor_pos amount) (hb ▸ hfit)
      · exact ih a ha
  | kfree _ _ ih => exact fun a ha => ih a (List.mem_of_mem_erase ha)
  | kfreeNull _ ih => exact ih
  | client _ _ _ ih => exact ih

/-- The slots that are taken. -/
def slots (b : ℕ) (live : List Allocation) : Finset ℕ :=
  live.toFinset.image fun a => a.start / b

theorem Slotted.start_eq (hslot : Slotted b live) {a : Allocation} (ha : a ∈ live) :
    a.start = b * (a.start / b) := (Nat.mul_div_cancel' (hslot a ha).2).symm

theorem card_slots (run : HeapRun (ForBlocks b) h live) : (slots b live).card = live.length := by
  have hslot := heapRun_slotted run
  rw [slots, Finset.card_image_of_injOn, List.toFinset_card_of_nodup (heapRun_nodup run)]
  intro a ha c hc heq
  have ha' : a ∈ live := by simpa using ha
  have hc' : c ∈ live := by simpa using hc
  have hstart : a.start = c.start := by
    rw [hslot.start_eq ha', hslot.start_eq hc']
    exact congrArg (b * ·) heq
  by_contra hne
  have hpos := ((heapRun_refines run).2 a ha').nonempty
  have hmem : a.start ∈ a.run := ⟨Nat.le_refl _, by omega⟩
  have hmem' : a.start ∈ c.run :=
    ⟨hstart.ge, by rw [(hslot c hc').1, ← (hslot a ha').1]; omega⟩
  exact Set.disjoint_left.mp (heapRun_apart run ha' hc' hne) hmem hmem'

theorem slots_subset (run : HeapRun (ForBlocks b) h live) :
    slots b live ⊆ Finset.range (heapMaxBlocks / b) := by
  intro j hj
  obtain ⟨a, ha, rfl⟩ := Finset.mem_image.mp hj
  have ha' : a ∈ live := by simpa using ha
  have hintact := (heapRun_refines run).2 a ha'
  obtain ⟨hblocks, -⟩ := heapRun_slotted run a ha'
  have hpos := hintact.nonempty
  have hinside := hintact.inside
  have hstart := (heapRun_slotted run).start_eq ha'
  have hbpos : 0 < b := by omega
  rw [Finset.mem_range, Nat.lt_iff_add_one_le, Nat.le_div_iff_mul_le hbpos, Nat.add_mul,
    Nat.mul_comm _ b, ← hstart]
  omega

/-- A slot has a used block exactly when it is taken. -/
theorem mem_slots_iff (run : HeapRun (ForBlocks b) h live) {q : ℕ} (hb : 0 < b) :
    q / b ∈ slots b live ↔ h.used q = true := by
  have hslot := heapRun_slotted run
  rw [heapRun_used run, slots, Finset.mem_image]
  refine exists_congr fun a => ?_
  rw [List.mem_toFinset]
  refine and_congr_right fun ha => ?_
  have hstart := hslot.start_eq ha
  have hdiv := Nat.div_add_mod q b
  have hlt := Nat.mod_lt q hb
  rw [Allocation.run, Set.mem_ofPred_eq, (hslot a ha).1]
  constructor
  · intro heq
    rw [heq] at hstart
    omega
  · intro hq
    rw [eq_comm, Nat.div_eq_iff hb, Nat.mul_comm _ b]
    omega

/-- A heap whose requests are all of one size does not fragment: a request is refused only when
there are as many live allocations as fit side by side. -/
theorem kmalloc_null_iff_full (run : HeapRun (ForBlocks b) h live) (amount : Word)
    (hsize : ForBlocks b h amount) :
    (kmalloc amount h).1 = 0 ↔ live.length = heapMaxBlocks / b := by
  have hsize' : (blocksFor amount).toNat = b := hsize
  have hb : 0 < b := hsize' ▸ blocksFor_pos amount
  have hcard := Finset.card_le_card (slots_subset run)
  rw [card_slots run, Finset.card_range] at hcard
  cases hfit : firstFit (fun q => !h.used q) (blocksFor amount).toNat heapMaxBlocks with
  | none =>
    rw [hsize', firstFit_eq_none] at hfit
    rw [kmalloc_none (hsize' ▸ firstFit_eq_none.mpr hfit)]
    refine iff_of_true rfl ?_
    rw [← card_slots run, ← Finset.card_range (heapMaxBlocks / b)]
    refine congrArg Finset.card (Finset.Subset.antisymm (slots_subset run) fun j hj => ?_)
    rw [Finset.mem_range, Nat.lt_iff_add_one_le, Nat.le_div_iff_mul_le hb] at hj
    have hslot := hfit (b * j) (by rw [Nat.mul_comm b j, ← Nat.succ_mul]; exact hj)
    rw [← Bool.not_eq_true, freeRun_eq_true] at hslot
    push Not at hslot
    obtain ⟨k, hk, hused⟩ := hslot
    have hj' : (b * j + k) / b = j := by
      rw [Nat.mul_add_div hb, Nat.div_eq_of_lt hk, Nat.add_zero]
    exact hj' ▸ (mem_slots_iff run hb).mpr (by simpa using hused)
  | some s =>
    refine iff_of_false (kmalloc_takes hfit).ne_zero fun hfull => ?_
    rw [hsize'] at hfit
    obtain ⟨hs, hrun, -⟩ := firstFit_eq_some.mp hfit
    have hall := Finset.eq_of_subset_of_card_le (slots_subset run)
      (by rw [card_slots run, Finset.card_range, hfull])
    have hmem : s / b ∈ slots b live := by
      rw [hall, Finset.mem_range, Nat.lt_iff_add_one_le, Nat.le_div_iff_mul_le hb, Nat.add_mul,
        Nat.one_mul]
      have := Nat.div_mul_le_self s b
      omega
    have hfree := freeRun_eq_true.mp hrun 0 hb
    rw [Nat.add_zero, (mem_slots_iff run hb).mp hmem] at hfree
    contradiction

theorem kmalloc_null_iff_full_two : (kmalloc 16 (kmalloc 16 emptyHeap).2).1 ≠ 0 := by
  have hsize (h : KernelHeap) : ForBlocks 2 h 16 := show (blocksFor 16).toNat = 2 by decide
  have hne : (kmalloc 16 emptyHeap).1 ≠ 0 := by decide
  have hrun : HeapRun (ForBlocks 2) (kmalloc 16 emptyHeap).2
      (holdPointer (kmalloc 16 emptyHeap).1 16 []) := .kmalloc (.start fun _ => 0) 16 (hsize _)
  rw [holdPointer, if_neg hne] at hrun
  exact fun hnull => absurd ((kmalloc_null_iff_full hrun 16 (hsize _)).mp hnull) (by decide)

end Uniform
end LucidiOS.Heap
