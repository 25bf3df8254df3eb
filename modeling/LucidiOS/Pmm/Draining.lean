import LucidiOS.Pmm.FrameOwnership
import LucidiOS.Pmm.HeapBitmap

/-! What a row of calls of `pmm_alloc2` returns, at any point of any run. -/
namespace LucidiOS.Pmm

/-- The pages that can be given out, lowest first. -/
def available (bitmapLength : Word) (start : ℕ → Word) (held : List Word) : List ℕ :=
  (List.range (scanned bitmapLength)).filter fun p =>
    !locked start p && !decide (p ∈ held.map pageOf)

/-- The clear bits among the scanned rows. -/
def clearBits (bitmapLength : Word) (b : ℕ → Word) : List ℕ :=
  (List.range (scanned bitmapLength)).filter fun p => !locked b p

section Calls
variable {L : Word} {b : ℕ → Word}

/-- The first clear bit is the head of the list, and locking it leaves the tail. -/
theorem clearBits_lock {p : ℕ} (hfirst : WordArray.standalone.firstClear b (scanned L) = some p) :
    clearBits L b = p :: clearBits L (WordArray.standalone.setBit p b) := by
  obtain ⟨-, before, after, hrange, hbefore⟩ := List.find?_eq_some_iff_append.mp hfirst
  obtain ⟨-, hclear, -⟩ := WordArray.firstClear_eq_some.mp hfirst
  have hnodup := List.nodup_range (n := scanned L)
  rw [hrange, List.nodup_append, List.nodup_cons] at hnodup
  obtain ⟨-, ⟨hnotMem, -⟩, hapart⟩ := hnodup
  have hlow : before.filter (fun q => !locked b q) = [] :=
    List.filter_eq_nil_iff.mpr fun q hq => by simpa [locked] using hbefore q hq
  have hlow' : before.filter (fun q => !locked (WordArray.standalone.setBit p b) q) = [] := by
    refine List.filter_eq_nil_iff.mpr fun q hq => ?_
    have := hbefore q hq
    simp_all [locked]
  have hhigh : after.filter (fun q => !locked (WordArray.standalone.setBit p b) q) =
      after.filter fun q => !locked b q := by
    refine List.filter_congr fun q hq => ?_
    have hne : q ≠ p := fun hc => hnotMem (hc ▸ hq)
    rw [locked, WordArray.standalone_bit_setBit, decide_eq_false hne, Bool.or_false, locked]
  rw [clearBits, clearBits, hrange, List.filter_append, List.filter_append, hlow, hlow',
    List.nil_append, List.nil_append, List.filter_cons_of_pos (by simp [locked, hclear]),
    List.filter_cons_of_neg (by simp [locked]), hhigh]

/-- A row of calls returns the clear bits in order, then 0. -/
theorem pmmAllocs_eq (n : ℕ) (b : ℕ → Word) :
    pmmAllocs WordArray.standalone L n b =
      ((clearBits L b).take n).map (fun p => BitVec.ofNat 64 p * 4096) ++
        List.replicate (n - (clearBits L b).length) 0 := by
  induction n generalizing b with
  | zero => simp [pmmAllocs]
  | succ n ih =>
    rw [pmmAllocs, ih, pmmAlloc2_eq]
    cases hfirst : WordArray.standalone.firstClear b (scanned L) with
    | none =>
      have hempty : clearBits L b = [] := by
        rw [clearBits, List.filter_eq_nil_iff]
        intro q hq
        have := WordArray.firstClear_eq_none.mp hfirst q (List.mem_range.mp hq)
        simpa [locked] using this
      simp [hempty, List.replicate_succ]
    | some p =>
      rw [clearBits_lock hfirst]
      simp

end Calls

/-- At every point of every run the next `n` results are the lowest pages that were free at the
start and are not held, in ascending order, and then 0 for ever. -/
theorem pmmRun_lowest_first {L : Word} {start b : ℕ → Word} {held : List Word}
    (h0 : locked start 0 = true) (hphys : NamesPhysical L start) (run : PmmRun L start b held)
    (n : ℕ) :
    pmmAllocs WordArray.standalone L n b =
      ((available L start held).take n).map (fun p => BitVec.ofNat 64 p * 4096) ++
        List.replicate (n - (available L start held).length) 0 := by
  have hinv := (pmmRun_refines h0 hphys run).1.inv
  have hsame : clearBits L b = available L start held := by
    refine List.filter_congr fun q _ => ?_
    have hiff := hinv.occupied_iff q
    rw [Bool.eq_iff_iff]
    simp only [framePool, Set.mem_ofPred_eq, List.mem_map] at hiff
    simp only [Bool.not_eq_true', Bool.and_eq_true, decide_eq_false_iff_not, List.mem_map]
    rw [← Bool.not_eq_true, hiff, ← Bool.not_eq_true, not_or]
    refine and_congr_right fun _ => not_congr ?_
    constructor
    · rintro ⟨-, ⟨r, hr, rfl⟩, hq⟩
      exact ⟨r, hr, hq.symm⟩
    · rintro ⟨r, hr, rfl⟩
      exact ⟨_, ⟨r, hr, rfl⟩, rfl⟩
  rw [pmmAllocs_eq, hsame]

theorem pmmRun_lowest_first_two :
    pmmAllocs WordArray.standalone 64 2
        (pmmAlloc2 WordArray.standalone 64 onlyPageZero).2 = [0x2000, 0x3000] := by
  have hfirst : (pmmAlloc2 WordArray.standalone 64 onlyPageZero).1 = 0x1000 := by decide
  have hstart : PmmRun 64 onlyPageZero onlyPageZero [] := .start
  have hrun := pmmRun_lowest_first (by decide) (fun p h1 h2 => by simp at h2; omega)
    (.alloc hstart) 2
  rw [hrun, hfirst]
  decide

end LucidiOS.Pmm
