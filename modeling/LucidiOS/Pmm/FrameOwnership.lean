import LucidiOS.Allocation.RegionPool
import LucidiOS.Pmm.PageBitmap

/-! Ownership of frames over whole runs of `pmm_alloc2` and `pmm_free_page`. -/
namespace LucidiOS.Pmm
open RegionPool

/-- The non-zero results held after one more `pmm_alloc2`. -/
def holdResult (r : Word) (held : List Word) : List Word := if r = 0 then held else r :: held

/-- Every interleaving of `pmm_alloc2` with `pmm_free_page` on pages obtained from it.
`held` lists the results not yet freed. -/
inductive PmmRun (bitmapLength : Word) (start : ℕ → Word) : (ℕ → Word) → List Word → Prop
  | start : PmmRun bitmapLength start start []
  | alloc {b : ℕ → Word} {held : List Word} (run : PmmRun bitmapLength start b held) :
      PmmRun bitmapLength start (pmmAlloc2 WordArray.standalone bitmapLength b).2
        (holdResult (pmmAlloc2 WordArray.standalone bitmapLength b).1 held)
  | free {b : ℕ → Word} {held : List Word} {r : Word} (run : PmmRun bitmapLength start b held)
      (hr : r ∈ held) :
      PmmRun bitmapLength start (pmmFreePage WordArray.standalone (r / 4096) b) (held.erase r)

def locked (b : ℕ → Word) (p : ℕ) : Bool := WordArray.standalone.bit b p

def pageOf (r : Word) : ℕ := r.toNat / 4096

/-- What ownership requires of one `pmm_alloc2` from the bitmap `b`. -/
structure AllocExclusive (bitmapLength : Word) (start b : ℕ → Word) (result : Word × (ℕ → Word)) :
    Prop where
  fails : result.1 = 0 → result.2 = b
  aligned : result.1.toNat % 4096 = 0
  inBitmap : result.1 ≠ 0 → pageOf result.1 < 64 * bitmapLength.toNat
  wasClear : result.1 ≠ 0 → locked b (pageOf result.1) = false
  notAtStart : result.1 ≠ 0 → locked start (pageOf result.1) = false
  oneBit : result.1 ≠ 0 → ∀ q, locked result.2 q = (locked b q || decide (q = pageOf result.1))

/-- The frame pool that a bitmap and the results held from it stand for. -/
def framePool (b : ℕ → Word) (held : List Word) : Pool Word ℕ :=
  ⟨{p | locked b p = true}, held.map fun r => (r, {pageOf r})⟩

section Run
variable {L : Word} {start : ℕ → Word}

/-- Bits past the last physical page, 2^52 - 1, name no page and stay locked. -/
def NamesPhysical (L : Word) (start : ℕ → Word) : Prop :=
  ∀ p, 2 ^ 52 ≤ p → p < 64 * L.toNat → locked start p = true

/-- A page that is clear now was clear at the start, so it has an address, which is not 0. -/
theorem clear_page (h0 : locked start 0 = true) (hphys : NamesPhysical L start) {b : ℕ → Word}
    (hb : ∀ p, locked start p = true → locked b p = true) {p : ℕ} (hp : p < scanned L)
    (hclear : locked b p = false) : locked start p = false ∧ p ≠ 0 ∧
      (BitVec.ofNat 64 p * 4096 : Word).toNat = 4096 * p := by
  have hstart : locked start p = false := by
    by_contra hc
    rw [hb p (by simpa using hc)] at hclear
    contradiction
  have hlow : p < 2 ^ 52 := by
    have hsc := scanned_le L
    by_contra hc
    rw [hphys p (by omega) (by omega)] at hstart
    contradiction
  refine ⟨hstart, ?_, page_address_toNat hlow⟩
  rintro rfl
  rw [h0] at hstart
  contradiction

theorem pmmAlloc2_exclusive (h0 : locked start 0 = true) (hphys : NamesPhysical L start)
    {b : ℕ → Word} (hb : ∀ p, locked start p = true → locked b p = true) :
    AllocExclusive L start b (pmmAlloc2 WordArray.standalone L b) := by
  rw [pmmAlloc2_eq]
  cases hf : WordArray.standalone.firstClear b (scanned L) with
  | none =>
    have hzero : ((0, b) : Word × (ℕ → Word)).1 = 0 := rfl
    exact ⟨fun _ => rfl, Nat.zero_mod _, fun h => absurd hzero h, fun h => absurd hzero h,
      fun h => absurd hzero h, fun h => absurd hzero h⟩
  | some p =>
    obtain ⟨hp, hclear, -⟩ := WordArray.firstClear_eq_some.mp hf
    obtain ⟨hstart, hp0, hnat⟩ := clear_page h0 hphys hb hp hclear
    have hsc := scanned_le L
    have hpage : pageOf (BitVec.ofNat 64 p * 4096) = p := by
      rw [pageOf, hnat]
      omega
    constructor
    · intro hzero
      have := congrArg BitVec.toNat hzero
      rw [hnat] at this
      simp at this
      omega
    · rw [hnat]
      omega
    · intro _
      rw [hpage]
      omega
    · intro _
      rw [hpage]
      exact hclear
    · intro _
      rw [hpage]
      exact hstart
    · intro _ q
      rw [hpage]
      exact WordArray.standalone_bit_setBit b p q

/-- A run of the bitmap is a history of the frame pool. -/
theorem pmmRun_refines (h0 : locked start 0 = true) (hphys : NamesPhysical L start)
    {b : ℕ → Word} {held : List Word} (run : PmmRun L start b held) :
    Steps ⟨{p | locked start p = true}, []⟩ (framePool b held) ∧
      ∀ r ∈ held, r.toNat % 4096 = 0 ∧ pageOf r < 64 * L.toNat := by
  induction run with
  | start => exact ⟨Steps.refl, by simp⟩
  | @alloc b held run ih =>
    obtain ⟨hsteps, hheld⟩ := ih
    have hb : ∀ p, locked start p = true → locked b p = true := fun p hp =>
      (hsteps.inv.occupied_iff p).mpr (Or.inl hp)
    have hex := pmmAlloc2_exclusive h0 hphys hb
    by_cases hr : (pmmAlloc2 WordArray.standalone L b).1 = 0
    · rw [holdResult, if_pos hr, hex.fails hr]
      exact ⟨hsteps, hheld⟩
    · rw [holdResult, if_neg hr]
      refine ⟨hsteps.tail ?_, ?_⟩
      · have hstep := Step.acquire (framePool b held) (pmmAlloc2 WordArray.standalone L b).1
          {pageOf (pmmAlloc2 WordArray.standalone L b).1}
          (by simp [framePool, hex.wasClear hr])
        convert hstep using 1
        simp only [framePool, List.map_cons, Pool.mk.injEq, and_true]
        ext q
        simp [hex.oneBit hr q, or_comm]
      · intro r hmem
        rcases List.mem_cons.mp hmem with rfl | hmem
        · exact ⟨hex.aligned, hex.inBitmap hr⟩
        · exact hheld r hmem
  | @free b held r run hr ih =>
    obtain ⟨hsteps, hheld⟩ := ih
    refine ⟨hsteps.tail ?_, fun x hx => hheld x (List.mem_of_mem_erase hx)⟩
    have hstep := Step.release (framePool b held) r {pageOf r}
      ((held.erase r).map fun r => (r, {pageOf r}))
      ((List.perm_cons_erase hr).map fun r => (r, ({pageOf r} : Set ℕ)))
    convert hstep using 1
    simp only [framePool, Pool.mk.injEq, and_true]
    ext q
    simp [locked, pmmFreePage_eq, pageOf]

/-- In every state of every run the held frames are distinct locked pages of the bitmap, clear at
the start; the next `pmm_alloc2` takes a page that is clear now and was clear at the start; and each
call changes at most the bit of its own page. -/
theorem pmmRun_no_frame_twice (h0 : locked start 0 = true) (hphys : NamesPhysical L start)
    {b : ℕ → Word} {held : List Word} (run : PmmRun L start b held) :
    (held.map pageOf).Nodup ∧
    (∀ r ∈ held, r.toNat % 4096 = 0 ∧ pageOf r < 64 * L.toNat ∧ locked b (pageOf r) = true ∧
      locked start (pageOf r) = false) ∧
    AllocExclusive L start b (pmmAlloc2 WordArray.standalone L b) ∧
    ∀ r ∈ held, ∀ q ≠ pageOf r,
      locked (pmmFreePage WordArray.standalone (r / 4096) b) q = locked b q := by
  obtain ⟨hsteps, hheld⟩ := pmmRun_refines h0 hphys run
  have hinv := hsteps.inv
  refine ⟨?_, ?_, ?_, ?_⟩
  · have hd := hinv.disjoint
    simp only [framePool, List.pairwise_map, Set.disjoint_singleton] at hd
    exact List.pairwise_map.mpr hd
  · intro r hr
    have hmem : (r, ({pageOf r} : Set ℕ)) ∈ (framePool b held).live := List.mem_map_of_mem hr
    refine ⟨(hheld r hr).1, (hheld r hr).2, ?_, ?_⟩
    · exact (hinv.occupied_iff (pageOf r)).mpr (Or.inr ⟨_, hmem, rfl⟩)
    · simpa using hinv.apart _ hmem
  · exact pmmAlloc2_exclusive h0 hphys fun p hp => (hinv.occupied_iff p).mpr (Or.inl hp)
  · intro r _ q hq
    simp only [locked, pmmFreePage_eq, WordArray.standalone_bit_clearBit]
    simp [pageOf] at hq
    simp [hq]

end Run

/-- A bitmap in which only page 0 is locked. -/
def onlyPageZero : ℕ → Word := fun i => if i = 0 then 1 else 0

theorem pmmRun_no_frame_twice_second :
    AllocExclusive 64 onlyPageZero (pmmAlloc2 WordArray.standalone 64 onlyPageZero).2
      (pmmAlloc2 WordArray.standalone 64 (pmmAlloc2 WordArray.standalone 64 onlyPageZero).2) :=
  (pmmRun_no_frame_twice (by decide) (fun p h1 h2 => by simp at h2; omega)
    (.alloc .start)).2.2.1

/-- A bitmap in which only page 2^52 is free. -/
def onlyPastPhysical : ℕ → Word := fun i => if i = 2 ^ 46 then ~~~1 else ~~~0

theorem onlyPastPhysical_locked (p : ℕ) : locked onlyPastPhysical p = decide (p ≠ 2 ^ 52) := by
  have hlt : p % 64 < 64 := Nat.mod_lt _ (by decide)
  change (if p / 64 = 2 ^ 46 then ~~~1 else ~~~0 : Word).getLsbD (p % 64) = _
  by_cases hrow : p / 64 = 2 ^ 46
  · have hone : (1 : Word).getLsbD (p % 64) = decide (p % 64 = 0) := by
      change (1#64).getLsbD _ = _
      rw [BitVec.getLsbD_one]
      simp
    rw [if_pos hrow, BitVec.getLsbD_not, hone, decide_eq_true hlt, Bool.true_and, ← decide_not]
    exact decide_eq_decide.mpr (by omega)
  · rw [if_neg hrow, BitVec.getLsbD_not, decide_eq_true hlt, eq_comm, decide_eq_true (by omega)]
    simp

/-- The address of page 2^52 is 0: `pmm_alloc2` locks the page and reports failure. -/
theorem pmmAlloc2_past_physical : locked onlyPastPhysical 0 = true ∧
    PmmRun 0x20000000000000 onlyPastPhysical onlyPastPhysical [] ∧
    ¬AllocExclusive 0x20000000000000 onlyPastPhysical onlyPastPhysical
      (pmmAlloc2 WordArray.standalone 0x20000000000000 onlyPastPhysical) := by
  refine ⟨by rw [onlyPastPhysical_locked]; rfl, .start, fun h => ?_⟩
  have hscan : scanned 0x20000000000000 = 2 ^ 53 := rfl
  have hfirst := pmmAlloc2_of_first (A := WordArray.standalone) (L := 0x20000000000000)
    (s := onlyPastPhysical) (p := 2 ^ 52) (by rw [hscan]; decide)
    ((onlyPastPhysical_locked _).trans (by simp))
    fun q hq => (onlyPastPhysical_locked q).trans (decide_eq_true (by omega))
  have hzero : (BitVec.ofNat 64 (2 ^ 52) * 4096 : Word) = 0 := by decide
  rw [hfirst, hzero] at h
  have hsame : WordArray.standalone.setBit (2 ^ 52) onlyPastPhysical = onlyPastPhysical :=
    h.fails rfl
  have hbit := WordArray.standalone_bit_setBit onlyPastPhysical (2 ^ 52) (2 ^ 52)
  rw [hsame] at hbit
  have hclear := onlyPastPhysical_locked (2 ^ 52)
  rw [locked, hbit] at hclear
  simp at hclear

end LucidiOS.Pmm
