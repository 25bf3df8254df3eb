import LucidiOS.Pmm.FrameOwnership
import LucidiOS.Pmm.MemoryMap

/-! When `pmm_alloc2` finds a free page. The scan runs over `bitmap_length / 64` rows of a bitmap
that has `bitmap_length` of them. -/
namespace LucidiOS.Pmm

/-- `pmm_alloc2` fails only on a full bitmap, and otherwise returns a free page of it. -/
structure AllocComplete (bitmapLength : Word) (b : ℕ → Word) : Prop where
  fails_full : (pmmAlloc2 WordArray.standalone bitmapLength b).1 = 0 →
    ∀ p < 64 * bitmapLength.toNat, locked b p = true
  finds_free : (∃ p < 64 * bitmapLength.toNat, locked b p = false) →
    (pmmAlloc2 WordArray.standalone bitmapLength b).1 ≠ 0 ∧
      pageOf (pmmAlloc2 WordArray.standalone bitmapLength b).1 < 64 * bitmapLength.toNat ∧
      locked b (pageOf (pmmAlloc2 WordArray.standalone bitmapLength b).1) = false

theorem namesPhysical_of_le {L : Word} (h : L.toNat ≤ 2 ^ 46) (b : ℕ → Word) :
    NamesPhysical L b := fun p h1 h2 => by omega

/-- `pmm_alloc2` is complete exactly when a bitmap with a free page has one in its first
`bitmap_length / 64` rows. -/
theorem pmmAlloc2_complete_iff (map : List MemmapEntry) (b : ℕ → Word) (h0 : locked b 0 = true) :
    AllocComplete (getBitmapLength map pageToQword) b ↔
      ((∃ p < 64 * (getBitmapLength map pageToQword).toNat, locked b p = false) →
        ∃ p < 64 * ((getBitmapLength map pageToQword).toNat / 64), locked b p = false) := by
  have hL := getBitmapLength_le map
  have hphys := namesPhysical_of_le hL b
  generalize getBitmapLength map pageToQword = L at hL hphys ⊢
  have hiff := pmmAlloc2_ne_zero_iff h0 hL
  constructor
  · intro hc hfree
    exact hiff.mp (hc.finds_free hfree).1
  · intro hreach
    have hex := pmmAlloc2_exclusive h0 hphys (b := b) fun _ h => h
    constructor
    · intro hr p hp
      by_contra hc
      exact hiff.mpr (hreach ⟨p, hp, by simpa using hc⟩) hr
    · intro hfree
      have hr := hiff.mpr (hreach hfree)
      exact ⟨hr, hex.inBitmap hr, hex.wasClear hr⟩

/-- The first 2 MiB in use, everything above free. -/
def low2MUsed : ℕ → Word := fun i => if i < 8 then ~~~0 else 0

theorem low2MUsed_locked (p : ℕ) : locked low2MUsed p = decide (p < 512) := by
  have hlt : p % 64 < 64 := Nat.mod_lt _ (by decide)
  have hrow : p / 64 < 8 ↔ p < 512 := by omega
  change (if p / 64 < 8 then ~~~0 else 0 : Word).getLsbD (p % 64) = _
  by_cases h : p < 512
  · rw [if_pos (hrow.mpr h), BitVec.getLsbD_not]
    simp [h, hlt]
  · rw [if_neg (fun hc => h (hrow.mp hc))]
    simp [h]

theorem pmmAlloc2_complete_iff_map128M :
    AllocComplete (getBitmapLength map128M pageToQword) (fun i => if i = 0 then 1 else 0) :=
  (pmmAlloc2_complete_iff map128M _ (by decide)).mpr fun _ => ⟨1, by decide, by decide⟩

/-- With the first 2 MiB of 128 MiB in use `pmm_alloc2` reports that memory is full. -/
theorem pmmAlloc2_incomplete :
    locked low2MUsed 0 = true ∧ ¬AllocComplete (getBitmapLength map128M pageToQword) low2MUsed := by
  have hL : getBitmapLength map128M pageToQword = 512 := by decide
  have h0 : locked low2MUsed 0 = true := by rw [low2MUsed_locked]; rfl
  refine ⟨h0, fun hc => ?_⟩
  rw [hL] at hc
  have hfree : ∃ p < 64 * (512 : Word).toNat, locked low2MUsed p = false :=
    ⟨512, by decide, by rw [low2MUsed_locked]; rfl⟩
  have hr := (hc.finds_free hfree).1
  obtain ⟨p, hp, hclear⟩ :=
    (pmmAlloc2_ne_zero_iff h0 (by decide : (512 : Word).toNat ≤ 2 ^ 46)).mp hr
  change locked low2MUsed p = false at hclear
  rw [low2MUsed_locked, decide_eq_false_iff_not] at hclear
  exact hclear hp

end LucidiOS.Pmm
