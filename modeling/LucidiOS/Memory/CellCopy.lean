import Mathlib

/-! Cells that are copied one after another in one memory. -/
namespace CellCopy
variable {ι κ α : Type*} [DecidableEq κ] (dest src : ι → κ)

/-- Cell `src i` is copied to cell `dest i`, for each `i` of the list in turn. -/
def run (is : List ι) (m : κ → α) : κ → α :=
  is.foldl (fun m i => Function.update m (dest i) (m (src i))) m

/-- No cell is written again or read after it was written. -/
def InOrder (is : List ι) : Prop := is.Pairwise fun i j => dest i ≠ dest j ∧ dest i ≠ src j

variable {dest src} {is js : List ι} {i : ι} {k : κ}

@[simp] theorem run_cons (i : ι) (is : List ι) (m : κ → α) :
    run dest src (i :: is) m = run dest src is (Function.update m (dest i) (m (src i))) := rfl

theorem run_of_ne (h : ∀ i ∈ is, dest i ≠ k) (m : κ → α) : run dest src is m k = m k := by
  induction is generalizing m with
  | nil => rfl
  | cons i is ih =>
    rw [run_cons, ih fun j hj => h j (List.mem_cons_of_mem _ hj)]
    exact Function.update_of_ne (h i List.mem_cons_self).symm _ _

/-- A copy in order reads what was there at first. -/
theorem InOrder.run_dest (h : InOrder dest src is) (hi : i ∈ is) (m : κ → α) :
    run dest src is m (dest i) = m (src i) := by
  induction is generalizing m with
  | nil => contradiction
  | cons j is ih =>
    obtain ⟨hj, his⟩ := List.pairwise_cons.mp h
    rw [run_cons]
    rcases List.mem_cons.mp hi with rfl | hi
    · rw [run_of_ne fun l hl => (hj l hl).1.symm, Function.update_self]
    · rw [ih his hi]
      exact Function.update_of_ne (hj i hi).2.symm _ _

/-- All orders that are good give the same memory. -/
theorem InOrder.run_eq (h : InOrder dest src is) (h' : InOrder dest src js)
    (hmem : ∀ i, i ∈ is ↔ i ∈ js) (m : κ → α) : run dest src is m = run dest src js m := by
  funext k
  by_cases hk : ∃ i ∈ is, dest i = k
  · obtain ⟨i, hi, rfl⟩ := hk
    rw [h.run_dest hi, h'.run_dest ((hmem i).mp hi)]
  · push Not at hk
    rw [run_of_ne hk, run_of_ne fun i hi => hk i ((hmem i).mpr hi)]

end CellCopy
