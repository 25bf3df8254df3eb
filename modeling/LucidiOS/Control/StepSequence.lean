import Mathlib.Data.List.Basic
import Mathlib.Tactic.Common

/-! An operation that takes effect step by step, seen between any two of its steps. -/
namespace StepSequence
variable {σ : Type*}

def run (fs : List (σ → σ)) (m : σ) : σ := fs.foldl (fun m f => f m) m

/-- Each step, taken in turn from `m`, relates the states before and after it by `R`. -/
def Each (R : σ → σ → Prop) : List (σ → σ) → σ → Prop
  | [], _ => True
  | f :: fs, m => R m (f m) ∧ Each R fs (f m)

section Sequence
variable {R : σ → σ → Prop} {fs gs : List (σ → σ)} {m : σ}

@[simp] theorem run_nil (m : σ) : run [] m = m := rfl

@[simp] theorem run_cons (f : σ → σ) (fs : List (σ → σ)) (m : σ) :
    run (f :: fs) m = run fs (f m) := rfl

theorem run_append (fs gs : List (σ → σ)) (m : σ) : run (fs ++ gs) m = run gs (run fs m) :=
  List.foldl_append

theorem each_append : Each R (fs ++ gs) m ↔ Each R fs m ∧ Each R gs (run fs m) := by
  induction fs generalizing m with
  | nil => simp [Each]
  | cons f fs ih => simp only [List.cons_append, Each, ih, run_cons, and_assoc]

theorem each_singleton {f : σ → σ} : Each R [f] m ↔ R m (f m) :=
  iff_of_eq (and_true _)

/-- Steps that keep an invariant, and relate the states in which it holds. -/
theorem each_of_invariant {I : σ → Prop} (hstep : ∀ f ∈ fs, ∀ m, I m → I (f m) ∧ R m (f m))
    (hm : I m) : Each R fs m ∧ I (run fs m) := by
  induction fs generalizing m with
  | nil => exact ⟨trivial, hm⟩
  | cons f fs ih =>
    obtain ⟨hI, hR⟩ := hstep f List.mem_cons_self m hm
    obtain ⟨heach, hrun⟩ := ih (fun g hg => hstep g (List.mem_cons_of_mem f hg)) hI
    exact ⟨⟨hR, heach⟩, hrun⟩

end Sequence
end StepSequence
