import Mathlib.Data.Finset.Max

/-! An interrupt controller that latches requests, serves them by priority and waits for the end of
an interrupt. Sixteen vectors make up a priority class. -/

structure InterruptController where
  requested : Finset ℕ
  inService : Finset ℕ

namespace InterruptController

def raise (c : InterruptController) (v : ℕ) : InterruptController :=
  { c with requested := insert v c.requested }

/-- The processor is interrupted by `v` next. -/
structure Accepts (c : InterruptController) (v : ℕ) : Prop where
  requested : v ∈ c.requested
  highest : ∀ w ∈ c.requested, w ≤ v
  above : ∀ w ∈ c.inService, w / 16 < v / 16

def accept (c : InterruptController) (v : ℕ) : InterruptController where
  requested := c.requested.erase v
  inService := insert v c.inService

/-- The highest vector in service is done. -/
def eoi (c : InterruptController) : InterruptController :=
  { c with inService := c.inService.filter fun v => ∃ w ∈ c.inService, v < w }

section Lemmas
variable {c : InterruptController} {v : ℕ}

@[simp] theorem raise_inService (c : InterruptController) (v : ℕ) :
    (c.raise v).inService = c.inService := rfl

@[simp] theorem mem_raise_requested {w : ℕ} :
    w ∈ (c.raise v).requested ↔ w = v ∨ w ∈ c.requested := Finset.mem_insert

@[simp] theorem eoi_requested (c : InterruptController) : c.eoi.requested = c.requested := rfl

theorem eoi_of_single (h : c.inService = {v}) : c.eoi.inService = ∅ := by
  simp [eoi, h]

/-- With nothing in service some request can be accepted. -/
theorem exists_accepts (hservice : c.inService = ∅) (hrequest : c.requested.Nonempty) :
    ∃ v, c.Accepts v :=
  ⟨c.requested.max' hrequest, c.requested.max'_mem hrequest, fun w hw => c.requested.le_max' w hw,
    by simp [hservice]⟩

end Lemmas
end InterruptController
