import Mathlib

/-! Strings in memory that end with a zero byte. -/

/-- The bytes before the zero, and what memory holds behind it. -/
structure CString where
  text : List (BitVec 8)
  behind : ℕ → BitVec 8
  text_ne : ∀ b ∈ text, b ≠ 0

namespace CString
variable (a : CString)

def byte (i : ℕ) : BitVec 8 := (a.text ++ [0])[i]?.getD (a.behind i)

/-- The bytes from index `i` to the zero are `s`. -/
structure Rest (i : ℕ) (s : List (BitVec 8)) : Prop where
  le : i ≤ a.text.length
  drop : a.text.drop i = s

variable {a} {i : ℕ} {b : BitVec 8} {s : List (BitVec 8)}

theorem rest_zero : a.Rest 0 a.text := ⟨Nat.zero_le _, rfl⟩

theorem Rest.length (h : a.Rest i s) : i + s.length = a.text.length := by
  have := h.le
  rw [← h.drop, List.length_drop]
  omega

theorem Rest.byte_eq (h : a.Rest i s) : a.byte i = s.headD 0 := by
  have hget : (a.text ++ [0])[i]? = (s ++ [0])[0]? := by
    rw [← h.drop, ← List.drop_append_of_le_length h.le, List.getElem?_drop, Nat.add_zero]
  rw [byte, hget]
  cases s <;> rfl

theorem Rest.head_ne (h : a.Rest i (b :: s)) : b ≠ 0 := by
  apply a.text_ne b
  apply List.mem_of_mem_drop
  rw [h.drop]
  exact List.mem_cons_self

theorem Rest.tail (h : a.Rest i (b :: s)) : a.Rest (i + 1) s := by
  have hlength := h.length
  rw [List.length_cons] at hlength
  refine ⟨by omega, ?_⟩
  rw [← List.drop_drop, h.drop]
  rfl

end CString
