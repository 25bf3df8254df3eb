import Mathlib

/-! Text on a grid of cells. A full line is left when the next character comes, not before. -/

/-- A cursor and what was last written to each cell. -/
structure TextGrid (β : Type*) where
  column : ℕ
  line : ℕ
  cell : ℕ → ℕ → Option β

namespace TextGrid
variable {β : Type*} {cols lines : ℕ} {g : TextGrid β}

inductive Key (β : Type*)
  | newline
  | carriageReturn
  | character (b : β)
  | tab (n : ℕ) (b : β)

def newline (g : TextGrid β) : TextGrid β := { g with column := 0, line := g.line + 1 }

def write (b : β) (g : TextGrid β) : TextGrid β where
  column := g.column + 1
  line := g.line
  cell c l := if c = g.column ∧ l = g.line then some b else g.cell c l

def wrap (cols : ℕ) (g : TextGrid β) : TextGrid β := if g.column = cols then g.newline else g

def press (cols : ℕ) : Key β → TextGrid β → TextGrid β
  | .newline, g => g.newline
  | .carriageReturn, g => { g with column := 0 }
  | .character b, g => write b (g.wrap cols)
  | .tab n b, g => (write b)^[n] (g.wrap cols)

def type (cols : ℕ) (keys : List (Key β)) (g : TextGrid β) : TextGrid β :=
  keys.foldl (fun g k => press cols k g) g

/-- The key keeps to the lines, and a tab to the line that it starts on. -/
structure KeyFits (cols lines : ℕ) (k : Key β) (g : TextGrid β) : Prop where
  line : (press cols k g).line < lines
  tab : ∀ n b, k = .tab n b → (g.wrap cols).column + n ≤ cols

def TextFits (cols lines : ℕ) : List (Key β) → TextGrid β → Prop
  | [], _ => True
  | k :: keys, g => KeyFits cols lines k g ∧ TextFits cols lines keys (press cols k g)

/-- The cursor is on the grid or behind the end of a line, and only cells of the grid are
written. -/
structure Within (cols lines : ℕ) (g : TextGrid β) : Prop where
  column : g.column ≤ cols
  line : g.line < lines
  cell : ∀ c l b, g.cell c l = some b → c < cols ∧ l < lines

@[simp] theorem write_column (b : β) (g : TextGrid β) : (write b g).column = g.column + 1 := rfl

@[simp] theorem write_line (b : β) (g : TextGrid β) : (write b g).line = g.line := rfl

theorem writes_line (b : β) (n : ℕ) (g : TextGrid β) : ((write b)^[n] g).line = g.line := by
  induction n generalizing g with
  | zero => rfl
  | succ n ih => rw [Function.iterate_succ_apply, ih, write_line]

theorem press_line_wrap {k : Key β} (h : (∃ b, k = .character b) ∨ ∃ n b, k = .tab n b) :
    (press cols k g).line = (g.wrap cols).line := by
  rcases h with ⟨b, rfl⟩ | ⟨n, b, rfl⟩
  · rfl
  · exact writes_line b n _

theorem Within.newline (h : g.Within cols lines) (hline : g.line + 1 < lines) :
    g.newline.Within cols lines :=
  ⟨Nat.zero_le cols, hline, h.cell⟩

theorem Within.carriageReturn (h : g.Within cols lines) :
    ({ g with column := 0 } : TextGrid β).Within cols lines :=
  ⟨Nat.zero_le cols, h.line, h.cell⟩

theorem Within.write (h : g.Within cols lines) (hcol : g.column < cols) (b : β) :
    (g.write b).Within cols lines := by
  refine ⟨hcol, h.line, fun c l b' hcell => ?_⟩
  simp only [TextGrid.write] at hcell
  split_ifs at hcell with hat
  · rw [hat.1, hat.2]
    exact ⟨hcol, h.line⟩
  · exact h.cell c l b' hcell

theorem Within.wrap_column (h : g.Within cols lines) (hcols : 0 < cols) :
    (g.wrap cols).column < cols := by
  have := h.column
  unfold wrap
  split_ifs with hfull
  · exact hcols
  · omega

end TextGrid
