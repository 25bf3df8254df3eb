import LucidiOS.Serial.Numbers

/-! What a format string for `kprintf` means. -/
namespace LucidiOS

/-- A character of the format, or a directive. `dangling` is a `%` that nothing follows. -/
inductive Piece
  | literal (c : BitVec 8)
  | string
  | int
  | char
  | word
  | percent
  | unknown (c : BitVec 8)
  | dangling
  deriving DecidableEq

/-- The directive `%c` for each specifier `c`. -/
def directive (c : BitVec 8) : Piece :=
  if c = 0x73 then .string
  else if c = 0x64 then .int
  else if c = 0x63 then .char
  else if c = 0x78 then .word
  else if c = 0x25 then .percent
  else .unknown c

def pieces : List (BitVec 8) → List Piece
  | [] => []
  | [b] => [if b = 0x25 then .dangling else .literal b]
  | b :: c :: s => if b = 0x25 then directive c :: pieces s else .literal b :: pieces (c :: s)

theorem pieces_eq_nil {l : List (BitVec 8)} (h : pieces l = []) : l = [] := by
  match l with
  | [] => rfl
  | [b] => exact absurd h (by simp [pieces])
  | b :: c :: s =>
    rw [pieces] at h
    split_ifs at h

theorem pieces_eq_cons {l : List (BitVec 8)} {piece : Piece} {ps : List Piece}
    (h : pieces l = piece :: ps) :
    (∃ c s, l = c :: s ∧ c ≠ 0x25 ∧ piece = .literal c ∧ pieces s = ps) ∨
      (∃ c s, l = 0x25 :: c :: s ∧ piece = directive c ∧ pieces s = ps) ∨
      (l = [0x25] ∧ piece = .dangling) := by
  match l with
  | [] => exact absurd h (by simp [pieces])
  | [b] =>
    rw [pieces] at h
    split_ifs at h with hb
    · cases h
      exact .inr (.inr ⟨by rw [hb], rfl⟩)
    · cases h
      exact .inl ⟨b, [], rfl, hb, rfl, rfl⟩
  | b :: c :: s =>
    rw [pieces] at h
    split_ifs at h with hb
    · cases h
      exact .inr (.inl ⟨c, s, by rw [hb], rfl, rfl⟩)
    · cases h
      exact .inl ⟨b, c :: s, rfl, hb, rfl, rfl⟩

/-- An argument after C's default promotions. -/
inductive Arg
  | string (s : Option CString)
  | int (d : BitVec 32)
  | word (x : BitVec 64)

/-- "(null)" -/
def nullText : CString where
  text := [0x28, 0x6E, 0x75, 0x6C, 0x6C, 0x29]
  behind _ := 0
  text_ne := by decide

/-- What a piece stands for, and the arguments that are left. -/
def Piece.render : Piece → List Arg → Option (List (BitVec 8) × List Arg)
  | .literal c, args => some ([c], args)
  | .string, .string s :: args => some ((s.getD nullText).text, args)
  | .int, .int d :: args => some (decimal.signed 0x2D d.toInt, args)
  | .char, .int d :: args => some ([d.setWidth 8], args)
  | .word, .word x :: args => some (0x30 :: 0x78 :: hexadecimal.padded 16 x.toNat, args)
  | .percent, args => some ([0x25], args)
  | .unknown c, args => some ([0x25, c], args)
  | _, _ => none

def render : List Piece → List Arg → Option (List (BitVec 8) × List Arg)
  | [], args => some ([], args)
  | piece :: ps, args => do
    let (out, args) ← piece.render args
    let (outs, args) ← render ps args
    return (out ++ outs, args)

/-- The number of `%` that the format ends in. -/
def trailing (s : List (BitVec 8)) : ℕ := (s.reverse.takeWhile (· = 0x25)).length

section Dangling
variable {b c : BitVec 8} {s : List (BitVec 8)}

theorem directive_ne_dangling (c : BitVec 8) : directive c ≠ .dangling := by
  unfold directive
  split_ifs <;> simp

theorem trailing_le (s : List (BitVec 8)) : trailing s ≤ s.length := by
  have := (List.takeWhile_sublist (· = 0x25) (l := s.reverse)).length_le
  rwa [List.length_reverse] at this

theorem trailing_cons : trailing (b :: s) =
    if trailing s = s.length ∧ b = 0x25 then s.length + 1 else trailing s := by
  unfold trailing
  rw [List.reverse_cons, List.takeWhile_append, List.length_reverse]
  by_cases hb : b = 0x25
  · split_ifs <;> simp_all
  · split_ifs <;> simp_all

/-- A `%` is left over at the end if those at the end are odd in number. -/
theorem dangling_mem_iff (s : List (BitVec 8)) : .dangling ∈ pieces s ↔ Odd (trailing s) := by
  rw [Nat.odd_iff]
  induction s using pieces.induct with
  | case1 => decide
  | case2 b =>
    by_cases hb : b = 0x25
    · rw [hb]
      decide
    · rw [trailing_cons, if_neg fun h => hb h.2, pieces, if_neg hb]
      simp [trailing]
  | case3 c s ih =>
    have hle := trailing_le s
    have hne := (directive_ne_dangling c).symm
    have hpieces : .dangling ∈ pieces (0x25 :: c :: s) ↔ .dangling ∈ pieces s := by
      rw [pieces, if_pos rfl, List.mem_cons, or_iff_right hne]
    rw [hpieces, ih, trailing_cons, trailing_cons, List.length_cons]
    by_cases hc : c = 0x25
    · simp only [hc, and_true]
      split_ifs <;> omega
    · simp only [hc, and_false, and_true, ↓reduceIte]
      split_ifs <;> omega
  | case4 b c s hb ih =>
    rw [trailing_cons, if_neg fun h => hb h.2, ← ih, pieces, if_neg hb, List.mem_cons]
    exact or_iff_right nofun

end Dangling
end LucidiOS
