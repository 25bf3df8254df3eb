import Mathlib

/-! Positional numerals. -/

/-- Symbols for the digits of base `b`, and the digit that a symbol stands for. -/
structure Numerals (b : ℕ) (β : Type*) where
  symbol : ℕ → β
  digit : β → Option ℕ
  digit_symbol : ∀ d < b, digit (symbol d) = some d
  one_lt : 1 < b

namespace Numerals
variable {b : ℕ} {β : Type*} (N : Numerals b β)

/-- The number that symbols denote that come after a numeral for `n`. -/
def readFrom : ℕ → List β → Option ℕ
  | n, [] => some n
  | n, c :: s => (N.digit c).bind fun d => readFrom (n * b + d) s

def read : List β → Option ℕ
  | [] => none
  | c :: s => N.readFrom 0 (c :: s)

/-- The numeral without leading zeros. -/
def numeral (n : ℕ) : List β :=
  if n = 0 then [N.symbol 0] else (Nat.digits b n).reverse.map N.symbol

/-- The last `w` digits. -/
def padded (w n : ℕ) : List β := (List.range w).reverse.map fun i => N.symbol (n / b ^ i % b)

def signed (minus : β) (z : ℤ) : List β :=
  if z < 0 then minus :: N.numeral z.natAbs else N.numeral z.natAbs

def readSigned [DecidableEq β] (minus : β) : List β → Option ℤ
  | [] => none
  | c :: s =>
    if c = minus then (N.read s).map fun n : ℕ => -(n : ℤ)
    else (N.read (c :: s)).map fun n : ℕ => (n : ℤ)

variable {N}

theorem readFrom_append (n : ℕ) (s t : List β) :
    N.readFrom n (s ++ t) = (N.readFrom n s).bind fun m => N.readFrom m t := by
  induction s generalizing n with
  | nil => rfl
  | cons c s ih =>
    simp only [List.cons_append, readFrom, Option.bind_assoc, ih]

theorem readFrom_digits (n : ℕ) {ds : List ℕ} (h : ∀ d ∈ ds, d < b) :
    N.readFrom n (ds.reverse.map N.symbol) = some (n * b ^ ds.length + Nat.ofDigits b ds) := by
  induction ds with
  | nil => simp [readFrom]
  | cons d ds ih =>
    have hd : N.digit (N.symbol d) = some d := N.digit_symbol d (h d List.mem_cons_self)
    rw [List.reverse_cons, List.map_append, readFrom_append,
      ih fun d' hd' => h d' (List.mem_cons_of_mem _ hd')]
    simp only [Option.bind_some, List.map_cons, List.map_nil, readFrom, hd, List.length_cons,
      Nat.ofDigits_cons, Option.some.injEq, pow_succ]
    ring

theorem numeral_ne_nil (n : ℕ) : N.numeral n ≠ [] := by
  unfold numeral
  split_ifs with hn
  · simp
  · simpa [Nat.digits_ne_nil_iff_ne_zero] using hn

theorem readFrom_numeral (n : ℕ) : N.readFrom 0 (N.numeral n) = some n := by
  have hlt : ∀ d ∈ Nat.digits b n, d < b := fun d hd => Nat.digits_lt_base N.one_lt hd
  unfold numeral
  split_ifs with hn
  · have hb := N.one_lt
    simp [readFrom, N.digit_symbol 0 (by omega), hn]
  · rw [readFrom_digits 0 hlt, Nat.ofDigits_digits, zero_mul, zero_add]

theorem read_numeral (n : ℕ) : N.read (N.numeral n) = some n := by
  have hread := readFrom_numeral (N := N) n
  cases h : N.numeral n with
  | nil => exact absurd h (numeral_ne_nil n)
  | cons c s =>
    rw [h] at hread
    exact hread

/-- A numeral with its sign is read back as the number. -/
theorem readSigned_signed [DecidableEq β] {minus : β} (hminus : N.digit minus = none) (z : ℤ) :
    N.readSigned minus (N.signed minus z) = some z := by
  unfold signed
  split_ifs with hz
  · rw [readSigned, if_pos rfl, read_numeral, Option.map_some, Option.some.injEq]
    omega
  · have hread := read_numeral (N := N) z.natAbs
    cases h : N.numeral z.natAbs with
    | nil => exact absurd h (numeral_ne_nil _)
    | cons c s =>
      rw [h] at hread
      have hne : c ≠ minus := by
        rintro rfl
        simp [read, readFrom, hminus] at hread
      rw [readSigned, if_neg hne, hread, Option.map_some, Option.some.injEq]
      omega

theorem padded_succ (w n : ℕ) :
    N.padded (w + 1) n = N.symbol (n / b ^ w % b) :: N.padded w n := by
  simp [padded, List.range_succ]

theorem readFrom_padded (m w n : ℕ) :
    N.readFrom m (N.padded w n) = some (m * b ^ w + n % b ^ w) := by
  have hb : 0 < b := by
    have := N.one_lt
    omega
  induction w generalizing m with
  | zero => simp [padded, readFrom, Nat.mod_one]
  | succ w ih =>
    have hdigit := N.digit_symbol (n / b ^ w % b) (Nat.mod_lt _ hb)
    rw [padded_succ, readFrom, hdigit, Option.bind_some, ih, Nat.mod_pow_succ]
    congr 1
    ring

theorem read_padded {w n : ℕ} (hw : 0 < w) (hn : n < b ^ w) : N.read (N.padded w n) = some n := by
  have hread := readFrom_padded (N := N) 0 w n
  rw [zero_mul, zero_add, Nat.mod_eq_of_lt hn] at hread
  cases h : N.padded w n with
  | nil => simp [padded, hw.ne'] at h
  | cons c s =>
    rw [h] at hread
    exact hread

end Numerals
