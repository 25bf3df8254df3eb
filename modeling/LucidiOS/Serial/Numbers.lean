import LucidiOS.Serial.Port
import LucidiOS.Text.Numeral

/-! The numbers that are printed to the serial port. -/
namespace LucidiOS

def decimal : Numerals 10 (BitVec 8) where
  symbol d := BitVec.ofNat 8 (48 + d)
  digit c := if 48 ≤ c.toNat ∧ c.toNat < 58 then some (c.toNat - 48) else none
  digit_symbol := by decide
  one_lt := by decide

def hexadecimal : Numerals 16 (BitVec 8) where
  symbol d := BitVec.ofNat 8 (if d < 10 then 48 + d else 55 + d)
  digit c :=
    if 48 ≤ c.toNat ∧ c.toNat < 58 then some (c.toNat - 48)
    else if 65 ≤ c.toNat ∧ c.toNat < 71 then some (c.toNat - 55) else none
  digit_symbol := by decide
  one_lt := by decide

/-- `hex_chars`. -/
def hexChars : CString where
  text := [0x30, 0x31, 0x32, 0x33, 0x34, 0x35, 0x36, 0x37, 0x38, 0x39, 0x41, 0x42, 0x43, 0x44, 0x45,
    0x46]
  behind _ := 0
  text_ne := by decide

namespace Platform
variable (m : Platform)

/-- One turn of the loop over the nibbles. -/
def hexTurn (n : BitVec 64) (s : ℤ × Port) : (ℤ × Port) ⊕ Port :=
  if 0 ≤ s.1 then
    let nibble : BitVec 8 := ((n >>> s.1.toNat) &&& 0xF).setWidth 8
    .inl (s.1 - 4, m.writeSerial (hexChars.byte nibble.toNat) s.2)
  else .inr s.2

section HexTurn
variable {m} {n : BitVec 64} {s : ℤ × Port}

theorem hexTurn_eq_inl {s' : ℤ × Port} (h : m.hexTurn n s = .inl s') :
    0 ≤ s.1 ∧ s'.1 = s.1 - 4 ∧ s'.2 =
      m.writeSerial (hexChars.byte (((n >>> s.1.toNat) &&& 0xF).setWidth 8 : BitVec 8).toNat) s.2 := by
  unfold hexTurn at h
  split_ifs at h with hpos
  cases h
  exact ⟨hpos, rfl, rfl⟩

theorem hexTurn_eq_inr {q : Port} (h : m.hexTurn n s = .inr q) : s.1 < 0 ∧ q = s.2 := by
  unfold hexTurn at h
  split_ifs at h with hpos
  cases h
  exact ⟨by omega, rfl⟩

end HexTurn

theorem hex_terminates (n : BitVec 64) (s : ℤ × Port) : Loop.Terminates (m.hexTurn n) s := by
  refine Loop.terminates_of_rank (fun s => (s.1 + 4).toNat) fun s _ s' hturn => ?_
  obtain ⟨hpos, hnext, -⟩ := hexTurn_eq_inl hturn
  omega

def printHexSerial (n : BitVec 64) (p : Port) : Port :=
  Loop.result (m.hex_terminates n (60, m.writeSerial 0x78 (m.writeSerial 0x30 p)))

end Platform

section Hexadecimal

theorem nibble_toNat (n : BitVec 64) (k : ℕ) :
    (((n >>> (4 * k)) &&& 0xF).setWidth 8 : BitVec 8).toNat = n.toNat / 16 ^ k % 16 := by
  have hmask : (0xF : BitVec 64).toNat = 2 ^ 4 - 1 := rfl
  have hpow : 2 ^ (4 * k) = 16 ^ k := pow_mul 2 4 k
  rw [BitVec.toNat_setWidth, BitVec.toNat_and, BitVec.toNat_ushiftRight, hmask,
    Nat.and_two_pow_sub_one_eq_mod, Nat.shiftRight_eq_div_pow, hpow]
  omega

theorem hexChars_byte : ∀ d < 16, hexChars.byte d = hexadecimal.symbol d := by decide

/-- `print_hex_serial` sends a prefix and sixteen digits. -/
@[simp] theorem Platform.printHexSerial_sent (m : Platform) (n : BitVec 64) (p : Port) :
    (m.printHexSerial n p).sent = p.sent ++ 0x30 :: 0x78 :: hexadecimal.padded 16 n.toNat := by
  let start : ℤ × Port := (60, m.writeSerial 0x78 (m.writeSerial 0x30 p))
  -- with `k` digits to come, the loop is at bit `4 * (k - 1)`
  apply Loop.result_inv (m.hex_terminates n start)
    (P := fun s => ∃ k : ℕ, s.1 = 4 * (k : ℤ) - 4 ∧ s.2.sent ++ hexadecimal.padded k n.toNat =
      p.sent ++ 0x30 :: 0x78 :: hexadecimal.padded 16 n.toNat)
    (Q := fun q => q.sent = p.sent ++ 0x30 :: 0x78 :: hexadecimal.padded 16 n.toNat)
  · exact ⟨16, rfl, by simp [start]⟩
  · rintro s s' ⟨k, hk, hsent⟩ hturn
    obtain ⟨hpos, hnext, hport⟩ := hexTurn_eq_inl hturn
    obtain ⟨k, rfl⟩ : ∃ k', k = k' + 1 := ⟨k - 1, by omega⟩
    have hbit : s.1.toNat = 4 * k := by omega
    refine ⟨k, by omega, ?_⟩
    rw [hport, hbit, nibble_toNat, hexChars_byte _ (Nat.mod_lt _ (by decide)), writeSerial_sent,
      ← hsent, Numerals.padded_succ, List.append_assoc]
    rfl
  · rintro s q ⟨k, hk, hsent⟩ hturn
    obtain ⟨hneg, rfl⟩ := hexTurn_eq_inr hturn
    obtain rfl : k = 0 := by omega
    rw [← hsent]
    exact (List.append_nil _).symm

theorem hexadecimal_read (n : BitVec 64) :
    hexadecimal.read (hexadecimal.padded 16 n.toNat) = some n.toNat :=
  Numerals.read_padded (by decide) n.isLt

end Hexadecimal

/-- The locals of `print_int_serial`. -/
structure IntLocals where
  n : BitVec 64
  i : ℕ
  buffer : ℕ → BitVec 8

/-- One turn of the loop that extracts digits. -/
def extractTurn (d : IntLocals) : IntLocals ⊕ IntLocals :=
  if (0#64).slt d.n then
    .inl ⟨d.n.sdiv 10, d.i + 1, Function.update d.buffer d.i ((d.n.srem 10 + 0x30).setWidth 8)⟩
  else .inr d

/-- What was put in the buffer. -/
def IntLocals.written (d : IntLocals) : List (BitVec 8) := (List.range d.i).map d.buffer

section Extraction
variable {d d' : IntLocals} {k : ℕ}

theorem slt_zero_iff {n : BitVec 64} : (0#64).slt n ↔ 0 < n.toNat ∧ n.toNat < 2 ^ 63 := by
  have := n.isLt
  rw [BitVec.slt_iff_toInt_lt, BitVec.toInt_zero, BitVec.toInt_eq_toNat_cond]
  split_ifs <;> omega

theorem msb_eq_false {n : BitVec 64} (hn : n.toNat < 2 ^ 63) : n.msb = false := by
  rw [BitVec.msb_eq_false_iff_two_mul_lt]
  omega

theorem sdiv_ten {n : BitVec 64} (hn : n.toNat < 2 ^ 63) : (n.sdiv 10).toNat = n.toNat / 10 := by
  rw [BitVec.sdiv_eq, msb_eq_false hn]
  exact BitVec.toNat_udiv

theorem srem_ten {n : BitVec 64} (hn : n.toNat < 2 ^ 63) : (n.srem 10).toNat = n.toNat % 10 := by
  rw [BitVec.srem_eq, msb_eq_false hn]
  exact BitVec.toNat_umod

theorem map_range_update {α : Type*} (f : ℕ → α) (i : ℕ) (v : α) :
    (List.range (i + 1)).map (Function.update f i v) = (List.range i).map f ++ [v] := by
  rw [List.range_succ, List.map_append, List.map_singleton, Function.update_self]
  congr 1
  apply List.map_congr_left
  intro j hj
  have := List.mem_range.mp hj
  exact Function.update_of_ne (by omega) _ _

theorem extractTurn_eq_inl (h : extractTurn d = .inl d') :
    0 < d.n.toNat ∧ d.n.toNat < 2 ^ 63 ∧ d'.n.toNat = d.n.toNat / 10 ∧
      d'.written = d.written ++ [decimal.symbol (d.n.toNat % 10)] := by
  unfold extractTurn at h
  split_ifs at h with hpos
  cases h
  obtain ⟨hpos, hlt⟩ := slt_zero_iff.mp hpos
  refine ⟨hpos, hlt, sdiv_ten hlt, ?_⟩
  have hsymbol : (d.n.srem 10 + 0x30).setWidth 8 = decimal.symbol (d.n.toNat % 10) := by
    have hzero : (0x30 : BitVec 64).toNat = 48 := rfl
    apply BitVec.eq_of_toNat_eq
    rw [BitVec.toNat_setWidth, BitVec.toNat_add, srem_ten hlt, hzero, decimal, BitVec.toNat_ofNat]
    omega
  rw [← hsymbol]
  exact map_range_update d.buffer d.i _

theorem extract_terminates (d : IntLocals) : Loop.Terminates extractTurn d := by
  refine Loop.terminates_of_rank (fun d => d.n.toNat) fun d _ d' hturn => ?_
  obtain ⟨hpos, -, hdiv, -⟩ := extractTurn_eq_inl hturn
  omega

/-- The buffer and what is left of the number have the digits of `k`. -/
structure Extracting (k : ℕ) (d : IntLocals) : Prop where
  n_lt : d.n.toNat < 2 ^ 63
  digits : d.written ++ (Nat.digits 10 d.n.toNat).map decimal.symbol =
    (Nat.digits 10 k).map decimal.symbol

theorem Extracting.turn (h : Extracting k d) (hturn : extractTurn d = .inl d') :
    Extracting k d' := by
  obtain ⟨hpos, hlt, hdiv, hwritten⟩ := extractTurn_eq_inl hturn
  refine ⟨by omega, ?_⟩
  rw [← h.digits, Nat.digits_def' (by decide) hpos, hwritten, hdiv, List.append_assoc]
  rfl

/-- A number below 2 ^ 63 has at most 19 digits. -/
theorem Extracting.index_add (h : Extracting k d) (hk : k < 2 ^ 63) :
    d.i + (Nat.digits 10 d.n.toNat).length ≤ 19 := by
  have hlength := congrArg List.length h.digits
  have hdigits : (Nat.digits 10 k).length ≤ 19 :=
    (Nat.digits_length_le_iff (by decide) k).mpr (by omega)
  simp only [IntLocals.written, List.length_append, List.length_map, List.length_range] at hlength
  omega

end Extraction

namespace Platform
variable (m : Platform)

/-- The locals before the digits are extracted. -/
def intLocals (n : BitVec 64) (p : Port) : IntLocals := ⟨n, 0, m.stack p⟩

def extracted (n : BitVec 64) (p : Port) : IntLocals :=
  Loop.result (extract_terminates (m.intLocals n p))

/-- One turn of the loop that prints the buffer backward. -/
def backwardTurn (buffer : ℕ → BitVec 8) (s : ℕ × Port) : (ℕ × Port) ⊕ Port :=
  if 0 < s.1 then .inl (s.1 - 1, m.writeSerial (buffer (s.1 - 1)) s.2) else .inr s.2

section BackwardTurn
variable {m} {buffer : ℕ → BitVec 8} {s : ℕ × Port}

theorem backwardTurn_eq_inl {s' : ℕ × Port} (h : m.backwardTurn buffer s = .inl s') :
    0 < s.1 ∧ s' = (s.1 - 1, m.writeSerial (buffer (s.1 - 1)) s.2) := by
  unfold backwardTurn at h
  split_ifs at h with hpos
  cases h
  exact ⟨hpos, rfl⟩

theorem backwardTurn_eq_inr {q : Port} (h : m.backwardTurn buffer s = .inr q) :
    s.1 = 0 ∧ q = s.2 := by
  unfold backwardTurn at h
  split_ifs at h with hpos
  cases h
  exact ⟨by omega, rfl⟩

end BackwardTurn

theorem backward_terminates (buffer : ℕ → BitVec 8) (s : ℕ × Port) :
    Loop.Terminates (m.backwardTurn buffer) s := by
  refine Loop.terminates_of_rank (fun s => s.1) fun s _ s' hturn => ?_
  obtain ⟨hpos, rfl⟩ := backwardTurn_eq_inl hturn
  dsimp only
  omega

/-- Unary minus of C, undefined for the number that has no negative. -/
def negated (n : BitVec 64) : Option (BitVec 64) := if n.negOverflow then none else some (-n)

/-- A negative number is negated after its sign. -/
def afterSign (n : BitVec 64) (p : Port) : Option (BitVec 64 × Port) :=
  if n.slt 0 then (negated n).map fun n => (n, m.writeSerial 0x2D p) else some (n, p)

/-- Both loops. -/
def printDigits (n : BitVec 64) (p : Port) : Port :=
  let d := m.extracted n p
  Loop.result (m.backward_terminates d.buffer (d.i, p))

/-- The port behind the call, or nothing where the behaviour is undefined. -/
def printIntSerial (n : BitVec 64) (p : Port) : Option Port :=
  if n = 0 then some (m.writeSerial 0x30 p)
  else (m.afterSign n p).map fun r => m.printDigits r.1 r.2

section Negation
variable {m} {n : BitVec 64} {p : Port}

theorem negOverflow_iff : n.negOverflow = true ↔ n = BitVec.intMin 64 := by
  simp [BitVec.negOverflow_eq]

theorem negated_of_ne (hn : n ≠ BitVec.intMin 64) : negated n = some (-n) :=
  if_neg (negOverflow_iff.not.mpr hn)

theorem negated_intMin : negated (BitVec.intMin 64) = none := if_pos (negOverflow_iff.mpr rfl)

/-- Away from the smallest number the behaviour is defined. -/
theorem exists_printIntSerial (hn : n ≠ BitVec.intMin 64) : ∃ q, m.printIntSerial n p = some q := by
  unfold printIntSerial afterSign
  rw [negated_of_ne hn]
  split_ifs <;> exact ⟨_, rfl⟩

/-- An `int` is never the smallest number of 64 bits. -/
theorem signExtend_ne_intMin (d : BitVec 32) : d.signExtend 64 ≠ BitVec.intMin 64 := by
  intro h
  have htoInt : (d.signExtend 64).toInt = d.toInt := BitVec.toInt_signExtend_of_le (by decide)
  have hmin : (BitVec.intMin 64).toInt = -2 ^ 63 := rfl
  have := BitVec.le_toInt d
  rw [h, hmin] at htoInt
  omega

end Negation
end Platform
end LucidiOS
