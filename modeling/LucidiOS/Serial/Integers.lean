import LucidiOS.Serial.Numbers

/-! What `print_int_serial` prints. -/
namespace LucidiOS.Platform
variable (m : Platform)

/-- The digit goes into the buffer, and no operation of the turn overflows. -/
structure DigitFits (d : IntLocals) : Prop where
  index : d.i < 32
  digit : (d.n.srem 10 + 0x30).toInt = d.n.toInt.tmod 10 + 48
  char : (d.n.srem 10 + 0x30).toInt ≤ 127
  quotient : (d.n.sdiv 10).toInt = d.n.toInt.tdiv 10

/-- The decimal numeral of the number is sent and is read back as the number, nothing overflows, and
both loops stay in the buffer. -/
structure PrintsNumeral (n : BitVec 64) (p : Port) : Prop where
  numeral : ∃ q, m.printIntSerial n p = some q ∧ q.sent = p.sent ++ decimal.signed 0x2D n.toInt
  readBack : ∀ q, m.printIntSerial n p = some q →
    decimal.readSigned 0x2D (q.sent.drop p.sent.length) = some n.toInt
  negation : n.slt 0 → (-n).toInt = -n.toInt
  extraction : ∀ k q, m.afterSign n p = some (k, q) →
    ∀ d, Loop.Visits extractTurn (m.intLocals k q) d → (0#64).slt d.n → DigitFits d
  backward : ∀ k q, m.afterSign n p = some (k, q) →
    let d := m.extracted k q
    ∀ s, Loop.Visits (m.backwardTurn d.buffer) (d.i, q) s → 0 < s.1 → s.1 - 1 < 32

section Loops
variable {m} {n : BitVec 64} {p : Port} {d : IntLocals}

theorem extracting_start (hn : n.toNat < 2 ^ 63) :
    Extracting n.toNat (m.intLocals n p) := ⟨hn, rfl⟩

theorem extracting_of_visits (hn : n.toNat < 2 ^ 63)
    (h : Loop.Visits extractTurn (m.intLocals n p) d) : Extracting n.toNat d :=
  h.inv (extracting_start hn) fun _ _ hd hturn => hd.turn hturn

theorem extractTurn_eq_inr {r : IntLocals} (h : extractTurn d = .inr r) :
    r = d ∧ ¬(0#64).slt d.n := by
  unfold extractTurn at h
  split_ifs at h with hpos
  cases h
  exact ⟨rfl, hpos⟩

/-- The first loop leaves all digits in the buffer, the last one first. -/
theorem extracted_written (hn : n.toNat < 2 ^ 63) :
    (m.extracted n p).written = (Nat.digits 10 n.toNat).map decimal.symbol ∧
      (m.extracted n p).i ≤ 19 := by
  apply Loop.result_inv (extract_terminates (m.intLocals n p)) (P := Extracting n.toNat)
    (Q := fun d => d.written = (Nat.digits 10 n.toNat).map decimal.symbol ∧ d.i ≤ 19)
    (extracting_start hn)
  · exact fun _ _ hd hturn => hd.turn hturn
  · intro d r hd hturn
    obtain ⟨rfl, hpos⟩ := extractTurn_eq_inr hturn
    have hzero : r.n.toNat = 0 := by
      have := hd.n_lt
      rw [slt_zero_iff] at hpos
      omega
    have hindex := hd.index_add hn
    have hdigits := hd.digits
    rw [hzero, Nat.digits_zero, List.map_nil, List.append_nil] at hdigits
    exact ⟨hdigits, by omega⟩

/-- The second loop sends the buffer backward. -/
theorem backward_sent (buffer : ℕ → BitVec 8) (i : ℕ) (p : Port) :
    (Loop.result (m.backward_terminates buffer (i, p))).sent =
      p.sent ++ ((List.range i).map buffer).reverse := by
  apply Loop.result_inv (m.backward_terminates buffer (i, p))
    (P := fun s => s.2.sent ++ ((List.range s.1).map buffer).reverse =
      p.sent ++ ((List.range i).map buffer).reverse)
    (Q := fun q => q.sent = p.sent ++ ((List.range i).map buffer).reverse) rfl
  · intro s s' hsent hturn
    obtain ⟨hpos, rfl⟩ := backwardTurn_eq_inl hturn
    obtain ⟨j, hj⟩ := Nat.exists_eq_succ_of_ne_zero hpos.ne'
    rw [← hsent, hj, List.range_succ]
    simp
  · intro s q hsent hturn
    obtain ⟨hzero, rfl⟩ := backwardTurn_eq_inr hturn
    rw [← hsent, hzero]
    exact (List.append_nil _).symm

theorem backward_index {buffer : ℕ → BitVec 8} {i : ℕ} {s : ℕ × Port}
    (h : Loop.Visits (m.backwardTurn buffer) (i, p) s) : s.1 ≤ i := by
  refine h.inv (P := fun s => s.1 ≤ i) (Nat.le_refl i) fun u v hu hturn => ?_
  obtain ⟨-, rfl⟩ := backwardTurn_eq_inl hturn
  exact (Nat.sub_le _ _).trans hu

/-- Away from the smallest number the sign is taken off. -/
theorem afterSign_eq (hn : n ≠ BitVec.intMin 64) : ∃ k q, m.afterSign n p = some (k, q) ∧
    k.toNat = n.toInt.natAbs ∧ n.toInt.natAbs < 2 ^ 63 ∧
      q.sent = p.sent ++ if n.toInt < 0 then [0x2D] else [] := by
  have hmin : n.toNat ≠ 2 ^ 63 := fun h => hn (BitVec.eq_of_toNat_eq h)
  have hlt := n.isLt
  have hslt : n.slt 0 ↔ n.toInt < 0 := BitVec.slt_iff_toInt_lt
  have htoInt := BitVec.toInt_eq_toNat_cond n
  unfold afterSign
  rw [negated_of_ne hn, if_congr hslt rfl rfl]
  by_cases hneg : n.toInt < 0
  · rw [if_pos hneg, if_pos hneg]
    refine ⟨-n, _, rfl, ?_⟩
    split_ifs at htoInt
    · omega
    · refine ⟨?_, by omega, writeSerial_sent m _ _⟩
      rw [BitVec.toNat_neg]
      omega
  · rw [if_neg hneg, if_neg hneg, List.append_nil]
    refine ⟨n, p, rfl, ?_⟩
    split_ifs at htoInt
    · exact ⟨by omega, by omega, rfl⟩
    · omega

theorem DigitFits.of_extracting {k : ℕ} (hk : k < 2 ^ 63) (h : Extracting k d)
    (hpos : (0#64).slt d.n) : DigitFits d := by
  obtain ⟨hpos, hlt⟩ := slt_zero_iff.mp hpos
  have hindex := h.index_add hk
  have hn : d.n.toInt = d.n.toNat := BitVec.toInt_eq_toNat_of_lt (by omega)
  have hzero : (0x30 : BitVec 64).toNat = 48 := rfl
  have hsum : (d.n.srem 10 + 0x30).toNat = d.n.toNat % 10 + 48 := by
    rw [BitVec.toNat_add, srem_ten hlt, hzero]
    omega
  have hsum' : (d.n.srem 10 + 0x30).toInt = (d.n.toNat % 10 + 48 : ℕ) := by
    rw [BitVec.toInt_eq_toNat_of_lt (by omega), hsum]
  refine ⟨by omega, ?_, by omega, ?_⟩
  · rw [hsum', hn]
    rfl
  · rw [BitVec.toInt_eq_toNat_of_lt (by rw [sdiv_ten hlt]; omega), sdiv_ten hlt, hn]
    rfl

theorem printDigits_sent (hn : n.toNat < 2 ^ 63) (p : Port) : (m.printDigits n p).sent =
    p.sent ++ (Nat.digits 10 n.toNat).reverse.map decimal.symbol := by
  obtain ⟨hwritten, -⟩ := extracted_written (m := m) (p := p) hn
  rw [List.map_reverse, ← hwritten]
  exact backward_sent _ _ p

/-- Away from the smallest number the numeral is sent. -/
theorem printIntSerial_sent (hn : n ≠ BitVec.intMin 64) (p : Port) : ∃ q,
    m.printIntSerial n p = some q ∧ q.sent = p.sent ++ decimal.signed 0x2D n.toInt := by
  obtain ⟨k, q, hsign, habs, hlt, hsent⟩ := afterSign_eq (m := m) (p := p) hn
  unfold printIntSerial
  split_ifs with hzero
  · refine ⟨_, rfl, ?_⟩
    rw [hzero, writeSerial_sent]
    rfl
  · have hne : n.toInt.natAbs ≠ 0 := by
      rw [Int.natAbs_ne_zero]
      exact fun h => hzero (BitVec.eq_of_toInt_eq h)
    rw [hsign]
    refine ⟨m.printDigits k q, rfl, ?_⟩
    rw [printDigits_sent (by omega), hsent, habs, Numerals.signed, Numerals.numeral, if_neg hne]
    split_ifs <;> simp

theorem printIntSerial_intMin (p : Port) : m.printIntSerial (BitVec.intMin 64) p = none := by
  rw [printIntSerial, if_neg (by decide), afterSign, if_pos (by decide), negated_intMin]
  rfl

end Loops

/-- `print_int_serial` is right for all numbers but the smallest one. -/
theorem printsNumeral_iff (m : Platform) (n : BitVec 64) (p : Port) :
    m.PrintsNumeral n p ↔ n ≠ BitVec.intMin 64 := by
  constructor
  · rintro h rfl
    obtain ⟨q, hq, -⟩ := h.numeral
    rw [printIntSerial_intMin] at hq
    contradiction
  · intro hn
    obtain ⟨k, q, hsign, habs, hlt, -⟩ := afterSign_eq (m := m) (p := p) hn
    obtain ⟨r, hr, hsent⟩ := printIntSerial_sent (m := m) hn p
    have hsmall : k.toNat < 2 ^ 63 := by omega
    constructor
    · exact ⟨r, hr, hsent⟩
    · intro r' hr'
      obtain rfl : r = r' := Option.some.inj (hr.symm.trans hr')
      rw [hsent, List.drop_left]
      exact Numerals.readSigned_signed rfl n.toInt
    · exact fun _ => BitVec.toInt_neg_of_ne_intMin hn
    · intro k' q' h' d hd hpos
      cases hsign.symm.trans h'
      exact .of_extracting hsmall (extracting_of_visits hsmall hd) hpos
    · intro k' q' h' d s hs hpos
      cases hsign.symm.trans h'
      have hindex : d.i ≤ 19 := (extracted_written (m := m) (p := q) hsmall).2
      have := backward_index hs
      omega

/-- The negation of the smallest number overflows. -/
theorem smallest_undefined :
    (-BitVec.intMin 64).toInt ≠ -(BitVec.intMin 64).toInt ∧
      ready.printIntSerial (BitVec.intMin 64) ⟨[], 0⟩ = none ∧
      ¬ready.PrintsNumeral (BitVec.intMin 64) ⟨[], 0⟩ := by
  have hnone := printIntSerial_intMin (m := ready) ⟨[], 0⟩
  refine ⟨by decide, hnone, fun h => ?_⟩
  obtain ⟨q, hq, -⟩ := h.numeral
  rw [hnone] at hq
  contradiction

end LucidiOS.Platform
