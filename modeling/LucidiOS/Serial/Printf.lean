import LucidiOS.Serial.Format

/-! `kprintf`, and which bytes of the format it reads. -/
namespace LucidiOS
variable {V : Type*}

/-- `va_arg` at the types that `kprintf` asks for: an argument and those behind it, or nothing where
the behaviour is undefined. -/
structure VaArg (V : Type*) where
  string : V → Option (Option CString × V)
  int : V → Option (BitVec 32 × V)
  char : V → Option (BitVec 8 × V)
  word : V → Option (BitVec 64 × V)

/-- The arguments left behind those of a piece. -/
def VaArg.take (A : VaArg V) : Piece → V → Option V
  | .string, args => (A.string args).map Prod.snd
  | .int, args => (A.int args).map Prod.snd
  | .char, args => (A.char args).map Prod.snd
  | .word, args => (A.word args).map Prod.snd
  | _, args => some args

/-- There are arguments for all pieces. -/
def VaArg.Enough (A : VaArg V) : List Piece → V → Prop
  | [], _ => True
  | piece :: ps, args => ∃ rest, A.take piece args = some rest ∧ A.Enough ps rest

/-- `va_arg` on promoted arguments. No argument has type `char` any more, so that it is undefined to
ask for one. -/
def promoted : VaArg (List Arg) where
  string
    | .string s :: args => some (s, args)
    | _ => none
  int
    | .int d :: args => some (d, args)
    | _ => none
  char _ := none
  word
    | .word x :: args => some (x, args)
    | _ => none

/-- The locals of `kprintf` and the port. -/
structure PrintfState (V : Type*) where
  i : ℕ
  args : V
  port : Port

inductive PrintfEnd (V : Type*)
  | returned (args : V) (port : Port)
  | undefined

/-- What one turn of the loop does and the indices of the format that it reads. -/
structure FormatVisit (V : Type*) where
  next : PrintfState V ⊕ PrintfEnd V
  reads : List ℕ

namespace Platform
variable (m : Platform) (A : VaArg V)

/-- The `switch` over the specifier. -/
def printSpecifier (c : BitVec 8) (args : V) (p : Port) : Option (V × Port) :=
  if c = 0x73 then (A.string args).map fun r => (r.2, m.writeBetter (r.1.getD nullText) p)
  else if c = 0x64 then
    (A.int args).bind fun r => (m.printIntSerial (r.1.signExtend 64) p).map fun p => (r.2, p)
  else if c = 0x63 then (A.char args).map fun r => (r.2, m.writeSerial r.1 p)
  else if c = 0x78 then (A.word args).map fun r => (r.2, m.printHexSerial r.1 p)
  else if c = 0x25 then some (args, m.writeSerial 0x25 p)
  else some (args, m.writeSerial c (m.writeSerial 0x25 p))

def formatVisit (fmt : CString) (s : PrintfState V) : FormatVisit V :=
  if fmt.byte s.i = 0 then ⟨.inr (.returned s.args s.port), [s.i]⟩
  else if fmt.byte s.i = 0x25 then
    match m.printSpecifier A (fmt.byte (s.i + 1)) s.args s.port with
    | some (args, port) => ⟨.inl ⟨s.i + 2, args, port⟩, [s.i, s.i + 1]⟩
    | none => ⟨.inr .undefined, [s.i, s.i + 1]⟩
  else ⟨.inl ⟨s.i + 1, s.args, m.writeSerial (fmt.byte s.i) s.port⟩, [s.i]⟩

def printfTurn (fmt : CString) (s : PrintfState V) : PrintfState V ⊕ PrintfEnd V :=
  (m.formatVisit A fmt s).next

/-- How `kprintf` ends, if its loop ends within `n` turns. -/
def kprintf (fmt : CString) (args : V) (p : Port) (n : ℕ) : Option (PrintfEnd V) :=
  Loop.run (m.printfTurn A fmt) n ⟨0, args, p⟩

/-- What the code prints for a piece of the format. -/
def printPiece : Piece → V → Port → Option (V × Port)
  | .literal c, args, p => some (args, m.writeSerial c p)
  | .string, args, p => (A.string args).map fun r => (r.2, m.writeBetter (r.1.getD nullText) p)
  | .int, args, p =>
    (A.int args).bind fun r => (m.printIntSerial (r.1.signExtend 64) p).map fun p => (r.2, p)
  | .char, args, p => (A.char args).map fun r => (r.2, m.writeSerial r.1 p)
  | .word, args, p => (A.word args).map fun r => (r.2, m.printHexSerial r.1 p)
  | .percent, args, p => some (args, m.writeSerial 0x25 p)
  | .unknown c, args, p => some (args, m.writeSerial c (m.writeSerial 0x25 p))
  | .dangling, args, p => some (args, m.writeSerial 0 (m.writeSerial 0x25 p))

section Turns
variable {m A} {fmt : CString} {s : PrintfState V} {l : List (BitVec 8)} {piece : Piece}
  {ps : List Piece} {args : V} {port : Port}

theorem printSpecifier_eq (c : BitVec 8) (args : V) (p : Port) :
    m.printSpecifier A c args p = m.printPiece A (directive c) args p := by
  unfold printSpecifier directive
  split_ifs <;> rfl

theorem formatVisit_nil (h : fmt.Rest s.i []) :
    m.formatVisit A fmt s = ⟨.inr (.returned s.args s.port), [s.i]⟩ := if_pos h.byte_eq

theorem formatVisit_literal {c : BitVec 8} (h : fmt.Rest s.i (c :: l)) (hc : c ≠ 0x25) :
    m.formatVisit A fmt s = ⟨.inl ⟨s.i + 1, s.args, m.writeSerial c s.port⟩, [s.i]⟩ := by
  have hbyte : fmt.byte s.i = c := h.byte_eq
  rw [formatVisit, hbyte, if_neg h.head_ne, if_neg hc]

theorem formatVisit_directive (h : fmt.Rest s.i (0x25 :: l)) :
    m.formatVisit A fmt s =
      match m.printPiece A (directive (l.headD 0)) s.args s.port with
      | some (args, port) => ⟨.inl ⟨s.i + 2, args, port⟩, [s.i, s.i + 1]⟩
      | none => ⟨.inr .undefined, [s.i, s.i + 1]⟩ := by
  have hbyte : fmt.byte s.i = 0x25 := h.byte_eq
  rw [formatVisit, hbyte, if_neg (by decide), if_pos rfl, h.tail.byte_eq, printSpecifier_eq]

/-- A turn that begins with a piece prints it and goes on behind it. -/
structure PieceTurn (m : Platform) (A : VaArg V) (fmt : CString) (s : PrintfState V) (piece : Piece)
    (ps : List Piece) (j : ℕ) : Prop where
  forward : s.i < j
  next : ∀ args port, m.printPiece A piece s.args s.port = some (args, port) →
    m.printfTurn A fmt s = .inl ⟨j, args, port⟩
  undefined : m.printPiece A piece s.args s.port = none → m.printfTurn A fmt s = .inr .undefined
  reads : ∀ k ∈ (m.formatVisit A fmt s).reads, k ≤ fmt.text.length
  rest : piece ≠ .dangling → ∃ l, fmt.Rest j l ∧ pieces l = ps
  behind : piece = .dangling → j = fmt.text.length + 1

/-- The directive of a `%` that the NUL follows is printed as one that is left over. -/
theorem printPiece_nul : m.printPiece A (directive 0) = m.printPiece A .dangling := rfl

theorem pieceTurn (h : fmt.Rest s.i l) (hp : pieces l = piece :: ps) :
    ∃ j, PieceTurn m A fmt s piece ps j := by
  have hlength := h.length
  rcases pieces_eq_cons hp with ⟨c, l, rfl, hc, rfl, rfl⟩ | ⟨c, l, rfl, rfl, rfl⟩ | ⟨rfl, rfl⟩
  · have hvisit := formatVisit_literal (m := m) (A := A) h hc
    refine ⟨s.i + 1, Nat.lt_succ_self _, fun args port hprint => ?_, nofun, ?_,
      fun _ => ⟨l, h.tail, rfl⟩, nofun⟩
    · cases hprint
      rw [printfTurn, hvisit]
    · rw [hvisit]
      simpa using h.le
  · have hvisit := formatVisit_directive (m := m) (A := A) h
    simp only [List.length_cons] at hlength
    refine ⟨s.i + 2, by omega, fun args port hprint => ?_, fun hprint => ?_, ?_,
      fun _ => ⟨l, h.tail.tail, rfl⟩, fun hc => absurd hc (directive_ne_dangling c)⟩
    · rw [printfTurn, hvisit, List.headD_cons, hprint]
    · rw [printfTurn, hvisit, List.headD_cons, hprint]
    · rw [hvisit]
      split <;> simp <;> omega
  · have hvisit := formatVisit_directive (m := m) (A := A) h
    simp only [List.length_cons, List.length_nil] at hlength
    refine ⟨s.i + 2, by omega, fun args port hprint => ?_, nofun, ?_, fun hc => absurd rfl hc,
      fun _ => by omega⟩
    · rw [printfTurn, hvisit, List.headD_nil, printPiece_nul, hprint]
    · rw [hvisit]
      split <;> simp <;> omega

theorem printPiece_take (p : Port) :
    (m.printPiece A piece args p).map Prod.fst = A.take piece args := by
  cases piece with
  | int =>
    cases hint : A.int args with
    | none => simp only [printPiece, VaArg.take, hint, Option.bind_none, Option.map_none]
    | some r =>
      obtain ⟨q, hq⟩ := exists_printIntSerial (m := m) (p := p) (signExtend_ne_intMin r.1)
      simp only [printPiece, VaArg.take, hint, Option.bind_some, Option.map_some, hq]
  | _ => simp only [printPiece, VaArg.take, Option.map_map, Option.map_some] <;> rfl

/-- The loop is in front of these pieces, for which there are arguments. -/
structure AtPieces (A : VaArg V) (fmt : CString) (ps : List Piece) (s : PrintfState V) : Prop where
  rest : ∃ l, fmt.Rest s.i l ∧ pieces l = ps
  enough : A.Enough ps s.args

theorem AtPieces.start (henough : A.Enough (pieces fmt.text) args) (p : Port) :
    AtPieces A fmt (pieces fmt.text) ⟨0, args, p⟩ :=
  ⟨⟨fmt.text, CString.rest_zero, rfl⟩, henough⟩

theorem AtPieces.visit_nil (h : AtPieces A fmt [] s) :
    m.formatVisit A fmt s = ⟨.inr (.returned s.args s.port), [s.i]⟩ ∧ s.i ≤ fmt.text.length := by
  obtain ⟨l, hrest, hl⟩ := h.rest
  rw [pieces_eq_nil hl] at hrest
  exact ⟨formatVisit_nil hrest, hrest.le⟩

theorem AtPieces.visit_cons (h : AtPieces A fmt (piece :: ps) s) : ∃ s', s.i < s'.i ∧
    m.printfTurn A fmt s = .inl s' ∧ (piece ≠ .dangling → AtPieces A fmt ps s') ∧
    (piece = .dangling → s'.i = fmt.text.length + 1) ∧
    ∀ k ∈ (m.formatVisit A fmt s).reads, k ≤ fmt.text.length := by
  obtain ⟨⟨l, hrest, hl⟩, _, htake, henough⟩ := h
  obtain ⟨j, hj⟩ := pieceTurn (m := m) (A := A) hrest hl
  rw [← printPiece_take (m := m) s.port] at htake
  obtain ⟨⟨left, port⟩, hprint, rfl⟩ := Option.map_eq_some_iff.mp htake
  exact ⟨⟨j, left, port⟩, hj.forward, hj.next _ _ hprint, fun hne => ⟨hj.rest hne, henough⟩,
    hj.behind, hj.reads⟩

/-- In front of pieces of which none is left over. -/
def InFormat (A : VaArg V) (fmt : CString) (s : PrintfState V) : Prop :=
  ∃ ps, AtPieces A fmt ps s ∧ .dangling ∉ ps

theorem InFormat.le (h : InFormat A fmt s) : s.i ≤ fmt.text.length := by
  obtain ⟨ps, ⟨⟨l, hrest, -⟩, -⟩, -⟩ := h
  exact hrest.le

theorem InFormat.turn (h : InFormat A fmt s) :
    (∀ k ∈ (m.formatVisit A fmt s).reads, k ≤ fmt.text.length) ∧
      ((∃ s', s.i < s'.i ∧ m.printfTurn A fmt s = .inl s' ∧ InFormat A fmt s') ∨
        m.printfTurn A fmt s = .inr (.returned s.args s.port)) := by
  obtain ⟨ps, hat, hdangling⟩ := h
  cases ps with
  | nil =>
    obtain ⟨hvisit, hle⟩ := hat.visit_nil (m := m)
    rw [printfTurn, hvisit]
    exact ⟨by simpa using hle, .inr rfl⟩
  | cons piece ps =>
    rw [List.mem_cons, not_or] at hdangling
    obtain ⟨s', hlt, hturn, hnext, -, hreads⟩ := hat.visit_cons (m := m)
    exact ⟨hreads, .inl ⟨s', hlt, hturn, ps, hnext (Ne.symm hdangling.1), hdangling.2⟩⟩

theorem InFormat.next {s' : PrintfState V} (h : InFormat A fmt s)
    (hturn : m.printfTurn A fmt s = .inl s') : s.i < s'.i ∧ InFormat A fmt s' := by
  obtain ⟨-, ⟨t, hlt, ht, hin⟩ | hend⟩ := h.turn (m := m)
  · rw [ht, Sum.inl.injEq] at hturn
    exact hturn ▸ ⟨hlt, hin⟩
  · rw [hend] at hturn
    contradiction

theorem InFormat.exit {e : PrintfEnd V} (h : InFormat A fmt s)
    (hturn : m.printfTurn A fmt s = .inr e) : e = .returned s.args s.port := by
  obtain ⟨-, ⟨t, -, ht, -⟩ | hend⟩ := h.turn (m := m)
  · rw [ht] at hturn
    contradiction
  · rw [hend, Sum.inr.injEq] at hturn
    exact hturn.symm

theorem InFormat.of_visits {s' : PrintfState V} (h : InFormat A fmt s)
    (hv : Loop.Visits (m.printfTurn A fmt) s s') : InFormat A fmt s' :=
  hv.inv h fun _ _ hu hturn => (hu.next hturn).2

theorem InFormat.returns (h : InFormat A fmt s) :
    ∃ n rest q, Loop.run (m.printfTurn A fmt) n s = some (.returned rest q) := by
  have hends : Loop.Terminates (m.printfTurn A fmt) s := by
    refine Loop.terminates_of_rank (fun s => fmt.text.length + 1 - s.i) fun t ht u hturn => ?_
    have hin := h.of_visits ht
    have hle := hin.le
    have hlt := (hin.next hturn).1
    omega
  obtain ⟨n, r, hr⟩ := hends
  obtain ⟨t, ht, hexit⟩ := Loop.exists_run_iff.mp ⟨n, hr⟩
  rw [(h.of_visits ht).exit hexit] at hr
  exact ⟨n, _, _, hr⟩

/-- A `%` that is left over takes the loop past the NUL. -/
theorem AtPieces.visits_behind (h : AtPieces A fmt ps s) (hdangling : .dangling ∈ ps) :
    ∃ t, Loop.Visits (m.printfTurn A fmt) s t ∧ t.i = fmt.text.length + 1 := by
  induction ps generalizing s with
  | nil => contradiction
  | cons piece ps ih =>
    obtain ⟨s', -, hturn, hnext, hbehind, -⟩ := h.visit_cons (m := m)
    by_cases hpiece : piece = .dangling
    · exact ⟨s', Loop.Visits.start.next hturn, hbehind hpiece⟩
    · have hps : .dangling ∈ ps := by
        rcases List.mem_cons.mp hdangling with heq | hmem
        · exact absurd heq.symm hpiece
        · exact hmem
      obtain ⟨t, ht, hi⟩ := ih (hnext hpiece) hps
      exact ⟨t, Relation.ReflTransGen.head hturn ht, hi⟩

theorem index_mem_reads : s.i ∈ (m.formatVisit A fmt s).reads := by
  unfold formatVisit
  split_ifs
  · exact List.mem_cons_self
  · split <;> exact List.mem_cons_self
  · exact List.mem_cons_self

end Turns

/-- `kprintf` reads no byte of the format behind its NUL, and returns. -/
structure StaysInFormat (m : Platform) (A : VaArg V) (fmt : CString) (args : V) (p : Port) :
    Prop where
  reads : ∀ s, Loop.Visits (m.printfTurn A fmt) ⟨0, args, p⟩ s →
    ∀ k ∈ (m.formatVisit A fmt s).reads, k ≤ fmt.text.length
  returns : ∃ n rest q, m.kprintf A fmt args p n = some (.returned rest q)

theorem StaysInFormat.not_dangling {m : Platform} {A : VaArg V} {fmt : CString} {args : V} {p : Port}
    (henough : A.Enough (pieces fmt.text) args) (h : StaysInFormat m A fmt args p) :
    .dangling ∉ pieces fmt.text := by
  intro hdangling
  obtain ⟨t, ht, hi⟩ := (AtPieces.start henough p).visits_behind (m := m) hdangling
  have hle := h.reads t ht t.i index_mem_reads
  omega

/-- `kprintf` stays in its format if and only if the number of `%` at the end is even. -/
theorem staysInFormat_iff (m : Platform) (A : VaArg V) (fmt : CString) (args : V) (p : Port)
    (henough : A.Enough (pieces fmt.text) args) :
    StaysInFormat m A fmt args p ↔ Even (trailing fmt.text) := by
  rw [← Nat.not_odd_iff_even, ← dangling_mem_iff]
  constructor
  · intro h
    exact h.not_dangling henough
  · intro hdangling
    have hin : InFormat A fmt ⟨0, args, p⟩ := ⟨_, AtPieces.start henough p, hdangling⟩
    exact ⟨fun s hs => ((hin.of_visits hs).turn (m := m)).1, hin.returns⟩

/-- "%d%%" -/
def percentFormat : CString := ⟨[0x25, 0x64, 0x25, 0x25], fun _ => 0, by decide⟩

theorem staysInFormat_iff_percent :
    StaysInFormat ready promoted percentFormat [.int 5] ⟨[], 0⟩ :=
  (staysInFormat_iff ready promoted percentFormat [.int 5] ⟨[], 0⟩
    ⟨[], rfl, [], rfl, trivial⟩).mpr (by decide)

/-- "%", with a "B" in memory behind the NUL. -/
def lonePercent : CString := ⟨[0x25], fun i => if i = 2 then 0x42 else 0, by decide⟩

/-- The NUL at index 1 is taken for a specifier. -/
theorem lonePercent_read_behind :
    promoted.Enough (pieces lonePercent.text) [] ∧ lonePercent.text.length = 1 ∧
      (∃ s, Loop.Visits (ready.printfTurn promoted lonePercent) ⟨0, [], ⟨[], 0⟩⟩ s ∧
        2 ∈ (ready.formatVisit promoted lonePercent s).reads) ∧
      ¬StaysInFormat ready promoted lonePercent [] ⟨[], 0⟩ := by
  have henough : promoted.Enough (pieces lonePercent.text) [] := ⟨[], rfl, trivial⟩
  have hdangling : .dangling ∈ pieces lonePercent.text := List.mem_cons_self
  obtain ⟨s, hs, hi⟩ :=
    (AtPieces.start henough ⟨[], 0⟩).visits_behind (m := ready) hdangling
  have hread : s.i ∈ (ready.formatVisit promoted lonePercent s).reads := index_mem_reads
  rw [hi] at hread
  exact ⟨henough, rfl, ⟨s, hs, hread⟩, fun h => h.not_dangling henough hdangling⟩

end Platform
end LucidiOS
