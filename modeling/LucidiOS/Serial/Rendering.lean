import LucidiOS.Serial.Integers
import LucidiOS.Serial.Printf

/-! What `kprintf` prints. -/
namespace LucidiOS.Platform

/-- `kprintf` returns with the output sent and these arguments left. -/
def Renders (m : Platform) (fmt : CString) (args : List Arg) (p : Port) (out : List (BitVec 8))
    (left : List Arg) : Prop :=
  ∃ n q, m.kprintf promoted fmt args p n = some (.returned left q) ∧ q.sent = p.sent ++ out

section Pieces
variable {m : Platform} {fmt : CString} {args left : List Arg} {out : List (BitVec 8)}

theorem printInt_sent (d : BitVec 32) (p : Port) : ∃ q,
    m.printIntSerial (d.signExtend 64) p = some q ∧
      q.sent = p.sent ++ decimal.signed 0x2D d.toInt := by
  have htoInt : (d.signExtend 64).toInt = d.toInt := BitVec.toInt_signExtend_of_le (by decide)
  rw [← htoInt]
  exact printIntSerial_sent (signExtend_ne_intMin d) p

/-- Each piece but `%c` is printed as it is rendered. -/
theorem printPiece_render {piece : Piece} (hrender : piece.render args = some (out, left))
    (hchar : piece ≠ .char) (p : Port) :
    ∃ q, m.printPiece promoted piece args p = some (left, q) ∧ q.sent = p.sent ++ out := by
  cases piece with
  | char => exact absurd rfl hchar
  | dangling => contradiction
  | literal c =>
    cases hrender
    exact ⟨_, rfl, writeSerial_sent m c p⟩
  | percent =>
    cases hrender
    exact ⟨_, rfl, writeSerial_sent m 0x25 p⟩
  | unknown c =>
    cases hrender
    exact ⟨_, rfl, by simp⟩
  | string =>
    rcases args with _ | ⟨s | d | x, args⟩ <;> cases hrender
    exact ⟨_, rfl, writeBetter_sent m _ p⟩
  | int =>
    rcases args with _ | ⟨s | d | x, args⟩ <;> cases hrender
    obtain ⟨q, hprint, hsent⟩ := printInt_sent (m := m) d p
    refine ⟨q, ?_, hsent⟩
    rw [printPiece, promoted, Option.bind_some, hprint]
    rfl
  | word =>
    rcases args with _ | ⟨s | d | x, args⟩ <;> cases hrender
    exact ⟨_, rfl, printHexSerial_sent m x p⟩

/-- The loop prints the pieces up to the first `%c`. -/
theorem run_pieces {ps : List Piece} {s : PrintfState (List Arg)}
    (hrest : ∃ l, fmt.Rest s.i l ∧ pieces l = ps) (hrender : render ps s.args = some (out, left)) :
    ∃ n e, Loop.run (m.printfTurn promoted fmt) n s = some e ∧
      (.char ∈ ps → e = .undefined) ∧
      (.char ∉ ps → ∃ q, e = .returned left q ∧ q.sent = s.port.sent ++ out) := by
  induction ps generalizing s out with
  | nil =>
    obtain ⟨l, hl, hnil⟩ := hrest
    rw [pieces_eq_nil hnil] at hl
    cases hrender
    have hturn : m.printfTurn promoted fmt s = .inr (.returned s.args s.port) := by
      rw [printfTurn, formatVisit_nil hl]
    exact ⟨1, _, Loop.run_succ_inr hturn, fun h => absurd h List.not_mem_nil,
      fun _ => ⟨s.port, rfl, by simp⟩⟩
  | cons piece ps ih =>
    obtain ⟨l, hl, hpieces⟩ := hrest
    obtain ⟨j, hj⟩ := pieceTurn (m := m) (A := promoted) hl hpieces
    obtain ⟨⟨out₁, args₁⟩, hpiece, hrender⟩ := Option.bind_eq_some_iff.mp hrender
    obtain ⟨⟨out₂, args₂⟩, hps, hout⟩ := Option.bind_eq_some_iff.mp hrender
    cases hout
    by_cases hchar : piece = .char
    · refine ⟨1, .undefined, Loop.run_succ_inr (hj.undefined ?_), fun _ => rfl, fun hnot => ?_⟩
      · rw [hchar]
        rfl
      · exact absurd (hchar ▸ List.mem_cons_self) hnot
    · obtain ⟨q, hprint, hsent⟩ := printPiece_render (m := m) hpiece hchar s.port
      have hne : piece ≠ .dangling := by
        rintro rfl
        contradiction
      obtain ⟨n, e, hrun, hundefined, hreturned⟩ := ih (s := ⟨j, args₁, q⟩) (hj.rest hne) hps
      refine ⟨n + 1, e, (Loop.run_succ_inl (hj.next _ _ hprint)).trans hrun, fun hmem => ?_,
        fun hnot => ?_⟩
      · exact hundefined (List.mem_of_ne_of_mem (Ne.symm hchar) hmem)
      · obtain ⟨q', he, hsent'⟩ := hreturned fun hmem => hnot (List.mem_cons_of_mem _ hmem)
        exact ⟨q', he, by rw [hsent', hsent, List.append_assoc]⟩

end Pieces

/-- `kprintf` renders its format if and only if there is no `%c` in it. -/
theorem kprintf_renders_iff (m : Platform) (fmt : CString) (args : List Arg) (p : Port)
    {out : List (BitVec 8)} {left : List Arg}
    (hrender : render (pieces fmt.text) args = some (out, left)) :
    Renders m fmt args p out left ↔ .char ∉ pieces fmt.text := by
  obtain ⟨n, e, hrun, hundefined, hreturned⟩ :=
    run_pieces (m := m) (s := ⟨0, args, p⟩) ⟨fmt.text, CString.rest_zero, rfl⟩ hrender
  constructor
  · rintro ⟨k, q, hk, -⟩ hchar
    rw [hundefined hchar] at hrun
    cases Loop.run_unique hk hrun
  · intro hchar
    obtain ⟨q, rfl, hsent⟩ := hreturned hchar
    exact ⟨n, q, hrun, hsent⟩

/-- "%d %s" -/
def pairFormat : CString := ⟨[0x25, 0x64, 0x20, 0x25, 0x73], fun _ => 0, by decide⟩

/-- "-7 (null)" -/
theorem kprintf_renders_iff_pair :
    Renders ready pairFormat [.int (-7), .string none] ⟨[], 0⟩
      [0x2D, 0x37, 0x20, 0x28, 0x6E, 0x75, 0x6C, 0x6C, 0x29] [] :=
  (kprintf_renders_iff ready pairFormat [.int (-7), .string none] ⟨[], 0⟩ (by rfl)).mpr (by decide)

/-- "%c" -/
def charFormat : CString := ⟨[0x25, 0x63], fun _ => 0, by decide⟩

/-- The character is an `int` after promotion. -/
theorem char_undefined :
    render (pieces charFormat.text) [.int 0x41] = some ([0x41], []) ∧
      ready.kprintf promoted charFormat [.int 0x41] ⟨[], 0⟩ 1 = some .undefined ∧
      ¬Renders ready charFormat [.int 0x41] ⟨[], 0⟩ [0x41] [] := by
  have hend : ready.kprintf promoted charFormat [.int 0x41] ⟨[], 0⟩ 1 = some .undefined := rfl
  refine ⟨rfl, hend, ?_⟩
  rintro ⟨n, q, hn, -⟩
  cases Loop.run_unique hn hend

end LucidiOS.Platform
