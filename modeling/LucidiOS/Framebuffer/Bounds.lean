import LucidiOS.Framebuffer.Console

/-! Where text output writes. -/
namespace LucidiOS.Framebuffer
variable (font : Font) (fb : Framebuffer)

/-- A call of the text output. -/
inductive Call
  | drawSentence (s : List (BitVec 8))
  | reset

def call : Call → Cursor → Output
  | .drawSentence s, cur => fb.drawSentence s cur
  | .reset, _ => reset

def calls : List Call → Cursor → Output
  | [], cur => ⟨cur, []⟩
  | c :: cs, cur => (fb.call c cur).andThen (calls cs)

/-- The index of a word of one of the rows. -/
def InFrame (k : Word) : Prop :=
  ∃ y < fb.height.toNat, ∃ x < fb.stride, k.toNat = Raster.index fb.stride x y

/-- What is drawn stays in the framebuffer, a character on one of the lines of text. -/
structure DrawsInside (d : Draw) : Prop where
  words : ∀ w ∈ fb.writes font d, fb.InFrame w.1
  line : ∀ column line c, d = .character column line c → line.toNat < fb.height.toNat / 16

/-- Calls from the start of the kernel on draw in the framebuffer only. -/
def TextInside (cs : List Call) : Prop := ∀ d ∈ (fb.calls cs ⟨0, 0⟩).drawn, fb.DrawsInside font d

/-- The glyph is on a line of text and its last pixel before the end of the framebuffer. -/
def GlyphFits (column : BitVec 16) (line : BitVec 8) : Prop :=
  line.toNat < fb.height.toNat / 16 ∧
    Raster.index fb.stride (8 * column.toNat + 7) (16 * line.toNat + 15) <
      fb.height.toNat * fb.stride

/-- A new line can be taken without `scrollUp`. -/
def NoScroll (cur : Cursor) : Prop := cur.line.setWidth 64 < fb.height - 1

/-- Where a character goes that is next, if there is no scrolling. -/
def nextCell (cur : Cursor) : Cursor := if fb.maxCols ≤ cur.column then ⟨0, cur.line + 1⟩ else cur

def CellsFit (n : ℕ) (cur : Cursor) : Prop :=
  (fb.maxCols ≤ cur.column → fb.NoScroll cur) ∧ ∀ i < n,
    fb.GlyphFits ((fb.nextCell cur).column + BitVec.ofNat 16 i) (fb.nextCell cur).line

/-- The byte needs no scrolling and its glyphs fit. -/
def ByteFits (b : BitVec 8) (cur : Cursor) : Prop :=
  if b = 0x0A then fb.NoScroll cur
  else if b = 0x0D then True
  else if b = 0x09 then fb.CellsFit tabLen cur
  else fb.CellsFit 1 cur

def SentenceFits : List (BitVec 8) → Cursor → Prop
  | [], _ => True
  | b :: s, cur => b ≠ 0 → fb.ByteFits b cur ∧ SentenceFits s (fb.drawByte b cur).cursor

def CallFits : Call → Cursor → Prop
  | .drawSentence s, cur => fb.SentenceFits s cur
  | .reset, _ => True

/-- Each byte of the calls fits where it is drawn. -/
def CallsFit : List Call → Cursor → Prop
  | [], _ => True
  | c :: cs, cur => fb.CallFits c cur ∧ CallsFit cs (fb.call c cur).cursor

def DrawFits : Draw → Prop
  | .character column line _ => fb.GlyphFits column line
  | .scroll => False
  | .clear => True

/-- Everything that is drawn fits. -/
def AllFit (drawn : List Draw) : Prop := ∀ d ∈ drawn, fb.DrawFits d

instance (column : BitVec 16) (line : BitVec 8) : Decidable (fb.GlyphFits column line) :=
  inferInstanceAs (Decidable (_ ∧ _))

instance (cur : Cursor) : Decidable (fb.NoScroll cur) :=
  inferInstanceAs (Decidable (_ < _))

instance (n : ℕ) (cur : Cursor) : Decidable (fb.CellsFit n cur) :=
  inferInstanceAs (Decidable (_ ∧ _))

instance (b : BitVec 8) (cur : Cursor) : Decidable (fb.ByteFits b cur) :=
  inferInstanceAs (Decidable (ite _ _ _))

instance decideSentenceFits : (s : List (BitVec 8)) → (cur : Cursor) →
    Decidable (fb.SentenceFits s cur)
  | [], _ => isTrue trivial
  | b :: s, cur =>
    have := decideSentenceFits s (fb.drawByte b cur).cursor
    inferInstanceAs (Decidable (b ≠ 0 → _ ∧ _))

instance : (c : Call) → (cur : Cursor) → Decidable (fb.CallFits c cur)
  | .drawSentence s, cur => inferInstanceAs (Decidable (fb.SentenceFits s cur))
  | .reset, _ => isTrue trivial

instance decideCallsFit : (cs : List Call) → (cur : Cursor) → Decidable (fb.CallsFit cs cur)
  | [], _ => isTrue trivial
  | c :: cs, cur =>
    have := decideCallsFit cs (fb.call c cur).cursor
    inferInstanceAs (Decidable (_ ∧ _))

section Steps
variable {fb : Framebuffer} {cur : Cursor}

theorem allFit_nil : fb.AllFit [] := fun _ h => absurd h List.not_mem_nil

theorem allFit_andThen {o : Output} {f : Cursor → Output} :
    fb.AllFit (o.andThen f).drawn ↔ fb.AllFit o.drawn ∧ fb.AllFit (f o.cursor).drawn :=
  List.forall_mem_append

theorem newLine_allFit : fb.AllFit (fb.newLine cur).drawn ↔ fb.NoScroll cur := by
  unfold newLine NoScroll
  split_ifs with h
  · exact iff_of_true allFit_nil h
  · exact iff_of_false (fun hfit => hfit .scroll List.mem_cons_self) h

theorem newLine_cursor (h : fb.NoScroll cur) : (fb.newLine cur).cursor = ⟨0, cur.line + 1⟩ := by
  unfold NoScroll at h
  rw [newLine, if_pos h]

theorem wrap_allFit :
    fb.AllFit (fb.wrap cur).drawn ↔ (fb.maxCols ≤ cur.column → fb.NoScroll cur) := by
  unfold wrap
  split_ifs with h
  · rw [newLine_allFit]
    exact ⟨fun hfit _ => hfit, fun hfit => hfit h⟩
  · exact iff_of_true allFit_nil fun hfull => absurd hfull h

theorem wrap_cursor (h : fb.maxCols ≤ cur.column → fb.NoScroll cur) :
    (fb.wrap cur).cursor = fb.nextCell cur := by
  unfold wrap nextCell
  split_ifs with hfull
  · exact newLine_cursor (h hfull)
  · rfl

theorem putCells_allFit (c : BitVec 8) (n : ℕ) : fb.AllFit (putCells c n cur).drawn ↔
    ∀ i < n, fb.GlyphFits (cur.column + BitVec.ofNat 16 i) cur.line := by
  rw [putCells_eq, AllFit, List.forall_mem_map]
  simp only [List.mem_range]
  rfl

theorem wrap_putCells_allFit (c : BitVec 8) (n : ℕ) :
    fb.AllFit ((fb.wrap cur).andThen (putCells c n)).drawn ↔ fb.CellsFit n cur := by
  rw [allFit_andThen, wrap_allFit]
  refine and_congr_right fun h => ?_
  rw [putCells_allFit, wrap_cursor h]

theorem drawByte_allFit (b : BitVec 8) :
    fb.AllFit (fb.drawByte b cur).drawn ↔ fb.ByteFits b cur := by
  unfold drawByte ByteFits
  split_ifs
  · exact newLine_allFit
  · exact iff_of_true allFit_nil trivial
  · exact wrap_putCells_allFit 255 tabLen
  · rw [← wrap_putCells_allFit b 1, allFit_andThen, allFit_andThen]
    rfl

theorem drawSentence_allFit (s : List (BitVec 8)) :
    fb.AllFit (fb.drawSentence s cur).drawn ↔ fb.SentenceFits s cur := by
  induction s generalizing cur with
  | nil => exact iff_of_true allFit_nil trivial
  | cons b s ih =>
    unfold drawSentence SentenceFits
    split_ifs with hb
    · exact iff_of_true allFit_nil fun h => absurd hb h
    · rw [allFit_andThen, drawByte_allFit, ih]
      exact ⟨fun h _ => h, fun h => h hb⟩

theorem calls_allFit (cs : List Call) :
    fb.AllFit (fb.calls cs cur).drawn ↔ fb.CallsFit cs cur := by
  induction cs generalizing cur with
  | nil => exact iff_of_true allFit_nil trivial
  | cons c cs ih =>
    have hcall : fb.AllFit (fb.call c cur).drawn ↔ fb.CallFits c cur := by
      cases c with
      | drawSentence s => exact drawSentence_allFit s
      | reset => exact iff_of_true (List.forall_mem_singleton.mpr trivial) trivial
    rw [calls, allFit_andThen, hcall, ih]
    rfl

end Steps

section Words
variable {font : Font} {fb : Framebuffer} {d : Draw}

theorem inFrame_iff (hpos : 0 < fb.stride) {k : Word} :
    fb.InFrame k ↔ k.toNat < fb.height.toNat * fb.stride := Raster.exists_index_iff hpos

theorem width_le (fb : Framebuffer) (hp : 4 * fb.width.toNat ≤ fb.pitch.toNat) :
    fb.width.toNat ≤ fb.stride := by
  unfold stride
  omega

theorem pixel_toNat {x y : ℕ} (h : Raster.index fb.stride x y < 2 ^ 64) :
    (fb.pixel x y).toNat = Raster.index fb.stride x y := by
  rw [pixel, BitVec.toNat_ofNat, Nat.mod_eq_of_lt h]

theorem pixel_le (x y : ℕ) : (fb.pixel x y).toNat ≤ Raster.index fb.stride x y := by
  rw [pixel, BitVec.toNat_ofNat]
  exact Nat.mod_le _ _

theorem DrawFits.inside (hpos : 0 < fb.stride) (hwidth : fb.width.toNat ≤ fb.stride)
    (h : fb.DrawFits d) : fb.DrawsInside font d := by
  cases d with
  | character column line c =>
    obtain ⟨hline, hlast⟩ := h
    refine ⟨fun w hw => ?_, fun _ _ _ heq => ?_⟩
    · obtain ⟨j, hj, i, hi, rfl⟩ := (fb.mem_character font).mp hw
      refine (inFrame_iff hpos).mpr ((pixel_le _ _).trans_lt ?_)
      exact (Raster.index_mono (by omega) (by omega)).trans_lt hlast
    · cases heq
      exact hline
  | scroll => exact h.elim
  | clear =>
    refine ⟨fun w hw => ?_, fun _ _ _ heq => by cases heq⟩
    obtain ⟨y, hy, x, hx, rfl⟩ := (fb.mem_clear font).mp hw
    exact (inFrame_iff hpos).mpr ((pixel_le _ _).trans_lt (Raster.index_lt (by omega) hy))

/-- Only draws that fit stay inside. -/
theorem DrawsInside.fits (hw : 0 < fb.width.toNat) (hh : 0 < fb.height.toNat)
    (hwidth : fb.width.toNat ≤ fb.stride) (h : fb.DrawsInside font d) : fb.DrawFits d := by
  have hpos : 0 < fb.stride := by omega
  have hwords := fb.size_le
  cases d with
  | character column line c =>
    have hline := h.line column line c rfl
    have hlast := h.words _ ((fb.mem_character font).mpr ⟨15, by omega, 7, by omega, rfl⟩)
    have hrow : Raster.index fb.stride 0 (16 * line.toNat + 15) < fb.height.toNat * fb.stride :=
      Raster.index_lt hpos (by omega)
    have hcolumn := column.isLt
    rw [inFrame_iff hpos, pixel_toNat (by unfold Raster.index at *; omega)] at hlast
    exact ⟨hline, hlast⟩
  | scroll =>
    have hbefore := (inFrame_iff hpos).mp (h.words _ (fb.scroll_before font hw hh))
    have hstride := fb.stride_le
    have hpitch := fb.pitch.isLt
    rw [BitVec.toNat_neg, BitVec.toNat_ofNat] at hbefore
    omega
  | clear => trivial

theorem TextInside.callsFit {cs : List Call} (hw : 0 < fb.width.toNat) (hh : 0 < fb.height.toNat)
    (hwidth : fb.width.toNat ≤ fb.stride) (h : fb.TextInside font cs) : fb.CallsFit cs ⟨0, 0⟩ :=
  (calls_allFit cs).mp fun d hd => (h d hd).fits hw hh hwidth

end Words

/-- Text output stays in the framebuffer if and only if each byte fits where it is drawn. -/
theorem textInside_iff (font : Font) (fb : Framebuffer) (hw : 8 ≤ fb.width.toNat)
    (hh : 16 ≤ fb.height.toNat) (hp : 4 * fb.width.toNat ≤ fb.pitch.toNat) (cs : List Call) :
    fb.TextInside font cs ↔ fb.CallsFit cs ⟨0, 0⟩ := by
  have hwidth := fb.width_le hp
  constructor
  · intro h
    exact h.callsFit (by omega) (by omega) hwidth
  · intro h d hd
    exact ((calls_allFit cs).mpr h d hd).inside (by omega) hwidth

def fb1024 : Framebuffer := ⟨1024, 768, 4096, by decide⟩

def fb320 : Framebuffer := ⟨320, 200, 1280, by decide⟩

/-- What `kmain` writes. -/
def kmainCalls : List Call :=
  [.drawSentence [0x43, 0x68, 0x65, 0x63, 0x6B, 0x20, 0x31], .reset,
    .drawSentence [0x43, 0x68, 0x65, 0x63, 0x6B, 0x20, 0x32]]

theorem textInside_iff_kmain : fb1024.TextInside (fun _ _ => 0) kmainCalls :=
  (textInside_iff _ fb1024 (by decide) (by decide) (by decide) kmainCalls).mpr (by decide +kernel)

/-- After 48 new lines a character is drawn past the last row of a framebuffer of 768 rows, and in
one of 200 rows the 200th new line clears words before the framebuffer. -/
theorem text_leaves_framebuffer :
    ¬fb1024.TextInside (fun _ _ => 0) [.drawSentence (List.replicate 48 0x0A ++ [0x41])] ∧
      ¬fb320.TextInside (fun _ _ => 0) [.drawSentence (List.replicate 200 0x0A)] := by
  constructor
  · intro h
    have hfit := h.callsFit (by decide) (by decide) (by decide)
    exact absurd hfit (by decide +kernel)
  · intro h
    have hfit := h.callsFit (by decide) (by decide) (by decide)
    exact absurd hfit (by decide +kernel)

end LucidiOS.Framebuffer
