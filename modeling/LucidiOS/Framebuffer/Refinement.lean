import LucidiOS.Display.TextGrid
import LucidiOS.Framebuffer.Bounds

/-! `draw_sentence` as typing on a grid of cells of 8 by 16 pixels. -/
namespace LucidiOS.Framebuffer
open TextGrid

/-- What a byte is on the grid. A tab shows byte 255 in four cells. -/
def key (b : BitVec 8) : Key (BitVec 8) :=
  if b = 0x0A then .newline
  else if b = 0x0D then .carriageReturn
  else if b = 0x09 then .tab 4 255
  else .character b

/-- The text of a string, which ends before the first NUL. -/
def text (s : List (BitVec 8)) : List (Key (BitVec 8)) := (s.takeWhile (· ≠ 0)).map key

def textCols (fb : Framebuffer) : ℕ := fb.width.toNat / 8

/-- The lines of text that the cursor can reach. -/
def textLines (fb : Framebuffer) : ℕ := min (fb.height.toNat / 16) 256

/-- The grid before anything is written. -/
def blank (cur : Cursor) : TextGrid (BitVec 8) :=
  ⟨cur.column.toNat, cur.line.toNat, fun _ _ => none⟩

/-- Rows with room for the pixels and at least one column. -/
structure TextGeometry (fb : Framebuffer) : Prop where
  pitch : 4 * fb.width.toNat ≤ fb.pitch.toNat
  columns : 1 ≤ fb.textCols
  narrow : fb.textCols < 65536

/-- The cursor is that of the grid, each cell written shows the glyph of its byte, and every other
word is as it was in `m₀`. -/
structure Shows (font : Font) (fb : Framebuffer) (m₀ : Pixels) (g : TextGrid (BitVec 8))
    (cur : Cursor) (m : Pixels) : Prop where
  column : cur.column.toNat = g.column
  line : cur.line.toNat = g.line
  within : g.Within fb.textCols fb.textLines
  written : ∀ c l b, g.cell c l = some b → ∀ i < 8, ∀ j < 16,
    m (fb.pixel (8 * c + i) (16 * l + j)) = glyphColor font b i j
  other : ∀ y < fb.height.toNat, ∀ x < fb.stride, g.cell (x / 8) (y / 16) = none →
    m (fb.pixel x y) = m₀ (fb.pixel x y)
  outside : ∀ k : Word, fb.height.toNat * fb.stride ≤ k.toNat → m k = m₀ k

section Pixels
variable {font : Font} {fb : Framebuffer}

theorem pixel_toNat_of_lt {x y : ℕ} (hx : x < fb.stride) (hy : y < fb.height.toNat) :
    (fb.pixel x y).toNat = Raster.index fb.stride x y := by
  have hlt := Raster.index_lt hx hy
  have hsize := fb.size_le
  exact pixel_toNat (by omega)

theorem pixel_inj {x y x' y' : ℕ} (hx : x < fb.stride) (hy : y < fb.height.toNat)
    (hx' : x' < fb.stride) (hy' : y' < fb.height.toNat) :
    fb.pixel x y = fb.pixel x' y' ↔ x = x' ∧ y = y' := by
  rw [← Raster.index_inj hx hx', ← pixel_toNat_of_lt hx hy, ← pixel_toNat_of_lt hx' hy']
  exact BitVec.toNat_inj.symm

theorem TextGeometry.cell_x (h : fb.TextGeometry) {c i : ℕ} (hc : c < fb.textCols) (hi : i < 8) :
    8 * c + i < fb.stride := by
  have := fb.width_le h.pitch
  unfold textCols at hc
  omega

theorem cell_y {l j : ℕ} (hl : l < fb.textLines) (hj : j < 16) :
    16 * l + j < fb.height.toNat := by
  unfold textLines at hl
  omega

theorem paint_append (drawn drawn' : List Draw) (m : Pixels) :
    fb.paint font (drawn ++ drawn') m = fb.paint font drawn' (fb.paint font drawn m) := by
  rw [paint, List.flatMap_append, Raster.perform_append]
  rfl

section Character
variable {column : BitVec 16} {line c : BitVec 8}

theorem paint_character (m : Pixels) : fb.paint font [.character column line c] m =
    Raster.perform (fb.writes font (.character column line c)) m := by
  rw [paint, List.flatMap_singleton]

/-- A character shows its glyph in its cell. -/
theorem paint_character_cell (h : fb.TextGeometry) (hc : column.toNat < fb.textCols)
    (hl : line.toNat < fb.textLines) (m : Pixels) {i j : ℕ} (hi : i < 8) (hj : j < 16) :
    fb.paint font [.character column line c] m
      (fb.pixel (8 * column.toNat + i) (16 * line.toNat + j)) = glyphColor font c i j := by
  rw [paint_character]
  refine Raster.perform_of_agree (fun w hw heq => ?_)
    ⟨_, (fb.mem_character font).mpr ⟨j, hj, i, hi, rfl⟩, rfl⟩ m
  obtain ⟨j', hj', i', hi', rfl⟩ := (fb.mem_character font).mp hw
  obtain ⟨hx, hy⟩ := (pixel_inj (h.cell_x hc hi') (cell_y hl hj') (h.cell_x hc hi)
    (cell_y hl hj)).mp heq
  obtain rfl : i' = i := by omega
  obtain rfl : j' = j := by omega
  rfl

/-- A character leaves the pixels of the other cells and of the margins. -/
theorem paint_character_other (h : fb.TextGeometry) (hc : column.toNat < fb.textCols)
    (hl : line.toNat < fb.textLines) (m : Pixels) {x y : ℕ} (hx : x < fb.stride)
    (hy : y < fb.height.toNat) (hne : ¬(x / 8 = column.toNat ∧ y / 16 = line.toNat)) :
    fb.paint font [.character column line c] m (fb.pixel x y) = m (fb.pixel x y) := by
  rw [paint_character]
  refine Raster.perform_of_ne (fun w hw heq => hne ?_) m
  obtain ⟨j, hj, i, hi, rfl⟩ := (fb.mem_character font).mp hw
  obtain ⟨rfl, rfl⟩ := (pixel_inj (h.cell_x hc hi) (cell_y hl hj) hx hy).mp heq
  omega

theorem paint_character_outside (h : fb.TextGeometry) (hc : column.toNat < fb.textCols)
    (hl : line.toNat < fb.textLines) (m : Pixels) {k : Word}
    (hk : fb.height.toNat * fb.stride ≤ k.toNat) :
    fb.paint font [.character column line c] m k = m k := by
  rw [paint_character]
  refine Raster.perform_of_ne (fun w hw heq => ?_) m
  obtain ⟨j, hj, i, hi, rfl⟩ := (fb.mem_character font).mp hw
  have hy : 16 * line.toNat + j < fb.height.toNat := cell_y hl hj
  have hlt := Raster.index_lt (h.cell_x hc hi) hy
  rw [← heq, pixel_toNat_of_lt (h.cell_x hc hi) hy] at hk
  omega

end Character
end Pixels

section Steps
variable {font : Font} {fb : Framebuffer} {m₀ m : Pixels} {g : TextGrid (BitVec 8)} {cur : Cursor}

/-- The cursor and the framebuffer after an output show the grid. -/
def ShowsAfter (font : Font) (fb : Framebuffer) (m₀ m : Pixels) (g : TextGrid (BitVec 8))
    (o : Output) : Prop :=
  Shows font fb m₀ g o.cursor (fb.paint font o.drawn m)

theorem ShowsAfter.andThen {o : Output} {f : Cursor → Output} {g' : TextGrid (BitVec 8)}
    (h : ShowsAfter font fb m₀ m g o)
    (hf : ∀ cur m, Shows font fb m₀ g cur m → ShowsAfter font fb m₀ m g' (f cur)) :
    ShowsAfter font fb m₀ m g' (o.andThen f) := by
  unfold ShowsAfter Output.andThen
  rw [paint_append]
  exact hf _ _ h

theorem Shows.putCharacter (hgeo : fb.TextGeometry) (h : Shows font fb m₀ g cur m)
    (hcol : g.column < fb.textCols) (b : BitVec 8) :
    ShowsAfter font fb m₀ m (g.write b) (putCharacter b cur) := by
  have hc : cur.column.toNat < fb.textCols := by
    rw [h.column]
    exact hcol
  have hl : cur.line.toNat < fb.textLines := by
    rw [h.line]
    exact h.within.line
  refine ⟨?_, h.line, h.within.write hcol b, fun c l b' hcell i hi j hj => ?_,
    fun y hy x hx hnone => ?_, fun k hk => ?_⟩
  · have hnarrow := hgeo.narrow
    rw [Framebuffer.putCharacter, BitVec.toNat_add, TextGrid.write_column, ← h.column]
    exact Nat.mod_eq_of_lt (by simpa using by omega)
  · by_cases hat : c = g.column ∧ l = g.line
    · obtain ⟨rfl, rfl⟩ := hat
      have hb : b = b' := by simpa [TextGrid.write] using hcell
      rw [← hb, ← h.column, ← h.line]
      exact paint_character_cell hgeo hc hl m hi hj
    · have hold : g.cell c l = some b' := by simpa [TextGrid.write, hat] using hcell
      obtain ⟨hc', hl'⟩ := h.within.cell c l b' hold
      rw [← h.written c l b' hold i hi j hj]
      apply paint_character_other hgeo hc hl m (hgeo.cell_x hc' hi) (cell_y hl' hj)
      rw [h.column, h.line]
      omega
  · have hat : ¬(x / 8 = g.column ∧ y / 16 = g.line) := by
      intro hat
      simp [TextGrid.write, hat] at hnone
    have hold : g.cell (x / 8) (y / 16) = none := by simpa [TextGrid.write, hat] using hnone
    rw [← h.column, ← h.line] at hat
    exact (paint_character_other hgeo hc hl m hx hy hat).trans (h.other y hy x hx hold)
  · exact (paint_character_outside hgeo hc hl m hk).trans (h.outside k hk)

theorem Shows.putCells (hgeo : fb.TextGeometry) (b : BitVec 8) (n : ℕ)
    (h : Shows font fb m₀ g cur m) (hcol : g.column + n ≤ fb.textCols) :
    ShowsAfter font fb m₀ m ((write b)^[n] g) (putCells b n cur) := by
  induction n generalizing g cur m with
  | zero => exact h
  | succ n ih =>
    rw [Function.iterate_succ_apply]
    refine (h.putCharacter hgeo (by omega) b).andThen fun cur' m' h' => ih h' ?_
    rw [write_column]
    omega

theorem noScroll_of_lt (h : cur.line.toNat + 1 < fb.height.toNat) : fb.NoScroll cur := by
  have hline := cur.line.isLt
  have hheight := fb.height.isLt
  have hone : (1 : Word).toNat = 1 := rfl
  rw [NoScroll, BitVec.lt_def, BitVec.toNat_setWidth, BitVec.toNat_sub, hone]
  omega

theorem Shows.newLine (h : Shows font fb m₀ g cur m) (hline : g.line + 1 < fb.textLines) :
    ShowsAfter font fb m₀ m g.newline (fb.newLine cur) := by
  have hlines : fb.textLines ≤ fb.height.toNat / 16 ∧ fb.textLines ≤ 256 :=
    ⟨min_le_left _ _, min_le_right _ _⟩
  have hscroll : fb.NoScroll cur := noScroll_of_lt (by rw [h.line]; omega)
  unfold NoScroll at hscroll
  rw [Framebuffer.newLine, if_pos hscroll]
  refine ⟨rfl, ?_, h.within.newline hline, h.written, h.other, h.outside⟩
  rw [BitVec.toNat_add, h.line]
  exact Nat.mod_eq_of_lt (by simpa using by omega)

theorem maxCols_toNat (hnarrow : fb.textCols < 65536) : fb.maxCols.toNat = fb.textCols := by
  rw [maxCols, BitVec.toNat_setWidth]
  exact Nat.mod_eq_of_lt hnarrow

theorem full_iff (hnarrow : fb.textCols < 65536) (hcur : cur.column.toNat ≤ fb.textCols) :
    fb.maxCols ≤ cur.column ↔ cur.column.toNat = fb.textCols := by
  rw [BitVec.le_def, maxCols_toNat hnarrow]
  exact ⟨fun hle => le_antisymm hcur hle, fun heq => heq.ge⟩

theorem Shows.full_iff (hgeo : fb.TextGeometry) (h : Shows font fb m₀ g cur m) :
    fb.maxCols ≤ cur.column ↔ g.column = fb.textCols := by
  have hcur : cur.column.toNat ≤ fb.textCols := by
    rw [h.column]
    exact h.within.column
  rw [Framebuffer.full_iff hgeo.narrow hcur, h.column]

theorem Shows.wrap (hgeo : fb.TextGeometry) (h : Shows font fb m₀ g cur m)
    (hline : (g.wrap fb.textCols).line < fb.textLines) :
    ShowsAfter font fb m₀ m (g.wrap fb.textCols) (fb.wrap cur) := by
  unfold TextGrid.wrap Framebuffer.wrap at *
  rw [if_congr (h.full_iff hgeo) rfl rfl]
  split_ifs at hline ⊢ with hfull
  · exact h.newLine hline
  · exact h

/-- One byte does to the screen what its key does to the grid. -/
theorem Shows.drawByte (hgeo : fb.TextGeometry) (h : Shows font fb m₀ g cur m) (b : BitVec 8)
    (hfit : KeyFits fb.textCols fb.textLines (key b) g) :
    ShowsAfter font fb m₀ m (press fb.textCols (key b) g) (fb.drawByte b cur) := by
  have hline := hfit.line
  have htab := hfit.tab
  have hcols := h.within.wrap_column hgeo.columns
  unfold key at hline htab ⊢
  unfold Framebuffer.drawByte
  split_ifs at hline htab ⊢
  · exact h.newLine hline
  · exact ⟨rfl, h.line, h.within.carriageReturn, h.written, h.other, h.outside⟩
  · rw [press_line_wrap (.inr ⟨4, 255, rfl⟩)] at hline
    exact (h.wrap hgeo hline).andThen fun _ _ h' => h'.putCells hgeo 255 4 (htab 4 255 rfl)
  · exact (h.wrap hgeo hline).andThen fun _ _ h' => h'.putCharacter hgeo hcols b

theorem text_cons (b : BitVec 8) (s : List (BitVec 8)) :
    text (b :: s) = if b = 0 then [] else key b :: text s := by
  unfold text
  by_cases hb : b = 0
  · rw [List.takeWhile_cons_of_neg (by simpa using hb), if_pos hb, List.map_nil]
  · rw [List.takeWhile_cons_of_pos (by simpa using hb), if_neg hb, List.map_cons]

theorem Shows.drawSentence (hgeo : fb.TextGeometry) (s : List (BitVec 8))
    (h : Shows font fb m₀ g cur m) (hfit : TextFits fb.textCols fb.textLines (text s) g) :
    ShowsAfter font fb m₀ m (type fb.textCols (text s) g) (fb.drawSentence s cur) := by
  induction s generalizing g cur m with
  | nil => exact h
  | cons b s ih =>
    rw [text_cons] at hfit ⊢
    unfold Framebuffer.drawSentence
    split_ifs at hfit ⊢
    · exact h
    · exact (h.drawByte hgeo b hfit.1).andThen fun _ _ h' => ih h' hfit.2

end Steps

/-- `draw_sentence` refines typing on the grid. -/
theorem drawSentence_refines (font : Font) (fb : Framebuffer) (hgeo : fb.TextGeometry) (m : Pixels)
    (cur : Cursor) (hcol : cur.column.toNat ≤ fb.textCols) (hline : cur.line.toNat < fb.textLines)
    (s : List (BitVec 8)) (hfit : TextFits fb.textCols fb.textLines (text s) (blank cur)) :
    Shows font fb m (type fb.textCols (text s) (blank cur)) (fb.drawSentence s cur).cursor
      (fb.paint font (fb.drawSentence s cur).drawn m) := by
  have hstart : Shows font fb m (blank cur) cur m :=
    ⟨rfl, rfl, ⟨hcol, hline, nofun⟩, nofun, fun _ _ _ _ _ => rfl, fun _ _ => rfl⟩
  exact hstart.drawSentence hgeo s hfit

/-- An "H", a tab and a "!" on a new line. -/
def greeting : List (BitVec 8) := [0x48, 0x09, 0x0A, 0x21, 0]

theorem greeting_fits :
    TextFits fb1024.textCols fb1024.textLines (text greeting) (blank ⟨0, 0⟩) := by
  have htext : text greeting = [.character 0x48, .tab 4 255, .newline, .character 0x21] := rfl
  rw [htext]
  refine ⟨⟨by decide, nofun⟩, ⟨by decide, fun n b h => ?_⟩, ⟨by decide, nofun⟩,
    ⟨by decide, nofun⟩, trivial⟩
  cases h
  decide

theorem drawSentence_refines_greeting :
    Shows (fun c _ => c) fb1024 (fun _ => 0)
      (type fb1024.textCols (text greeting) (blank ⟨0, 0⟩))
      (fb1024.drawSentence greeting ⟨0, 0⟩).cursor
      (fb1024.paint (fun c _ => c) (fb1024.drawSentence greeting ⟨0, 0⟩).drawn fun _ => 0) :=
  drawSentence_refines (fun c _ => c) fb1024 ⟨by decide, by decide, by decide⟩ (fun _ => 0) ⟨0, 0⟩
    (by decide) (by decide) greeting greeting_fits

end LucidiOS.Framebuffer
