import LucidiOS.Framebuffer.Refinement

/-! Whether text crosses the right edge. The column is tested once for all cells of a tab. -/
namespace LucidiOS.Framebuffer
variable (font : Font) (fb : Framebuffer)

/-- Every character is in a column of text. -/
def InColumns (drawn : List Draw) : Prop :=
  ∀ column line c, .character column line c ∈ drawn → column.toNat < fb.textCols

/-- Every glyph is in a column of text and its pixels left of the edge, in the rows of its line, and
the cursor is left at most behind the last column. -/
structure KeepsEdge (o : Output) : Prop where
  columns : fb.InColumns o.drawn
  pixels : ∀ column line c, .character column line c ∈ o.drawn →
    ∀ w ∈ fb.writes font (.character column line c),
      ∃ x < fb.width.toNat, ∃ j < 16, w.1 = fb.pixel x (16 * line.toNat + j)
  cursor : o.cursor.column.toNat ≤ fb.textCols

/-- The cells taken since the last line break, after one more byte. -/
def cellsAfter (b : BitVec 8) (n : ℕ) : ℕ :=
  if b = 0x0A then 0 else if b = 0x0D then 0 else if b = 0x09 then n + tabLen else n + 1

/-- With `n` cells taken before the text, no tab comes where less than four cells are left in the
line. -/
def TabsFit (cols : ℕ) : List (BitVec 8) → ℕ → Prop
  | [], _ => True
  | b :: s, n => b ≠ 0 → (b = 0x09 → n % cols + tabLen ≤ cols) ∧ TabsFit cols s (cellsAfter b n)

instance decideTabsFit (cols : ℕ) : (s : List (BitVec 8)) → (n : ℕ) → Decidable (TabsFit cols s n)
  | [], _ => isTrue trivial
  | b :: s, n =>
    have := decideTabsFit cols s (cellsAfter b n)
    inferInstanceAs (Decidable (b ≠ 0 → _ ∧ _))

/-- The cursor stands where it does after `n` cells. -/
structure AtCell (cur : Cursor) (n : ℕ) : Prop where
  column_le : cur.column.toNat ≤ fb.textCols
  column_mod : cur.column.toNat % fb.textCols = n % fb.textCols

section Columns
variable {font : Font} {fb : Framebuffer} {cur : Cursor} {n : ℕ}

theorem keepsEdge_iff {o : Output} :
    KeepsEdge font fb o ↔ fb.InColumns o.drawn ∧ o.cursor.column.toNat ≤ fb.textCols := by
  constructor
  · intro h
    exact ⟨h.columns, h.cursor⟩
  · rintro ⟨hcolumns, hcur⟩
    refine ⟨hcolumns, fun column line c hd w hw => ?_, hcur⟩
    have hcolumn := hcolumns column line c hd
    obtain ⟨j, hj, i, hi, rfl⟩ := (fb.mem_character font).mp hw
    unfold textCols at hcolumn
    exact ⟨8 * column.toNat + i, by omega, j, hj, rfl⟩

theorem inColumns_nil : fb.InColumns [] := fun _ _ _ h => absurd h List.not_mem_nil

theorem inColumns_andThen {o : Output} {f : Cursor → Output} :
    fb.InColumns (o.andThen f).drawn ↔
      fb.InColumns o.drawn ∧ fb.InColumns (f o.cursor).drawn := by
  constructor
  · intro h
    exact ⟨fun column line c hd => h column line c (List.mem_append_left _ hd),
      fun column line c hd => h column line c (List.mem_append_right _ hd)⟩
  · rintro ⟨h, hf⟩ column line c hd
    rcases List.mem_append.mp hd with hd | hd
    · exact h column line c hd
    · exact hf column line c hd

theorem newLine_column : (fb.newLine cur).cursor.column = 0 := by
  unfold newLine
  split_ifs <;> rfl

theorem newLine_inColumns : fb.InColumns (fb.newLine cur).drawn := by
  intro column line c hd
  unfold newLine at hd
  split_ifs at hd <;> simp at hd

theorem wrap_inColumns : fb.InColumns (fb.wrap cur).drawn := by
  unfold wrap
  split_ifs
  · exact newLine_inColumns
  · exact inColumns_nil

/-- A full line is left for the first column of the next one. -/
theorem AtCell.wrap_column (hnarrow : fb.textCols < 65536) (h : fb.AtCell cur n) :
    (fb.wrap cur).cursor.column.toNat = n % fb.textCols := by
  have hcur := h.column_le
  rw [← h.column_mod, wrap, if_congr (full_iff hnarrow hcur) rfl rfl]
  split_ifs with hfull
  · rw [newLine_column, hfull, Nat.mod_self]
    rfl
  · exact (Nat.mod_eq_of_lt (lt_of_le_of_ne hcur hfull)).symm

theorem putCells_column (hnarrow : fb.textCols < 65536) (c : BitVec 8) {k : ℕ}
    (hk : cur.column.toNat + k ≤ fb.textCols) :
    (putCells c k cur).cursor.column.toNat = cur.column.toNat + k := by
  rw [putCells_eq, BitVec.toNat_add, BitVec.toNat_ofNat, Nat.add_mod_mod]
  exact Nat.mod_eq_of_lt (by omega)

/-- Cells in a row keep to the line exactly when there is room for all of them. -/
theorem putCells_inColumns_iff (hnarrow : fb.textCols < 65536)
    (hcur : cur.column.toNat ≤ fb.textCols) (c : BitVec 8) (k : ℕ) :
    fb.InColumns (putCells c k cur).drawn ↔ cur.column.toNat + k ≤ fb.textCols := by
  have hcolumn {i : ℕ} (hi : cur.column.toNat + i ≤ fb.textCols) :
      (cur.column + BitVec.ofNat 16 i).toNat = cur.column.toNat + i := by
    have := putCells_column hnarrow c hi
    rwa [putCells_eq] at this
  rw [putCells_eq]
  constructor
  · intro h
    by_contra hlt
    -- the first cell behind the edge
    have hedge := h (cur.column + BitVec.ofNat 16 (fb.textCols - cur.column.toNat)) cur.line c
      (List.mem_map.mpr ⟨_, List.mem_range.mpr (by omega), rfl⟩)
    rw [hcolumn (by omega)] at hedge
    omega
  · intro h column line c' hd
    obtain ⟨i, hi, heq⟩ := List.mem_map.mp hd
    have hi := List.mem_range.mp hi
    cases heq
    rw [hcolumn (by omega)]
    omega

theorem AtCell.wrap_putCells_iff (hpos : 0 < fb.textCols) (hnarrow : fb.textCols < 65536)
    (h : fb.AtCell cur n) (c : BitVec 8) (k : ℕ) :
    fb.InColumns ((fb.wrap cur).andThen (putCells c k)).drawn ↔
      n % fb.textCols + k ≤ fb.textCols := by
  have hwrap := h.wrap_column hnarrow
  have hlt := Nat.mod_lt n hpos
  rw [inColumns_andThen, putCells_inColumns_iff hnarrow (by omega), hwrap]
  exact and_iff_right wrap_inColumns

theorem AtCell.wrap_putCells (hnarrow : fb.textCols < 65536) (h : fb.AtCell cur n) (c : BitVec 8)
    {k : ℕ} (hk : n % fb.textCols + k ≤ fb.textCols) :
    fb.AtCell ((fb.wrap cur).andThen (putCells c k)).cursor (n + k) := by
  have hwrap := h.wrap_column hnarrow
  have hcolumn : ((fb.wrap cur).andThen (putCells c k)).cursor.column.toNat =
      n % fb.textCols + k := by
    rw [← hwrap] at hk ⊢
    exact putCells_column hnarrow c hk
  refine ⟨hcolumn.trans_le hk, ?_⟩
  rw [hcolumn, Nat.mod_add_mod]

theorem atCell_zero (hcur : cur.column = 0) : fb.AtCell cur 0 := by
  refine ⟨?_, ?_⟩ <;> rw [hcur]
  · exact Nat.zero_le _
  · rfl

/-- Of all bytes only a tab can leave the columns. -/
theorem AtCell.drawByte_iff (hpos : 0 < fb.textCols) (hnarrow : fb.textCols < 65536)
    (h : fb.AtCell cur n) (b : BitVec 8) :
    fb.InColumns (fb.drawByte b cur).drawn ↔
      (b = 0x09 → n % fb.textCols + tabLen ≤ fb.textCols) := by
  unfold drawByte
  split_ifs with hnewline hreturn htab
  · exact iff_of_true newLine_inColumns fun htab => absurd (hnewline.symm.trans htab) (by decide)
  · exact iff_of_true inColumns_nil fun htab => absurd (hreturn.symm.trans htab) (by decide)
  · rw [h.wrap_putCells_iff hpos hnarrow]
    exact ⟨fun hfit _ => hfit, fun hfit => hfit htab⟩
  · have hone := Nat.mod_lt n hpos
    exact iff_of_true ((h.wrap_putCells_iff hpos hnarrow b 1).mpr hone) fun hc => absurd hc htab

theorem AtCell.drawByte (hpos : 0 < fb.textCols) (hnarrow : fb.textCols < 65536)
    (h : fb.AtCell cur n) {b : BitVec 8}
    (hfit : b = 0x09 → n % fb.textCols + tabLen ≤ fb.textCols) :
    fb.AtCell (fb.drawByte b cur).cursor (cellsAfter b n) := by
  unfold Framebuffer.drawByte cellsAfter
  split_ifs with _ _ htab
  · exact atCell_zero newLine_column
  · exact atCell_zero rfl
  · exact h.wrap_putCells hnarrow 255 (hfit htab)
  · exact h.wrap_putCells (k := 1) hnarrow b (Nat.mod_lt n hpos)

theorem AtCell.drawSentence_iff (hpos : 0 < fb.textCols) (hnarrow : fb.textCols < 65536)
    (h : fb.AtCell cur n) (s : List (BitVec 8)) :
    KeepsEdge font fb (fb.drawSentence s cur) ↔ TabsFit fb.textCols s n := by
  rw [keepsEdge_iff]
  induction s generalizing cur n with
  | nil => exact iff_of_true ⟨inColumns_nil, h.column_le⟩ trivial
  | cons b s ih =>
    unfold drawSentence TabsFit
    split_ifs with hb
    · exact iff_of_true ⟨inColumns_nil, h.column_le⟩ fun hne => absurd hb hne
    · rw [inColumns_andThen, h.drawByte_iff hpos hnarrow, and_assoc]
      constructor
      · rintro ⟨hfit, hrest⟩ _
        exact ⟨hfit, (ih (h.drawByte hpos hnarrow hfit)).mp hrest⟩
      · intro hfit
        obtain ⟨htab, hrest⟩ := hfit hb
        exact ⟨htab, (ih (h.drawByte hpos hnarrow htab)).mpr hrest⟩

end Columns

/-- Text keeps to the left of the right edge exactly when every tab finds four cells in its line. -/
theorem drawSentence_keepsEdge_iff (font : Font) (fb : Framebuffer) (hcols : 4 ≤ fb.textCols)
    (hnarrow : fb.textCols < 65536) (cur : Cursor) (hcur : cur.column.toNat ≤ fb.textCols)
    (s : List (BitVec 8)) :
    KeepsEdge font fb (fb.drawSentence s cur) ↔ TabsFit fb.textCols s cur.column.toNat := by
  have hat : fb.AtCell cur cur.column.toNat := ⟨hcur, rfl⟩
  exact hat.drawSentence_iff (by omega) hnarrow s

/-- A tab in the last four columns. -/
theorem drawSentence_keepsEdge_iff_room :
    KeepsEdge (fun c _ => c) fb320 (fb320.drawSentence greeting ⟨35, 0⟩) :=
  (drawSentence_keepsEdge_iff (fun c _ => c) fb320 (by decide) (by decide) ⟨35, 0⟩ (by decide)
    greeting).mpr (by decide)

/-- A tab in the last of 40 columns puts three of its cells behind the edge. -/
theorem tab_crosses_edge :
    (fb320.drawSentence [0x09, 0] ⟨39, 0⟩).drawn =
        [.character 39 0 255, .character 40 0 255, .character 41 0 255, .character 42 0 255] ∧
      ¬KeepsEdge (fun c _ => c) fb320 (fb320.drawSentence [0x09, 0] ⟨39, 0⟩) := by
  have hdrawn : (fb320.drawSentence [0x09, 0] ⟨39, 0⟩).drawn =
      [.character 39 0 255, .character 40 0 255, .character 41 0 255, .character 42 0 255] := by
    decide
  refine ⟨hdrawn, fun h => ?_⟩
  have hcolumn := h.columns 40 0 255 (by rw [hdrawn]; simp)
  exact absurd hcolumn (by decide)

end LucidiOS.Framebuffer
