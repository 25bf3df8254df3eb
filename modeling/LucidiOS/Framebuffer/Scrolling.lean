import LucidiOS.Framebuffer.Refinement

/-! What is left of the text when `newLine` scrolls. -/
namespace LucidiOS.Framebuffer
variable (font : Font) (fb : Framebuffer)

/-- A new line at the bottom moves the image up by one line of text: the cursor stays on its line,
the pixels of each row are those of the row 16 below it, the last 16 rows are black, and no word
outside the rows is changed. -/
structure ScrollsText (cur : Cursor) (m : Pixels) : Prop where
  cursor : (fb.newLine cur).cursor = ⟨0, cur.line⟩
  moved : ∀ y, y + 16 < fb.height.toNat → ∀ x < fb.width.toNat,
    fb.paint font (fb.newLine cur).drawn m (fb.pixel x y) = m (fb.pixel x (y + 16))
  bottom : ∀ y < fb.height.toNat, fb.height.toNat ≤ y + 16 → ∀ x < fb.width.toNat,
    fb.paint font (fb.newLine cur).drawn m (fb.pixel x y) = rgb32Black
  outside : ∀ k : Word, fb.height.toNat * fb.stride ≤ k.toNat →
    fb.paint font (fb.newLine cur).drawn m k = m k

/-- The word of a pixel of the row before the framebuffer. -/
def wordBefore (x : ℕ) : Word := BitVec.ofNat 64 x - BitVec.ofNat 64 fb.stride

section Scroll
variable {font : Font} {fb : Framebuffer} {cur : Cursor} {m : Pixels}

/-- `scrollUp` writes every pixel of every row, and those of one row before the framebuffer. -/
theorem mem_scroll (hh : 0 < fb.height.toNat) {w : Word × BitVec 32} :
    w ∈ fb.writes font .scroll ↔ w.2 = rgb32Black ∧ ((∃ x < fb.width.toNat, w.1 = fb.wordBefore x) ∨
      ∃ y < fb.height.toNat, ∃ x < fb.width.toNat, w.1 = fb.pixel x y) := by
  have hrow (y x : ℕ) : BitVec.ofNat 64 y * (fb.pitch / 4) + BitVec.ofNat 64 x = fb.pixel x y := by
    rw [stride_eq, pixel, Raster.index, BitVec.ofNat_add, BitVec.ofNat_mul]
  have hbefore (x : ℕ) : (BitVec.ofNat 64 0 - 1) * (fb.pitch / 4) + BitVec.ofNat 64 x =
      fb.wordBefore x := by
    have hneg : BitVec.ofNat 64 0 - 1 = -(1#64) := by decide
    rw [hneg, stride_eq, BitVec.neg_mul, BitVec.one_mul, BitVec.add_comm, wordBefore,
      BitVec.sub_eq_add_neg]
  have hpred (y : ℕ) : BitVec.ofNat 64 (y + 1) - 1 = BitVec.ofNat 64 y := by
    rw [BitVec.ofNat_add]
    exact BitVec.add_sub_cancel _ _
  have hlast : fb.height - 1 = BitVec.ofNat 64 (fb.height.toNat - 1) := by
    rw [← hpred, Nat.sub_add_cancel hh, BitVec.ofNat_toNat, BitVec.setWidth_eq]
  simp only [writes, scrollUp, List.mem_append, List.mem_flatMap, List.mem_map, List.mem_range]
  constructor
  · rintro (⟨y, hy, x, hx, rfl⟩ | ⟨x, hx, rfl⟩)
    · refine ⟨rfl, ?_⟩
      cases y with
      | zero => exact .inl ⟨x, hx, hbefore x⟩
      | succ y => exact .inr ⟨y, by omega, x, hx, by rw [← hrow, hpred]⟩
    · exact ⟨rfl, .inr ⟨fb.height.toNat - 1, by omega, x, hx, by rw [← hrow, hlast]⟩⟩
  · rintro ⟨hblack, ⟨x, hx, hw⟩ | ⟨y, hy, x, hx, hw⟩⟩
    · exact .inl ⟨0, hh, x, hx, Prod.ext ((hbefore x).trans hw.symm) hblack.symm⟩
    · by_cases hlt : y + 1 < fb.height.toNat
      · refine .inl ⟨y + 1, hlt, x, hx, Prod.ext ?_ hblack.symm⟩
        rw [hw, ← hrow, hpred]
      · refine .inr ⟨x, hx, Prod.ext ?_ hblack.symm⟩
        rw [hw, ← hrow, hlast, show fb.height.toNat - 1 = y by omega]

theorem paint_scroll_black (hh : 0 < fb.height.toNat) {k : Word}
    (hk : (∃ x < fb.width.toNat, k = fb.wordBefore x) ∨
      ∃ y < fb.height.toNat, ∃ x < fb.width.toNat, k = fb.pixel x y) (m : Pixels) :
    fb.paint font [.scroll] m k = rgb32Black := by
  rw [paint, List.flatMap_singleton]
  exact Raster.perform_of_agree (fun w hw _ => ((mem_scroll hh).mp hw).1)
    ⟨(k, rgb32Black), (mem_scroll hh).mpr ⟨rfl, hk⟩, rfl⟩ m

theorem paint_scroll_other (hh : 0 < fb.height.toNat) {k : Word}
    (hk : ¬((∃ x < fb.width.toNat, k = fb.wordBefore x) ∨
      ∃ y < fb.height.toNat, ∃ x < fb.width.toNat, k = fb.pixel x y)) (m : Pixels) :
    fb.paint font [.scroll] m k = m k := by
  rw [paint, List.flatMap_singleton]
  refine Raster.perform_of_ne (fun w hw heq => hk ?_) m
  rw [← heq]
  exact ((mem_scroll hh).mp hw).2

/-- The row before the framebuffer is at the end of the index range. -/
theorem wordBefore_outside (hp : 4 * fb.width.toNat ≤ fb.pitch.toNat) {x : ℕ}
    (hh : 32 ≤ fb.height.toNat) (hx : x < fb.width.toNat) :
    fb.height.toNat * fb.stride ≤ (fb.wordBefore x).toNat := by
  have hwidth := fb.width_le hp
  have hsize := fb.size_le
  have hstride : fb.stride ≤ fb.height.toNat * fb.stride :=
    Nat.le_mul_of_pos_left _ (by omega)
  rw [wordBefore, BitVec.toNat_sub, BitVec.toNat_ofNat, BitVec.toNat_ofNat]
  omega

theorem newLine_scroll (hscroll : ¬fb.NoScroll cur) :
    fb.newLine cur = ⟨⟨0, cur.line⟩, [.scroll]⟩ := by
  unfold NoScroll at hscroll
  rw [newLine, if_neg hscroll]

end Scroll

/-- Scrolling keeps the text only where there is none: all rows but the first 16 are black already,
and so is a row of words before the framebuffer. -/
theorem newLine_scrollsText_iff (font : Font) (fb : Framebuffer) (hh : 32 ≤ fb.height.toNat)
    (hp : 4 * fb.width.toNat ≤ fb.pitch.toNat) (cur : Cursor) (hscroll : ¬fb.NoScroll cur)
    (m : Pixels) :
    fb.ScrollsText font cur m ↔
      (∀ y < fb.height.toNat, 16 ≤ y → ∀ x < fb.width.toNat, m (fb.pixel x y) = rgb32Black) ∧
      ∀ x < fb.width.toNat, m (fb.wordBefore x) = rgb32Black := by
  have hnew := newLine_scroll hscroll
  have hpos : 0 < fb.height.toNat := by omega
  constructor
  · intro h
    have hmoved := h.moved
    have houtside := h.outside
    rw [hnew] at hmoved houtside
    refine ⟨fun y hy hy16 x hx => ?_, fun x hx => ?_⟩
    · have := hmoved (y - 16) (by omega) x hx
      rw [Nat.sub_add_cancel hy16] at this
      rw [← this]
      exact paint_scroll_black hpos (.inr ⟨y - 16, by omega, x, hx, rfl⟩) m
    · rw [← houtside _ (wordBefore_outside hp hh hx)]
      exact paint_scroll_black hpos (.inl ⟨x, hx, rfl⟩) m
  · rintro ⟨hrows, hbefore⟩
    have hblack (y : ℕ) (hy : y < fb.height.toNat) (x : ℕ) (hx : x < fb.width.toNat) :
        fb.paint font (fb.newLine cur).drawn m (fb.pixel x y) = rgb32Black := by
      rw [hnew]
      exact paint_scroll_black hpos (.inr ⟨y, hy, x, hx, rfl⟩) m
    refine ⟨by rw [hnew], fun y hy x hx => ?_, fun y hy _ x hx => hblack y hy x hx, fun k hk => ?_⟩
    · rw [hblack y (by omega) x hx, hrows (y + 16) hy (by omega) x hx]
    · rw [hnew]
      by_cases hrow : ∃ x < fb.width.toNat, k = fb.wordBefore x
      · obtain ⟨x, hx, rfl⟩ := hrow
        rw [hbefore x hx]
        exact paint_scroll_black hpos (.inl ⟨x, hx, rfl⟩) m
      · refine paint_scroll_other hpos (fun hc => ?_) m
        rcases hc with hc | ⟨y, hy, x, hx, rfl⟩
        · exact hrow hc
        · -- no pixel is outside the rows
          have hwidth := fb.width_le hp
          rw [pixel_toNat_of_lt (by omega) hy] at hk
          have := Raster.index_lt (show x < fb.stride by omega) hy
          omega

/-- Of a screen that is white in its first line of text nothing is left, as it should be. -/
theorem newLine_scrollsText_iff_firstLine :
    fb320.ScrollsText (fun _ _ => 0) ⟨5, 199⟩ fun k =>
      if k.toNat < 16 * 320 then rgb32White else rgb32Black := by
  have hstride : fb320.stride = 320 := rfl
  have hheight : fb320.height.toNat = 200 := rfl
  refine (newLine_scrollsText_iff _ fb320 (by decide) (by decide) ⟨5, 199⟩ (by decide) _).mpr
    ⟨fun y hy hy16 x hx => if_neg ?_, fun x hx => if_neg ?_⟩
  · rw [pixel_toNat_of_lt hx hy, Raster.index, hstride]
    omega
  · have : fb320.height.toNat * fb320.stride ≤ (fb320.wordBefore x).toNat :=
      wordBefore_outside (by decide) (by decide) hx
    rw [hstride, hheight] at this
    omega

/-- A white pixel in row 16 is gone after the 200th line, and not in row 0. -/
theorem scroll_loses_text :
    let m : Pixels := fun k => if k = fb320.pixel 0 16 then rgb32White else rgb32Black
    (fb320.newLine ⟨5, 199⟩).drawn = [.scroll] ∧
      fb320.paint (fun _ _ => 0) (fb320.newLine ⟨5, 199⟩).drawn m (fb320.pixel 0 0) = rgb32Black ∧
      ¬fb320.ScrollsText (fun _ _ => 0) ⟨5, 199⟩ m := by
  intro m
  have hdrawn : (fb320.newLine ⟨5, 199⟩).drawn = [.scroll] := by decide
  have hblack : fb320.paint (fun _ _ => 0) (fb320.newLine ⟨5, 199⟩).drawn m (fb320.pixel 0 0) =
      rgb32Black := by
    rw [hdrawn]
    exact paint_scroll_black (by decide) (.inr ⟨0, by decide, 0, by decide, rfl⟩) m
  refine ⟨hdrawn, hblack, fun h => ?_⟩
  have hmoved := h.moved 0 (by decide) 0 (by decide)
  rw [hblack] at hmoved
  have hwhite : m (fb320.pixel 0 (0 + 16)) = rgb32White := if_pos rfl
  rw [hwhite] at hmoved
  exact absurd hmoved (by decide)

end LucidiOS.Framebuffer
