import LucidiOS.Framebuffer.Refinement

/-! The screen over whole sequences of calls: since `reset`, it shows what was typed. -/
namespace LucidiOS.Framebuffer
open TextGrid

/-- What a call is on the grid. -/
def onGrid (fb : Framebuffer) : Call → TextGrid (BitVec 8) → TextGrid (BitVec 8)
  | .drawSentence s, g => type fb.textCols (text s) g
  | .reset, _ => blank ⟨0, 0⟩

def typed (fb : Framebuffer) (cs : List Call) (g : TextGrid (BitVec 8)) : TextGrid (BitVec 8) :=
  cs.foldl (fun g c => fb.onGrid c g) g

/-- The texts of the calls fit where they are typed. -/
def SessionFits (fb : Framebuffer) : List Call → TextGrid (BitVec 8) → Prop
  | [], _ => True
  | c :: cs, g =>
    (∀ s, c = .drawSentence s → TextFits fb.textCols fb.textLines (text s) g) ∧
      SessionFits fb cs (fb.onGrid c g)

/-- A cell shows the glyph of what was last written to it, and what was never written is black. -/
def color (font : Font) (g : TextGrid (BitVec 8)) (x y : ℕ) : BitVec 32 :=
  match g.cell (x / 8) (y / 16) with
  | some b => glyphColor font b (x % 8) (y % 16)
  | none => rgb32Black

/-- The screen is black, and the words outside the rows are as in `m₀`. -/
structure Cleared (fb : Framebuffer) (m₀ m : Pixels) : Prop where
  black : ∀ y < fb.height.toNat, ∀ x < fb.width.toNat, m (fb.pixel x y) = rgb32Black
  outside : ∀ k : Word, fb.height.toNat * fb.stride ≤ k.toNat → m k = m₀ k

/-- The screen shows the grid since it was cleared. -/
def Displays (font : Font) (fb : Framebuffer) (m₀ : Pixels) (g : TextGrid (BitVec 8)) (cur : Cursor)
    (m : Pixels) : Prop :=
  ∃ cleared, fb.Cleared m₀ cleared ∧ Shows font fb cleared g cur m

section Session
variable {font : Font} {fb : Framebuffer} {m₀ m m' : Pixels} {g : TextGrid (BitVec 8)}
  {cur : Cursor}

theorem Cleared.refl_outside (h : fb.Cleared m' m)
    (hm : ∀ k : Word, fb.height.toNat * fb.stride ≤ k.toNat → m' k = m₀ k) : fb.Cleared m₀ m :=
  ⟨h.black, fun k hk => (h.outside k hk).trans (hm k hk)⟩

theorem paint_clear (m : Pixels) :
    fb.paint font [.clear] m = Raster.perform (fb.writes font .clear) m := by
  rw [paint, List.flatMap_singleton]

theorem paint_clear_cleared (hgeo : fb.TextGeometry) (m : Pixels) :
    fb.Cleared m (fb.paint font [.clear] m) := by
  rw [paint_clear]
  constructor
  · intro y hy x hx
    refine Raster.perform_of_agree (fun w hw _ => ?_)
      ⟨_, (fb.mem_clear font).mpr ⟨y, hy, x, hx, rfl⟩, rfl⟩ m
    obtain ⟨-, -, -, -, rfl⟩ := (fb.mem_clear font).mp hw
    rfl
  · intro k hk
    refine Raster.perform_of_ne (fun w hw heq => ?_) m
    obtain ⟨y, hy, x, hx, rfl⟩ := (fb.mem_clear font).mp hw
    have hxs : x < fb.stride := hx.trans_le (fb.width_le hgeo.pitch)
    have hlt := Raster.index_lt hxs hy
    rw [← heq, pixel_toNat_of_lt hxs hy] at hk
    omega

theorem blank_shows (hlines : 0 < fb.textLines) (m : Pixels) :
    Shows font fb m (blank ⟨0, 0⟩) ⟨0, 0⟩ m :=
  ⟨rfl, rfl, ⟨Nat.zero_le _, hlines, nofun⟩, nofun, fun _ _ _ _ _ => rfl, fun _ _ => rfl⟩

theorem reset_displays (font : Font) (hgeo : fb.TextGeometry) (hlines : 0 < fb.textLines) (m : Pixels) :
    Displays font fb m (blank ⟨0, 0⟩) reset.cursor (fb.paint font reset.drawn m) :=
  ⟨_, paint_clear_cleared hgeo m, blank_shows hlines _⟩

/-- One call keeps the screen and the grid together. -/
theorem Displays.call (hgeo : fb.TextGeometry) (hlines : 0 < fb.textLines)
    (h : Displays font fb m₀ g cur m) (c : Call)
    (hfit : ∀ s, c = .drawSentence s → TextFits fb.textCols fb.textLines (text s) g) :
    Displays font fb m₀ (fb.onGrid c g) (fb.call c cur).cursor
      (fb.paint font (fb.call c cur).drawn m) := by
  obtain ⟨cleared, hcleared, hshows⟩ := h
  cases c with
  | drawSentence s => exact ⟨cleared, hcleared, hshows.drawSentence hgeo s (hfit s rfl)⟩
  | reset =>
    refine ⟨_, (paint_clear_cleared hgeo m).refl_outside fun k hk => ?_, blank_shows hlines _⟩
    rw [hshows.outside k hk, hcleared.outside k hk]

theorem Displays.calls (hgeo : fb.TextGeometry) (hlines : 0 < fb.textLines) (cs : List Call)
    (h : Displays font fb m₀ g cur m) (hfit : fb.SessionFits cs g) :
    Displays font fb m₀ (fb.typed cs g) (fb.calls cs cur).cursor
      (fb.paint font (fb.calls cs cur).drawn m) := by
  induction cs generalizing g cur m with
  | nil => exact h
  | cons c cs ih =>
    have hnext := ih (h.call hgeo hlines c hfit.1) hfit.2
    rw [Framebuffer.calls, Output.andThen, paint_append]
    exact hnext

theorem calls_append (cs cs' : List Call) (cur : Cursor) :
    fb.calls (cs ++ cs') cur = (fb.calls cs cur).andThen (fb.calls cs') := by
  induction cs generalizing cur with
  | nil => rfl
  | cons c cs ih =>
    rw [List.cons_append, Framebuffer.calls, Framebuffer.calls, Output.andThen, ih]
    simp only [Output.andThen, List.append_assoc]

theorem Displays.pixel (h : Displays font fb m₀ g cur m) (hgeo : fb.TextGeometry) {x y : ℕ}
    (hx : x < fb.width.toNat) (hy : y < fb.height.toNat) : m (fb.pixel x y) = color font g x y := by
  obtain ⟨cleared, hcleared, hshows⟩ := h
  unfold color
  split
  · rename_i b hcell
    have hpixel := hshows.written _ _ b hcell (x % 8) (Nat.mod_lt x (by decide)) (y % 16)
      (Nat.mod_lt y (by decide))
    rwa [Nat.div_add_mod, Nat.div_add_mod] at hpixel
  · rename_i hcell
    rw [hshows.other y hy x (hx.trans_le (fb.width_le hgeo.pitch)) hcell]
    exact hcleared.black y hy x hx

end Session

/-- Whatever was drawn before and wherever, the screen shows exactly what was typed since the last
`reset`, the cursor is that of the typing, and no word outside the rows has changed since. -/
theorem screen_since_reset (font : Font) (fb : Framebuffer) (hgeo : fb.TextGeometry)
    (hlines : 0 < fb.textLines) (before cs : List Call) (hfit : fb.SessionFits cs (blank ⟨0, 0⟩))
    (cur : Cursor) (m : Pixels) :
    let o := fb.calls (before ++ .reset :: cs) cur
    let m' := fb.paint font o.drawn m
    let g := fb.typed cs (blank ⟨0, 0⟩)
    (∀ y < fb.height.toNat, ∀ x < fb.width.toNat, m' (fb.pixel x y) = color font g x y) ∧
    (o.cursor.column.toNat = g.column ∧ o.cursor.line.toNat = g.line) ∧
    ∀ k : Word, fb.height.toNat * fb.stride ≤ k.toNat →
      m' k = fb.paint font (fb.calls before cur).drawn m k := by
  intro o m' g
  have hdisplays := (reset_displays font hgeo hlines
    (fb.paint font (fb.calls before cur).drawn m)).calls hgeo hlines cs hfit
  have ho : o = (fb.calls before cur).andThen fun _ => reset.andThen (fb.calls cs) :=
    calls_append before (.reset :: cs) cur
  have hm' : m' = fb.paint font (fb.calls cs reset.cursor).drawn
      (fb.paint font reset.drawn (fb.paint font (fb.calls before cur).drawn m)) := by
    change fb.paint font o.drawn m = _
    rw [ho, Output.andThen, paint_append, Output.andThen, paint_append]
  rw [← hm'] at hdisplays
  refine ⟨fun y hy x hx => hdisplays.pixel hgeo hx hy, ?_, fun k hk => ?_⟩
  · obtain ⟨cleared, -, hshows⟩ := hdisplays
    rw [ho]
    exact ⟨hshows.column, hshows.line⟩
  · obtain ⟨cleared, hcleared, hshows⟩ := hdisplays
    rw [hshows.outside k hk, hcleared.outside k hk]

/-- After `kmain`'s calls and one more. -/
theorem screen_since_reset_greeting :
    (fb1024.calls (kmainCalls ++ .reset :: [.drawSentence greeting]) ⟨0, 0⟩).cursor.line.toNat =
      (fb1024.typed [.drawSentence greeting] (blank ⟨0, 0⟩)).line :=
  (screen_since_reset (fun c _ => c) fb1024 ⟨by decide, by decide, by decide⟩ (by decide)
    kmainCalls [.drawSentence greeting]
    ⟨fun s h => by cases h; exact greeting_fits, trivial⟩ ⟨0, 0⟩ fun _ => 0).2.1.2

end LucidiOS.Framebuffer
