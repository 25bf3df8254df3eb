import LucidiOS.Display.Raster
import LucidiOS.Pmm.PageBitmap

/-! The text output of `fb.c`. Nothing is read from the framebuffer, so that what is drawn depends
on the cursor only. -/
namespace LucidiOS

/-- The fields of `limine_framebuffer` that are used. The rows of `pitch` bytes are in memory. -/
structure Framebuffer where
  width : Word
  height : Word
  pitch : Word
  inMemory : height.toNat * pitch.toNat ≤ 2 ^ 64

/-- The 32-bit words by their indices from the start of the framebuffer. -/
abbrev Pixels := Word → BitVec 32

/-- The rows of pixels for each byte. -/
abbrev Font := BitVec 8 → ℕ → BitVec 8

/-- The globals `column` and `line`. -/
structure Cursor where
  column : BitVec 16
  line : BitVec 8
  deriving DecidableEq

def rgb32White : BitVec 32 := 0xFFFFFF

def rgb32Black : BitVec 32 := 0x000000

/-- What the functions of `fb.c` draw. -/
inductive Draw
  | character (column : BitVec 16) (line : BitVec 8) (c : BitVec 8)
  | scroll
  | clear
  deriving DecidableEq

/-- The cursor that is left and what was drawn, in order. -/
structure Output where
  cursor : Cursor
  drawn : List Draw

def Output.andThen (o : Output) (f : Cursor → Output) : Output :=
  ⟨(f o.cursor).cursor, o.drawn ++ (f o.cursor).drawn⟩

namespace Framebuffer
variable (font : Font) (fb : Framebuffer)

def drawPixel (x y : Word) (color : BitVec 32) : List (Word × BitVec 32) :=
  [(y * (fb.pitch / 4) + x, color)]

def drawCharacter (x y : Word) (c : BitVec 8) : List (Word × BitVec 32) :=
  (List.range 16).flatMap fun j =>
    let glyph := font c j
    (List.range 8).flatMap fun i =>
      fb.drawPixel (x + BitVec.ofNat 64 i) (y + BitVec.ofNat 64 j)
        (if glyph &&& (0x80#8 >>> i) ≠ 0 then rgb32White else rgb32Black)

/-- The writes of `scrollUp`: each row is cleared in the place of the row above it, and the last
row once more. -/
def scrollUp : List (Word × BitVec 32) :=
  ((List.range fb.height.toNat).flatMap fun y => (List.range fb.width.toNat).map fun x =>
    ((BitVec.ofNat 64 y - 1) * (fb.pitch / 4) + BitVec.ofNat 64 x, rgb32Black)) ++
  (List.range fb.width.toNat).map fun x =>
    ((fb.height - 1) * (fb.pitch / 4) + BitVec.ofNat 64 x, rgb32Black)

/-- The writes of `reset`. -/
def clear : List (Word × BitVec 32) :=
  (List.range fb.height.toNat).flatMap fun y => (List.range fb.width.toNat).flatMap fun x =>
    fb.drawPixel (BitVec.ofNat 64 x) (BitVec.ofNat 64 y) rgb32Black

def writes : Draw → List (Word × BitVec 32)
  | .character column line c =>
      fb.drawCharacter font (column.setWidth 64 * 8) (line.setWidth 64 * 16) c
  | .scroll => fb.scrollUp
  | .clear => fb.clear

def reset : Output := ⟨⟨0, 0⟩, [.clear]⟩

def newLine (cur : Cursor) : Output :=
  if cur.line.setWidth 64 < fb.height - 1 then ⟨⟨0, cur.line + 1⟩, []⟩
  else ⟨⟨0, cur.line⟩, [.scroll]⟩

def maxCols : BitVec 16 := (fb.width / 8).setWidth 16

/-- `newLine` if the line is full. -/
def wrap (cur : Cursor) : Output :=
  if fb.maxCols ≤ cur.column then fb.newLine cur else ⟨cur, []⟩

/-- A character at the cursor, which advances. -/
def putCharacter (c : BitVec 8) (cur : Cursor) : Output :=
  ⟨{ cur with column := cur.column + 1 }, [.character cur.column cur.line c]⟩

def putCells (c : BitVec 8) : ℕ → Cursor → Output
  | 0, cur => ⟨cur, []⟩
  | n + 1, cur => (putCharacter c cur).andThen (putCells c n)

def tabLen : ℕ := 4

/-- One byte of a string. -/
def drawByte (b : BitVec 8) (cur : Cursor) : Output :=
  if b = 0x0A then fb.newLine cur
  else if b = 0x0D then ⟨⟨0, cur.line⟩, []⟩
  else if b = 0x09 then (fb.wrap cur).andThen (putCells 255 tabLen)
  else (fb.wrap cur).andThen (putCharacter b)

def drawSentence : List (BitVec 8) → Cursor → Output
  | [], cur => ⟨cur, []⟩
  | b :: s, cur => if b = 0 then ⟨cur, []⟩ else (fb.drawByte b cur).andThen (drawSentence s)

/-- What a drawing leaves in the framebuffer. -/
def paint (drawn : List Draw) (m : Pixels) : Pixels :=
  Raster.perform (drawn.flatMap (fb.writes font)) m

/-- The words from one pixel to the pixel below it. -/
def stride : ℕ := fb.pitch.toNat / 4

/-- The index of pixel `x` of row `y`. -/
def pixel (x y : ℕ) : Word := BitVec.ofNat 64 (Raster.index fb.stride x y)

/-- The colour of a pixel of a glyph: white for a set bit, the most significant one leftmost. -/
def glyphColor (font : Font) (c : BitVec 8) (i j : ℕ) : BitVec 32 :=
  if (font c j).getMsbD i = true then rgb32White else rgb32Black

theorem stride_eq : fb.pitch / 4 = BitVec.ofNat 64 fb.stride := by
  apply BitVec.eq_of_toNat_eq
  have hdiv : (fb.pitch / 4).toNat = fb.pitch.toNat / 4 := BitVec.toNat_udiv
  have := fb.pitch.isLt
  rw [hdiv, stride, BitVec.toNat_ofNat, Nat.mod_eq_of_lt (by omega)]

theorem stride_le : 4 * fb.stride ≤ fb.pitch.toNat := by
  unfold stride
  omega

theorem size_le : 4 * (fb.height.toNat * fb.stride) ≤ 2 ^ 64 := by
  rw [Nat.mul_left_comm]
  exact (Nat.mul_le_mul_left _ fb.stride_le).trans fb.inMemory

theorem drawPixel_ofNat (x y : ℕ) (color : BitVec 32) :
    fb.drawPixel (BitVec.ofNat 64 x) (BitVec.ofNat 64 y) color = [(fb.pixel x y, color)] := by
  rw [drawPixel, pixel, Raster.index, stride_eq, BitVec.ofNat_add, BitVec.ofNat_mul]

/-- The bit tested for a column of the glyph. -/
theorem glyph_bit (glyph : BitVec 8) {i : ℕ} (hi : i < 8) :
    glyph &&& (0x80#8 >>> i) ≠ 0 ↔ glyph.getMsbD i = true := by
  have hbit : 0x80#8 >>> i = BitVec.twoPow 8 (7 - i) := by
    interval_cases i <;> rfl
  have hpos : BitVec.twoPow 8 (7 - i) ≠ 0#8 := by
    interval_cases i <;> decide
  rw [hbit, BitVec.and_twoPow, BitVec.getMsbD, decide_eq_true hi, Bool.true_and]
  split_ifs with hset
  · exact ⟨fun _ => hset, fun _ => hpos⟩
  · exact ⟨fun h => absurd rfl h, fun h => absurd h hset⟩

/-- The writes for a character are those of the pixels of its cell. -/
theorem mem_character {column : BitVec 16} {line c : BitVec 8} {w : Word × BitVec 32} :
    w ∈ fb.writes font (.character column line c) ↔ ∃ j < 16, ∃ i < 8,
      w = (fb.pixel (8 * column.toNat + i) (16 * line.toNat + j), glyphColor font c i j) := by
  have hx (i : ℕ) : column.setWidth 64 * 8 + BitVec.ofNat 64 i =
      BitVec.ofNat 64 (8 * column.toNat + i) := by
    rw [BitVec.ofNat_add, BitVec.ofNat_mul, BitVec.mul_comm, BitVec.ofNat_toNat]
    rfl
  have hy (j : ℕ) : line.setWidth 64 * 16 + BitVec.ofNat 64 j =
      BitVec.ofNat 64 (16 * line.toNat + j) := by
    rw [BitVec.ofNat_add, BitVec.ofNat_mul, BitVec.mul_comm, BitVec.ofNat_toNat]
    rfl
  simp only [writes, drawCharacter, List.mem_flatMap, List.mem_range, hx, hy, drawPixel_ofNat,
    List.mem_singleton]
  refine exists_congr fun j => and_congr_right fun _ => exists_congr fun i =>
    and_congr_right fun hi => ?_
  rw [glyphColor, if_congr (glyph_bit (font c j) hi) rfl rfl]

theorem mem_clear {w : Word × BitVec 32} :
    w ∈ fb.writes font .clear ↔
      ∃ y < fb.height.toNat, ∃ x < fb.width.toNat, w = (fb.pixel x y, rgb32Black) := by
  simp only [writes, clear, List.mem_flatMap, List.mem_range, drawPixel_ofNat, List.mem_singleton]

/-- Each cell is one column further right. -/
theorem putCells_eq (c : BitVec 8) (n : ℕ) (cur : Cursor) : putCells c n cur =
    ⟨{ cur with column := cur.column + BitVec.ofNat 16 n },
      (List.range n).map fun i =>
        .character (cur.column + BitVec.ofNat 16 i) cur.line c⟩ := by
  have hzero : cur.column + BitVec.ofNat 16 0 = cur.column := BitVec.add_zero _
  induction n generalizing cur with
  | zero =>
    rw [hzero]
    rfl
  | succ n ih =>
    have hnext (i : ℕ) : cur.column + 1 + BitVec.ofNat 16 i =
        cur.column + BitVec.ofNat 16 (i + 1) := by
      rw [BitVec.add_assoc, Nat.add_comm, BitVec.ofNat_add]
      rfl
    rw [putCells, Output.andThen, ih _ (BitVec.add_zero _), List.range_succ_eq_map, List.map_cons,
      List.map_map, hzero]
    simp only [putCharacter, hnext, Function.comp_def, Nat.succ_eq_add_one, List.singleton_append]

/-- The first row is cleared in the place of a row before the framebuffer. -/
theorem scroll_before (hw : 0 < fb.width.toNat) (hh : 0 < fb.height.toNat) :
    (-BitVec.ofNat 64 fb.stride, rgb32Black) ∈ fb.writes font .scroll := by
  refine List.mem_append_left _ (List.mem_flatMap.mpr ⟨0, List.mem_range.mpr hh,
    List.mem_map.mpr ⟨0, List.mem_range.mpr hw, ?_⟩⟩)
  rw [stride_eq]
  congr 1
  have hrow : BitVec.ofNat 64 0 - 1 = -(1#64) := by decide
  rw [hrow, BitVec.add_zero, BitVec.neg_mul, BitVec.one_mul]

end Framebuffer
end LucidiOS
