import Mathlib.Data.Nat.Notation
import Mathlib.Tactic.Common
import Mathlib.Data.List.Nodup
import Mathlib.Data.List.ProdSigma

/-!
# Points and rectangles (board/TftLcd/backup/ILI93xx.c)

What the driver puts on the bus of the display, as commands and data words. For
the controller 6804 in landscape a point is addressed with mirrored and swapped
coordinates, and a rectangle is filled as a portrait one.
-/

namespace MultiEmbedded.Lcd

/-- `_lcd_dev`. -/
structure LcdDev where
  width : BitVec 16
  height : BitVec 16
  id : BitVec 16
  dir : BitVec 8
  wramcmd : BitVec 16
  setxcmd : BitVec 16
  setycmd : BitVec 16
  deriving DecidableEq

inductive BusOp
  | reg (data : BitVec 16)
  | data (data : BitVec 16)
  deriving DecidableEq

/- A coordinate as its high and its low byte. -/
def bytes (v : BitVec 16) : List BusOp := [.data (v >>> 8), .data (v &&& 0xff)]

def lcdWriteReg (lcdReg lcdRegValue : BitVec 16) : List BusOp := [.reg lcdReg, .data lcdRegValue]

def lcdWriteRamPrepare (lcddev : LcdDev) : List BusOp := [.reg lcddev.wramcmd]

def lcdSetCursor (lcddev : LcdDev) (xpos ypos : BitVec 16) : List BusOp :=
  if lcddev.id = 0x9341 ∨ lcddev.id = 0x5310 then
    .reg lcddev.setxcmd :: bytes xpos ++ .reg lcddev.setycmd :: bytes ypos
  else if lcddev.id = 0x6804 then
    let xpos := if lcddev.dir = 1 then lcddev.width - 1 - xpos else xpos
    .reg lcddev.setxcmd :: bytes xpos ++ .reg lcddev.setycmd :: bytes ypos
  else if lcddev.id = 0x1963 then
    (if lcddev.dir = 0 then .reg lcddev.setxcmd :: .data 0 :: .data 0 :: bytes (lcddev.width - 1 - xpos)
      else .reg lcddev.setxcmd :: bytes xpos ++ bytes (lcddev.width - 1)) ++
      .reg lcddev.setycmd :: bytes ypos ++ bytes (lcddev.height - 1)
  else if lcddev.id = 0x5510 then
    [.reg lcddev.setxcmd, .data (xpos >>> 8), .reg (lcddev.setxcmd + 1), .data (xpos &&& 0xff),
      .reg lcddev.setycmd, .data (ypos >>> 8), .reg (lcddev.setycmd + 1), .data (ypos &&& 0xff)]
  else
    let xpos := if lcddev.dir = 1 then lcddev.width - 1 - xpos else xpos
    lcdWriteReg lcddev.setxcmd xpos ++ lcdWriteReg lcddev.setycmd ypos

/- `color` is POINT_COLOR. -/
def lcdDrawPoint (lcddev : LcdDev) (color x y : BitVec 16) : List BusOp :=
  lcdSetCursor lcddev x y ++ lcdWriteRamPrepare lcddev ++ [.data color]

/- The loop over `i`; `none` means that it has not ended within its fuel. -/
def fillRows (lcddev : LcdDev) (sx ey xlen color : BitVec 16) : ℕ → BitVec 16 → Option (List BusOp)
  | 0, _ => none
  | fuel + 1, i =>
    if i ≤ ey then do
      let ops ← fillRows lcddev sx ey xlen color fuel (i + 1)
      return lcdSetCursor lcddev sx i ++ lcdWriteRamPrepare lcddev ++
        List.replicate xlen.toNat (.data color) ++ ops
    else return []

/- The state after the call and what it has put on the bus. -/
def lcdFill (fuel : ℕ) (lcddev : LcdDev) (sx sy ex ey color : BitVec 16) : Option (LcdDev × List BusOp) :=
  if h : lcddev.id = 0x6804 ∧ lcddev.dir = 1 then
    let temp := sx
    let sx := sy
    let sy := lcddev.width - ex - 1
    let ex := ey
    let ey := lcddev.width - temp - 1
    do
      let (dev, ops) ← lcdFill fuel { lcddev with dir := 0, setxcmd := 0x2A, setycmd := 0x2B } sx sy ex ey color
      return ({ dev with dir := 1, setxcmd := 0x2B, setycmd := 0x2A }, ops)
  else do
    let ops ← fillRows lcddev sx ey (ex - sx + 1) color fuel sy
    return (lcddev, ops)
termination_by lcddev.dir.toNat
decreasing_by
  rw [h.2]
  decide

/-! ### The direction of the display -/

/- The dimensions after LCD_Scan_Dir: the longer one is the width exactly if the scan goes down the columns. -/
def turned (lcddev : LcdDev) (columns : Bool) : LcdDev :=
  if columns then
    if lcddev.width < lcddev.height then { lcddev with width := lcddev.height, height := lcddev.width } else lcddev
  else
    if lcddev.width > lcddev.height then { lcddev with width := lcddev.height, height := lcddev.width } else lcddev

/- In landscape, and in portrait for the controller 1963, the scan directions change places. -/
def changedDir (dir : BitVec 8) : BitVec 8 :=
  if dir = 0 then 6 else if dir = 1 then 7 else if dir = 2 then 4 else if dir = 3 then 5
  else if dir = 4 then 1 else if dir = 5 then 0 else if dir = 6 then 3 else if dir = 7 then 2 else dir

/- The bits of the register 0x36, and those of the register 0x03 of the other controllers. -/
def scanBits (dir : BitVec 8) : BitVec 16 :=
  if dir = 1 then 0x80 else if dir = 2 then 0x40 else if dir = 3 then 0xC0 else if dir = 4 then 0x20
  else if dir = 5 then 0x60 else if dir = 6 then 0xA0 else if dir = 7 then 0xE0 else 0

def entryBits (dir : BitVec 8) : BitVec 16 :=
  if dir = 0 then 0x30 else if dir = 1 then 0x10 else if dir = 2 then 0x20 else if dir = 4 then 0x38
  else if dir = 5 then 0x28 else if dir = 6 then 0x18 else if dir = 7 then 0x08 else 0

def lcdScanDir (lcddev : LcdDev) (dir : BitVec 8) : LcdDev × List BusOp :=
  let dir :=
    if (lcddev.dir = 1 ∧ lcddev.id ≠ 0x6804 ∧ lcddev.id ≠ 0x1963) ∨ (lcddev.dir = 0 ∧ lcddev.id = 0x1963) then
      changedDir dir
    else dir
  if lcddev.id = 0x9341 ∨ lcddev.id = 0x6804 ∨ lcddev.id = 0x5310 ∨ lcddev.id = 0x5510 ∨ lcddev.id = 0x1963 then
    let regval := scanBits dir
    let dirreg := if lcddev.id = 0x5510 then 0x3600 else 0x36
    let regval := if lcddev.id ≠ 0x5310 ∧ lcddev.id ≠ 0x5510 ∧ lcddev.id ≠ 0x1963 then regval ||| 0x08 else regval
    let regval := if lcddev.id = 0x6804 then regval ||| 0x02 else regval
    let dev := if lcddev.id ≠ 0x1963 then turned lcddev (regval &&& 0x20 != 0) else lcddev
    let window :=
      if dev.id = 0x5510 then
        [.reg dev.setxcmd, .data 0, .reg (dev.setxcmd + 1), .data 0,
          .reg (dev.setxcmd + 2), .data ((dev.width - 1) >>> 8), .reg (dev.setxcmd + 3), .data ((dev.width - 1) &&& 0xff),
          .reg dev.setycmd, .data 0, .reg (dev.setycmd + 1), .data 0,
          .reg (dev.setycmd + 2), .data ((dev.height - 1) >>> 8), .reg (dev.setycmd + 3), .data ((dev.height - 1) &&& 0xff)]
      else .reg dev.setxcmd :: .data 0 :: .data 0 :: bytes (dev.width - 1) ++
        .reg dev.setycmd :: .data 0 :: .data 0 :: bytes (dev.height - 1)
    (dev, lcdWriteReg dirreg regval ++ window)
  else (lcddev, lcdWriteReg 0x03 (entryBits dir ||| 0x1000))

def DFT_SCAN_DIR : BitVec 8 := 0

def lcdDisplayDir (lcddev : LcdDev) (dir : BitVec 8) : LcdDev × List BusOp :=
  let dev :=
    if dir = 0 then
      let dev := { lcddev with dir := 0, width := 240, height := 320 }
      if dev.id = 0x9341 ∨ dev.id = 0x6804 ∨ dev.id = 0x5310 then
        let dev := { dev with wramcmd := 0x2C, setxcmd := 0x2A, setycmd := 0x2B }
        if dev.id = 0x6804 ∨ dev.id = 0x5310 then { dev with width := 320, height := 480 } else dev
      else if dev.id = 0x5510 then
        { dev with wramcmd := 0x2C00, setxcmd := 0x2A00, setycmd := 0x2B00, width := 480, height := 800 }
      else if dev.id = 0x1963 then
        { dev with wramcmd := 0x2C, setxcmd := 0x2B, setycmd := 0x2A, width := 480, height := 800 }
      else { dev with wramcmd := 0x22, setxcmd := 0x20, setycmd := 0x21 }
    else
      let dev := { lcddev with dir := 1, width := 320, height := 240 }
      let dev :=
        if dev.id = 0x9341 ∨ dev.id = 0x5310 then { dev with wramcmd := 0x2C, setxcmd := 0x2A, setycmd := 0x2B }
        else if dev.id = 0x6804 then { dev with wramcmd := 0x2C, setxcmd := 0x2B, setycmd := 0x2A }
        else if dev.id = 0x5510 then
          { dev with wramcmd := 0x2C00, setxcmd := 0x2A00, setycmd := 0x2B00, width := 800, height := 480 }
        else if dev.id = 0x1963 then
          { dev with wramcmd := 0x2C, setxcmd := 0x2A, setycmd := 0x2B, width := 800, height := 480 }
        else { dev with wramcmd := 0x22, setxcmd := 0x21, setycmd := 0x20 }
      if dev.id = 0x6804 ∨ dev.id = 0x5310 then { dev with width := 480, height := 320 } else dev
  lcdScanDir dev DFT_SCAN_DIR

/-- The controller 6804 in landscape. -/
structure Landscape (lcddev : LcdDev) : Prop where
  id : lcddev.id = 0x6804
  dir : lcddev.dir = 1
  wramcmd : lcddev.wramcmd = 0x2C
  setxcmd : lcddev.setxcmd = 0x2B
  setycmd : lcddev.setycmd = 0x2A

theorem turned_landscape {lcddev : LcdDev} (h : Landscape lcddev) (columns : Bool) : Landscape (turned lcddev columns) := by
  unfold turned
  split
  · split
    · exact ⟨h.id, h.dir, h.wramcmd, h.setxcmd, h.setycmd⟩
    · exact h
  · split
    · exact ⟨h.id, h.dir, h.wramcmd, h.setxcmd, h.setycmd⟩
    · exact h

theorem lcdScanDir_landscape {lcddev : LcdDev} (h : Landscape lcddev) (dir : BitVec 8) :
    Landscape (lcdScanDir lcddev dir).1 := by
  have hid : lcddev.id = 0x9341 ∨ lcddev.id = 0x6804 ∨ lcddev.id = 0x5310 ∨ lcddev.id = 0x5510 ∨
      lcddev.id = 0x1963 := Or.inr (Or.inl h.id)
  have hne : lcddev.id ≠ 0x1963 := by
    rw [h.id]
    decide
  unfold lcdScanDir
  rw [if_pos hid]
  show Landscape (if lcddev.id ≠ 0x1963 then turned lcddev _ else lcddev)
  rw [if_pos hne]
  exact turned_landscape h _

/- Landscape is what LCD_Display_Dir makes of that controller, whatever the fields held before. -/
theorem lcdDisplayDir_landscape {lcddev : LcdDev} (hid : lcddev.id = 0x6804) {dir : BitVec 8} (hdir : dir ≠ 0) :
    Landscape (lcdDisplayDir lcddev dir).1 := by
  have h9341 : ¬ (lcddev.id = 0x9341 ∨ lcddev.id = 0x5310) := by
    rw [hid]
    decide
  unfold lcdDisplayDir
  apply lcdScanDir_landscape
  simp only [if_neg hdir, if_neg h9341, if_pos hid, if_pos (Or.inl hid : lcddev.id = 0x6804 ∨ lcddev.id = 0x5310)]
  exact ⟨hid, rfl, rfl, rfl, rfl⟩

/-! ### The controller -/

/-- The commands 0x2A and 0x2B set the column and the page, each as two bytes, and the
data words behind 0x2C are written to successive columns. `words` counts them. -/
structure Controller where
  command : BitVec 16
  words : ℕ
  column : BitVec 16
  page : BitVec 16
  painted : List ((BitVec 16 × BitVec 16) × BitVec 16)

def argument (old : BitVec 16) (words : ℕ) (d : BitVec 16) : BitVec 16 :=
  if words = 0 then d <<< 8 ||| old &&& 0xff else if words = 1 then old &&& 0xff00 ||| d &&& 0xff else old

def Controller.step (c : Controller) : BusOp → Controller
  | .reg d => { c with command := d, words := 0 }
  | .data d =>
    if c.command = 0x2A then { c with words := c.words + 1, column := argument c.column c.words d }
    else if c.command = 0x2B then { c with words := c.words + 1, page := argument c.page c.words d }
    else if c.command = 0x2C then
      { c with words := c.words + 1, painted := c.painted ++ [((c.column + BitVec.ofNat 16 c.words, c.page), d)] }
    else { c with words := c.words + 1 }

def Controller.run (c : Controller) (ops : List BusOp) : Controller := ops.foldl Controller.step c

theorem run_append (c : Controller) (a b : List BusOp) : c.run (a ++ b) = (c.run a).run b :=
  List.foldl_append ..

/- Both bytes of a coordinate arrive, whatever was set before. -/
theorem argument_bytes (old v : BitVec 16) :
    argument (argument old 0 (v >>> 8)) 1 (v &&& 0xff) = v := by
  show (v >>> 8 <<< 8 ||| old &&& 0xff) &&& 0xff00 ||| v &&& 0xff &&& 0xff = v
  have hlow : ∀ i < 16, (0xff : BitVec 16).getLsbD i = decide (i < 8) := by decide
  have hhigh : ∀ i < 16, (0xff00 : BitVec 16).getLsbD i = decide (8 ≤ i) := by decide
  apply BitVec.eq_of_getLsbD_eq
  intro i hi
  simp only [BitVec.getLsbD_or, BitVec.getLsbD_and, BitVec.getLsbD_shiftLeft, BitVec.getLsbD_ushiftRight,
    hlow i hi, hhigh i hi, hi, decide_true, Bool.true_and]
  by_cases hbyte : i < 8
  · simp [hbyte, Nat.not_le_of_lt hbyte]
  · have hback : 8 + (i - 8) = i := by omega
    simp [hbyte, hback, Nat.le_of_not_lt hbyte]

theorem column_run (c : Controller) (v : BitVec 16) :
    c.run (.reg 0x2A :: bytes v) = { c with command := 0x2A, words := 2, column := v } := by
  show { c with command := 0x2A, words := 2, column := argument (argument c.column 0 (v >>> 8)) 1 (v &&& 0xff) } = _
  rw [argument_bytes]

theorem page_run (c : Controller) (v : BitVec 16) :
    c.run (.reg 0x2B :: bytes v) = { c with command := 0x2B, words := 2, page := v } := by
  show { c with command := 0x2B, words := 2, page := argument (argument c.page 0 (v >>> 8)) 1 (v &&& 0xff) } = _
  rw [argument_bytes]

/-- The controller with the next data word going to the cell `(column, page)`. -/
def Controller.at (c : Controller) (column page : BitVec 16) : Controller :=
  { c with command := 0x2C, words := 0, column := column, page := page }

theorem landscape_cursor {lcddev : LcdDev} (h : Landscape lcddev) (c : Controller) (x y : BitVec 16) :
    c.run (lcdSetCursor lcddev x y ++ lcdWriteRamPrepare lcddev) = c.at y (lcddev.width - 1 - x) := by
  have hother : ¬ (lcddev.id = 0x9341 ∨ lcddev.id = 0x5310) := by
    rw [h.id]
    decide
  unfold lcdSetCursor lcdWriteRamPrepare
  rw [if_neg hother, if_pos h.id, h.setxcmd, h.setycmd, h.wramcmd]
  simp only [if_pos h.dir]
  rw [run_append, run_append, page_run, column_run]
  rfl

/-- The same controller as the special path of LCD_Fill sets it up. -/
structure Portrait (lcddev : LcdDev) : Prop where
  id : lcddev.id = 0x6804
  dir : lcddev.dir = 0
  wramcmd : lcddev.wramcmd = 0x2C
  setxcmd : lcddev.setxcmd = 0x2A
  setycmd : lcddev.setycmd = 0x2B

theorem portrait_cursor {lcddev : LcdDev} (h : Portrait lcddev) (c : Controller) (x y : BitVec 16) :
    c.run (lcdSetCursor lcddev x y ++ lcdWriteRamPrepare lcddev) = c.at x y := by
  have hother : ¬ (lcddev.id = 0x9341 ∨ lcddev.id = 0x5310) := by
    rw [h.id]
    decide
  have hdir : ¬ lcddev.dir = 1 := by
    rw [h.dir]
    decide
  unfold lcdSetCursor lcdWriteRamPrepare
  rw [if_neg hother, if_pos h.id, h.setxcmd, h.setycmd, h.wramcmd]
  simp only [if_neg hdir]
  rw [run_append, run_append, column_run, page_run]
  rfl

/- Data words go to successive columns. -/
theorem write_run (n : ℕ) (c : Controller) (hc : c.command = 0x2C) (color : BitVec 16) :
    (c.run (List.replicate n (.data color))).painted = c.painted ++
      (List.range' c.words n).map fun j => ((c.column + BitVec.ofNat 16 j, c.page), color) := by
  induction n generalizing c with
  | zero => exact (List.append_nil c.painted).symm
  | succ n ih =>
    have hstep : c.step (.data color) = { c with
        words := c.words + 1,
        painted := c.painted ++ [((c.column + BitVec.ofNat 16 c.words, c.page), color)] } := by
      unfold Controller.step
      simp only [hc]
      rfl
    show ((c.step (.data color)).run (List.replicate n (.data color))).painted = _
    have hcommand : (c.step (.data color)).command = 0x2C := by
      rw [hstep]
      exact hc
    rw [ih _ hcommand, hstep, List.append_assoc]
    rfl

/-! ### One point and one row -/

/-- The cell that LCD_DrawPoint writes, whatever the controller did before. -/
def Addresses (lcddev : LcdDev) (x y : BitVec 16) (cell : BitVec 16 × BitVec 16) : Prop :=
  ∀ (c : Controller) color, (c.run (lcdDrawPoint lcddev color x y)).painted = c.painted ++ [(cell, color)]

theorem landscape_addresses {lcddev : LcdDev} (h : Landscape lcddev) (x y : BitVec 16) (cell : BitVec 16 × BitVec 16) :
    Addresses lcddev x y cell ↔ cell = (y, lcddev.width - 1 - x) := by
  have hpoint (c : Controller) (color : BitVec 16) :
      (c.run (lcdDrawPoint lcddev color x y)).painted = c.painted ++ [((y, lcddev.width - 1 - x), color)] := by
    unfold lcdDrawPoint
    rw [run_append, landscape_cursor h]
    have hwrite := write_run 1 (c.at y (lcddev.width - 1 - x)) rfl color
    refine hwrite.trans ?_
    show c.painted ++ [((y + 0#16, lcddev.width - 1 - x), color)] = _
    rw [BitVec.add_zero]
  constructor
  · intro haddr
    have heq := (haddr ⟨0, 0, 0, 0, []⟩ 0).symm.trans (hpoint ⟨0, 0, 0, 0, []⟩ 0)
    cases heq
    rfl
  · rintro rfl c color
    exact hpoint c color

def rowOps (lcddev : LcdDev) (sx xlen color i : BitVec 16) : List BusOp :=
  lcdSetCursor lcddev sx i ++ lcdWriteRamPrepare lcddev ++ List.replicate xlen.toNat (.data color)

theorem row_run {lcddev : LcdDev} (h : Portrait lcddev) (c : Controller) (sx xlen color i : BitVec 16) :
    (c.run (rowOps lcddev sx xlen color i)).painted = c.painted ++
      (List.range xlen.toNat).map fun j => ((sx + BitVec.ofNat 16 j, i), color) := by
  unfold rowOps
  rw [run_append, portrait_cursor h, List.range_eq_range']
  exact write_run xlen.toNat (c.at sx i) rfl color

theorem fillRows_run (lcddev : LcdDev) (sx ey xlen color : BitVec 16) (hey : ey ≠ 0xffff) (n fuel : ℕ)
    (i : BitVec 16) (hn : i.toNat + n = ey.toNat + 1) (hfuel : n < fuel) :
    fillRows lcddev sx ey xlen color fuel i =
      some ((List.range n).flatMap fun k => rowOps lcddev sx xlen color (i + BitVec.ofNat 16 k)) := by
  induction n generalizing i fuel with
  | zero =>
    obtain ⟨fuel, rfl⟩ := Nat.exists_eq_succ_of_ne_zero (Nat.ne_of_gt hfuel)
    have hend : ¬ i ≤ ey := by
      rw [BitVec.le_def]
      omega
    unfold fillRows
    rw [if_neg hend]
    rfl
  | succ n ih =>
    obtain ⟨fuel, rfl⟩ := Nat.exists_eq_succ_of_ne_zero (Nat.ne_of_gt (Nat.lt_of_le_of_lt (Nat.zero_le _) hfuel))
    have hgo : i ≤ ey := by
      rw [BitVec.le_def]
      omega
    have hmax : ey.toNat ≠ 0xffff := fun heq => hey (BitVec.eq_of_toNat_eq heq)
    have hlt := ey.isLt
    have hone : BitVec.toNat (1 : BitVec 16) = 1 := rfl
    have hnext : (i + 1).toNat = i.toNat + 1 := by
      rw [BitVec.toNat_add, hone]
      omega
    unfold fillRows
    rw [if_pos hgo, ih fuel (i + 1) (by omega) (by omega)]
    have hshift (k : ℕ) : i + 1 + BitVec.ofNat 16 k = i + BitVec.ofNat 16 (k + 1) := by
      rw [Nat.add_comm, BitVec.ofNat_add, BitVec.add_assoc]
      rfl
    rw [List.range_succ_eq_map, List.flatMap_cons, List.flatMap_map]
    simp only [hshift]
    rw [BitVec.add_zero]
    rfl

theorem rows_run {lcddev : LcdDev} (h : Portrait lcddev) (sx xlen color i : BitVec 16) (ks : List ℕ) (c : Controller) :
    (c.run (ks.flatMap fun k => rowOps lcddev sx xlen color (i + BitVec.ofNat 16 k))).painted = c.painted ++
      ks.flatMap fun k => (List.range xlen.toNat).map fun j =>
        ((sx + BitVec.ofNat 16 j, i + BitVec.ofNat 16 k), color) := by
  induction ks generalizing c with
  | nil => exact (List.append_nil c.painted).symm
  | cons k ks ih =>
    rw [List.flatMap_cons, run_append, ih, row_run h, List.append_assoc]
    rfl

/-! ### The rectangle -/

/- The cells of the portrait rectangle, row by row. -/
def cells (sx sy : BitVec 16) (n m : ℕ) : List (BitVec 16 × BitVec 16) :=
  (List.range n).flatMap fun k => (List.range m).map fun j => (sx + BitVec.ofNat 16 j, sy + BitVec.ofNat 16 k)

theorem offset_inj {s : BitVec 16} {m j k : ℕ} (hm : s.toNat + m ≤ 65536) (hj : j < m) (hk : k < m)
    (h : s + BitVec.ofNat 16 j = s + BitVec.ofNat 16 k) : j = k := by
  have hnat := congrArg BitVec.toNat h
  rw [BitVec.toNat_add, BitVec.toNat_add, BitVec.toNat_ofNat, BitVec.toNat_ofNat] at hnat
  omega

theorem cells_nodup {sx sy : BitVec 16} {n m : ℕ} (hm : sx.toNat + m ≤ 65536) (hn : sy.toNat + n ≤ 65536) :
    (cells sx sy n m).Nodup := by
  have hpairs : ((List.range n).product (List.range m)).Nodup := List.nodup_range.product List.nodup_range
  have hcells : cells sx sy n m = ((List.range n).product (List.range m)).map fun p =>
      (sx + BitVec.ofNat 16 p.2, sy + BitVec.ofNat 16 p.1) := by
    show _ = List.map _ ((List.range n).flatMap fun k => (List.range m).map (Prod.mk k))
    rw [List.map_flatMap]
    simp only [List.map_map]
    rfl
  rw [hcells]
  apply hpairs.map_on
  rintro ⟨k, j⟩ hp ⟨k', j'⟩ hp' heq
  obtain ⟨hk, hj⟩ := List.mem_product.mp hp
  obtain ⟨hk', hj'⟩ := List.mem_product.mp hp'
  rw [List.mem_range] at hk hj hk' hj'
  obtain ⟨hcol, hpage⟩ := Prod.mk.inj heq
  rw [offset_inj hm hj hj' hcol, offset_inj hn hk hk' hpage]

theorem mem_cells {sx sy : BitVec 16} {n m : ℕ} (hm : sx.toNat + m ≤ 65536) (hn : sy.toNat + n ≤ 65536)
    (col page : BitVec 16) : (col, page) ∈ cells sx sy n m ↔
      (sx.toNat ≤ col.toNat ∧ col.toNat < sx.toNat + m) ∧ sy.toNat ≤ page.toNat ∧ page.toNat < sy.toNat + n := by
  have hoffset {s v : BitVec 16} {l : ℕ} (hl : s.toNat + l ≤ 65536) :
      (∃ j < l, s + BitVec.ofNat 16 j = v) ↔ s.toNat ≤ v.toNat ∧ v.toNat < s.toNat + l := by
    constructor
    · rintro ⟨j, hj, rfl⟩
      rw [BitVec.toNat_add, BitVec.toNat_ofNat]
      omega
    · rintro ⟨hlow, hhigh⟩
      refine ⟨v.toNat - s.toNat, by omega, ?_⟩
      apply BitVec.eq_of_toNat_eq
      rw [BitVec.toNat_add, BitVec.toNat_ofNat]
      omega
  rw [← hoffset hm, ← hoffset hn]
  unfold cells
  simp only [List.mem_flatMap, List.mem_map, List.mem_range, Prod.mk.injEq]
  constructor
  · rintro ⟨k, hk, j, hj, hcol, hpage⟩
    exact ⟨⟨j, hj, hcol⟩, k, hk, hpage⟩
  · rintro ⟨⟨j, hj, hcol⟩, k, hk, hpage⟩
    exact ⟨k, hk, j, hj, hcol, hpage⟩

/-- What filling a rectangle has painted, and what it leaves of `lcddev`. -/
structure Filled (lcddev : LcdDev) (sx sy ex ey color : BitVec 16) (dev : LcdDev) (ops : List BusOp) : Prop where
  restored : dev = lcddev
  addressed : ∀ x y, sx ≤ x → x ≤ ex → sy ≤ y → y ≤ ey → ∃ cell, Addresses lcddev x y cell
  painted : ∀ c : Controller, ∃ cs : List (BitVec 16 × BitVec 16), (c.run ops).painted = c.painted ++ cs.map (fun cell => (cell, color)) ∧
    cs.Nodup ∧ ∀ cell, cell ∈ cs ↔
      ∃ x y, sx ≤ x ∧ x ≤ ex ∧ sy ≤ y ∧ y ≤ ey ∧ Addresses lcddev x y cell

/- The device state during the special path. -/
def asPortrait (lcddev : LcdDev) : LcdDev := { lcddev with dir := 0, setxcmd := 0x2A, setycmd := 0x2B }

theorem asPortrait_portrait {lcddev : LcdDev} (h : Landscape lcddev) : Portrait (asPortrait lcddev) :=
  ⟨h.id, rfl, h.wramcmd, rfl, rfl⟩

theorem lcdFill_special {lcddev : LcdDev} (h : Landscape lcddev) (fuel : ℕ) (sx sy ex ey color : BitVec 16)
    {ops : List BusOp} (hrows : fillRows (asPortrait lcddev) sy (lcddev.width - sx - 1) (ey - sy + 1) color fuel
      (lcddev.width - ex - 1) = some ops) : lcdFill fuel lcddev sx sy ex ey color = some (lcddev, ops) := by
  have hspecial : lcddev.id = 0x6804 ∧ lcddev.dir = 1 := ⟨h.id, h.dir⟩
  have hplain : ¬ ((asPortrait lcddev).id = 0x6804 ∧ (asPortrait lcddev).dir = 1) :=
    fun hp => absurd (show (0 : BitVec 8) = 1 from hp.2) (by decide)
  have hinner : lcdFill fuel (asPortrait lcddev) sy (lcddev.width - ex - 1) ey (lcddev.width - sx - 1) color =
      some (asPortrait lcddev, ops) := by
    rw [lcdFill, dif_neg hplain, hrows]
    rfl
  have hback : { asPortrait lcddev with dir := 1, setxcmd := 0x2B, setycmd := 0x2A } = lcddev := by
    rw [← h.dir, ← h.setxcmd, ← h.setycmd]
    rfl
  rw [lcdFill, dif_pos hspecial]
  show (lcdFill fuel (asPortrait lcddev) sy (lcddev.width - ex - 1) ey (lcddev.width - sx - 1) color >>= fun r =>
    some ({ r.1 with dir := 1, setxcmd := 0x2B, setycmd := 0x2A }, r.2)) = _
  rw [hinner]
  show some ({ asPortrait lcddev with dir := 1, setxcmd := 0x2B, setycmd := 0x2A }, ops) = _
  rw [hback]

theorem rows_painted {lcddev : LcdDev} (h : Portrait lcddev) (sx xlen color i : BitVec 16) (n : ℕ) (c : Controller) :
    (c.run ((List.range n).flatMap fun k => rowOps lcddev sx xlen color (i + BitVec.ofNat 16 k))).painted =
      c.painted ++ (cells sx i n xlen.toNat).map fun cell => (cell, color) := by
  rw [rows_run h]
  unfold cells
  rw [List.map_flatMap]
  simp only [List.map_map]
  rfl

/-- LCD_Fill and LCD_DrawPoint agree on the cells of a rectangle. -/
theorem lcdFill_landscape (lcddev : LcdDev) (hdev : Landscape lcddev) (sx sy ex ey color : BitVec 16)
    (hx : sx ≤ ex) (hw : ex < lcddev.width) (hy : sy ≤ ey) (hh : ey < lcddev.height) :
    ∃ dev ops, (∀ fuel ≥ 65536, lcdFill fuel lcddev sx sy ex ey color = some (dev, ops)) ∧
      Filled lcddev sx sy ex ey color dev ops := by
  rw [BitVec.le_def] at hx hy
  rw [BitVec.lt_def] at hw hh
  have hwidth := lcddev.width.isLt
  have hheight := lcddev.height.isLt
  have hone : BitVec.toNat (1 : BitVec 16) = 1 := rfl
  have hfirst : (lcddev.width - ex - 1).toNat = lcddev.width.toNat - 1 - ex.toNat := by
    rw [BitVec.toNat_sub, BitVec.toNat_sub, hone]
    omega
  have hlast : (lcddev.width - sx - 1).toNat = lcddev.width.toNat - 1 - sx.toNat := by
    rw [BitVec.toNat_sub, BitVec.toNat_sub, hone]
    omega
  have hlen : (ey - sy + 1).toNat = ey.toNat - sy.toNat + 1 := by
    rw [BitVec.toNat_add, BitVec.toNat_sub, hone]
    omega
  have hend : lcddev.width - sx - 1 ≠ 0xffff := by
    intro heq
    have hnat : (lcddev.width - sx - 1).toNat = 0xffff := congrArg BitVec.toNat heq
    omega
  have hm : sy.toNat + (ey - sy + 1).toNat ≤ 65536 := by omega
  have hn : (lcddev.width - ex - 1).toNat + (ex.toNat - sx.toNat + 1) ≤ 65536 := by omega
  have haddressed (x y : BitVec 16) (_ : sx ≤ x) (_ : x ≤ ex) (_ : sy ≤ y) (_ : y ≤ ey) :
      ∃ cell, Addresses lcddev x y cell := ⟨_, (landscape_addresses hdev x y _).mpr rfl⟩
  refine ⟨lcddev, _, fun fuel hfuel => ?_, rfl, haddressed, fun c => ⟨_, rows_painted (asPortrait_portrait hdev) sy
    (ey - sy + 1) color (lcddev.width - ex - 1) (ex.toNat - sx.toNat + 1) c, cells_nodup hm hn, ?_⟩⟩
  · apply lcdFill_special hdev
    exact fillRows_run _ _ _ _ _ hend _ _ _ (by omega) (by omega)
  · rintro ⟨col, page⟩
    rw [mem_cells hm hn]
    constructor
    · rintro ⟨⟨hcol, hcol'⟩, hpage, hpage'⟩
      have hmirror : (lcddev.width - 1 - page).toNat = lcddev.width.toNat - 1 - page.toNat := by
        rw [BitVec.toNat_sub, BitVec.toNat_sub, hone]
        omega
      refine ⟨lcddev.width - 1 - page, col, ?_, ?_, ?_, ?_, ?_⟩
      · rw [BitVec.le_def]
        omega
      · rw [BitVec.le_def]
        omega
      · rw [BitVec.le_def]
        omega
      · rw [BitVec.le_def]
        omega
      · have hself : page = lcddev.width - 1 - (lcddev.width - 1 - page) := by
          apply BitVec.eq_of_toNat_eq
          rw [BitVec.toNat_sub, hmirror, BitVec.toNat_sub, hone]
          omega
        rw [landscape_addresses hdev, ← hself]
    · rintro ⟨x, y, hx1, hx2, hy1, hy2, haddr⟩
      rw [landscape_addresses hdev] at haddr
      obtain ⟨rfl, rfl⟩ := Prod.mk.inj haddr
      rw [BitVec.le_def] at hx1 hx2 hy1 hy2
      have hmirror : (lcddev.width - 1 - x).toNat = lcddev.width.toNat - 1 - x.toNat := by
        rw [BitVec.toNat_sub, BitVec.toNat_sub, hone]
        omega
      omega

/- A rectangle on the panel as LCD_Display_Dir sets it up. -/
theorem lcdFill_landscape_panel : ∃ dev ops,
    (∀ fuel ≥ 65536, lcdFill fuel ⟨320, 480, 0x6804, 1, 0x2C, 0x2B, 0x2A⟩ 10 20 11 22 0xf800 = some (dev, ops)) ∧
      Filled ⟨320, 480, 0x6804, 1, 0x2C, 0x2B, 0x2A⟩ 10 20 11 22 0xf800 dev ops :=
  lcdFill_landscape ⟨320, 480, 0x6804, 1, 0x2C, 0x2B, 0x2A⟩ ⟨rfl, rfl, rfl, rfl, rfl⟩ 10 20 11 22 0xf800
    (by decide) (by decide) (by decide) (by decide)

end MultiEmbedded.Lcd
