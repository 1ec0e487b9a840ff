import MultiEmbedded.Lib.Retry
import MultiEmbedded.Sd.Capacity

/-!
# Initialize_SD

The routine is written over a `Board`: whatever carries out the pin and SPI
functions and `SendCmd`. Two boards matter. One is the driver of this project on
a stream of bytes; the other answers every command as a function of the commands
before it. The theorem is about every board.
-/

namespace MultiEmbedded.Sd

structure Board (σ : Type) where
  pinInit : StateM σ Unit
  spi1Init : StateM σ Unit
  sdDisSel : StateM σ Unit
  spi1SetSpeed : Byte → StateM σ Unit
  spi1ReadWriteByte : Byte → StateM σ Byte
  sendCmd : Byte → Word → Byte → StateM σ Byte

/-- The board's state and the driver's variable. -/
structure Setup (σ : Type) where
  board : σ
  SD_Type : Byte

section
variable {σ : Type} (b : Board σ)

def onBoard {α : Type} (x : StateM σ α) : StateM (Setup σ) α := fun s =>
  ((x s.board).1, { s with board := (x s.board).2 })

/-- `n` bytes clocked, their values dropped. -/
def clocks : ℕ → StateM σ Unit
  | 0 => pure ()
  | n + 1 => do
    let _ ← b.spi1ReadWriteByte 0xff
    clocks n

/-- One pass of the `CMD55`, `CMD41` loop. -/
def appOpCond : StateM σ Byte := do
  let _ ← b.sendCmd CMD55 0 0x01
  b.sendCmd CMD41 0x40000000 0x01

/-- `while((err != 0xff ) && cnt--)` goes on until an answer is `0xff`. -/
def resetLoop : StateM σ Byte := Retry.loop (b.sendCmd CMD0 0 0x95) (fun err => err == 0xff) 200

/-- `while(err && retry--)`. -/
def opCondLoop : StateM σ Byte := Retry.loop (appOpCond b) (fun err => err == 0) 200

/-- The branch of `Initialize_SD` for an idle card. -/
def identify : StateM (Setup σ) Byte := do
  let err ← onBoard (b.sendCmd CMD8 0x1AA 0x87)
  if err ≠ 0x01 then return err
  onBoard (clocks b 4)
  let err ← onBoard (opCondLoop b)
  if err ≠ 0 then return err
  let err ← onBoard (b.sendCmd CMD58 0 0x01)
  if err ≠ 0 then return err
  let ocr ← onBoard (b.spi1ReadWriteByte 0xff)
  onBoard (clocks b 3)
  modify fun s => { s with SD_Type := if ocr &&& 0x40 ≠ 0 then SD_TYPE_V2HC else SD_TYPE_V2 }
  return err

def initializeSD : StateM (Setup σ) Byte := do
  onBoard b.pinInit
  onBoard b.spi1Init
  onBoard b.sdDisSel
  onBoard (b.spi1SetSpeed SPI_SPEED_256)
  onBoard (clocks b 10)
  let err ← onBoard (resetLoop b)
  let err ← if err = 0x01 then identify b else pure err
  onBoard b.sdDisSel
  onBoard (clocks b 1)
  onBoard (b.spi1SetSpeed SPI_SPEED_2)
  return err

/-! ### The card's answers along the routine -/

def prepared (s : σ) : σ :=
  (clocks b 10 (b.spi1SetSpeed SPI_SPEED_256 (b.sdDisSel (b.spi1Init (b.pinInit s).2).2).2).2).2

/-- Answer to the `CMD0` sent after `k` others. -/
def resetAnswer (k : ℕ) (s : σ) : Byte := Retry.answer (b.sendCmd CMD0 0 0x95) k (prepared b s)

/-- How often `Initialize_SD` sends `CMD0`. -/
def attempts (s : σ) : ℕ :=
  Retry.last (b.sendCmd CMD0 0 0x95) (fun err => err == 0xff) 200 (prepared b s) + 1

def ifCond (s : σ) : Byte × σ :=
  b.sendCmd CMD8 0x1AA 0x87 (Retry.after (b.sendCmd CMD0 0 0x95) (attempts b s) (prepared b s))

def opCondAnswer (k : ℕ) (s : σ) : Byte :=
  Retry.answer (appOpCond b) k (clocks b 4 (ifCond b s).2).2

def readOcr (s : σ) : Byte × σ :=
  b.sendCmd CMD58 0 0x01 (opCondLoop b (clocks b 4 (ifCond b s).2).2).2

def ocr (s : σ) : Byte := (b.spi1ReadWriteByte 0xff (readOcr b s).2).1

/-- The type that bit 30 of the OCR stands for. -/
def cardType (s : σ) : Byte := if ocr b s &&& 0x40 ≠ 0 then SD_TYPE_V2HC else SD_TYPE_V2

/- The answers a successful initialisation requires, with `m` attempts of `CMD0` counted. -/
structure Accepted (m : ℕ) (s : σ) : Prop where
  idle : ∃ k, k < m ∧ resetAnswer b k s = 0x01
  ifCond : (ifCond b s).1 = 0x01
  opCond : ∃ k, k ≤ 200 ∧ opCondAnswer b k s = 0
  ocr : (readOcr b s).1 = 0

/- The promise of `Initialize_SD` to its callers. -/
structure InitContract (m : ℕ) (s : Setup σ) : Prop where
  verdict : (initializeSD b s).1 = 0 ↔ Accepted b m s.board
  type : (initializeSD b s).1 = 0 → (initializeSD b s).2.SD_Type = cardType b s.board
  stale : (initializeSD b s).1 ≠ 0 →
    ¬ ((initializeSD b s).2.SD_Type = s.SD_Type ∧ s.SD_Type ≠ SD_TYPE_ERR)

/- When it is kept: by the answer to the last `CMD0`. -/
def InitHolds (m : ℕ) (s : Setup σ) : Prop :=
  if resetAnswer b (attempts b s.board - 1) s.board = 0x01 then
    (ifCond b s.board).1 ≠ 0 ∧ (Accepted b m s.board ∨ s.SD_Type = SD_TYPE_ERR)
  else if resetAnswer b (attempts b s.board - 1) s.board = 0 then
    Accepted b m s.board ∧ s.SD_Type = cardType b s.board
  else ¬ Accepted b m s.board ∧ s.SD_Type = SD_TYPE_ERR

/-! ### One run of the routine -/

theorem resetLoop_eq (s : σ) :
    resetLoop b (prepared b s) = (resetAnswer b (attempts b s - 1) s,
      Retry.after (b.sendCmd CMD0 0 0x95) (attempts b s) (prepared b s)) :=
  Retry.loop_eq _ _ _ _

theorem opCondLoop_zero (s : σ) :
    (opCondLoop b (clocks b 4 (ifCond b s).2).2).1 = 0 ↔ ∃ k, k ≤ 200 ∧ opCondAnswer b k s = 0 := by
  have h := Retry.loop_stop_iff (appOpCond b) (fun err => err == 0) 200
    (clocks b 4 (ifCond b s).2).2
  simp only [beq_iff_eq] at h
  exact h

/- What the idle branch returns and leaves in `SD_Type`, from the state behind the resets. -/
def identified (s : σ) (t : Byte) : Byte × Byte :=
  if (ifCond b s).1 ≠ 0x01 then ((ifCond b s).1, t)
  else if (opCondLoop b (clocks b 4 (ifCond b s).2).2).1 ≠ 0 then
    ((opCondLoop b (clocks b 4 (ifCond b s).2).2).1, t)
  else if (readOcr b s).1 ≠ 0 then ((readOcr b s).1, t)
  else (0, cardType b s)

theorem bind_setup {α β : Type} (x : StateM σ α) (f : α → StateM (Setup σ) β) (s : Setup σ) :
    (onBoard x >>= f) s = f (x s.board).1 { s with board := (x s.board).2 } := rfl

theorem ite_setup {α : Type} (p : Prop) [Decidable p] (x y : StateM (Setup σ) α) (s : Setup σ) :
    (if p then x else y) s = if p then x s else y s := by
  split <;> rfl

theorem identify_run (s : σ) (t : Byte) {s1 : σ}
    (hs : s1 = Retry.after (b.sendCmd CMD0 0 0x95) (attempts b s) (prepared b s)) :
    ((identify b ⟨s1, t⟩).1, (identify b ⟨s1, t⟩).2.SD_Type) = identified b s t := by
  have h8 : b.sendCmd CMD8 0x1AA 0x87 s1 = ifCond b s := by rw [hs]; rfl
  unfold identify identified
  simp only [bind_setup, ite_setup, h8]
  by_cases hif : (ifCond b s).1 ≠ 0x01
  · rw [if_pos hif, if_pos hif]
    rfl
  rw [if_neg hif, if_neg hif]
  by_cases hop : (opCondLoop b (clocks b 4 (ifCond b s).2).2).1 ≠ 0
  · rw [if_pos hop, if_pos hop]
    rfl
  rw [if_neg hop, if_neg hop]
  have h58 : b.sendCmd CMD58 0 0x01 (opCondLoop b (clocks b 4 (ifCond b s).2).2).2 = readOcr b s :=
    rfl
  simp only [h58]
  by_cases hocr : (readOcr b s).1 ≠ 0
  · rw [if_pos hocr, if_pos hocr]
    rfl
  rw [if_neg hocr, if_neg hocr]
  exact Prod.ext (not_not.mp hocr) rfl

theorem initializeSD_run (s : Setup σ) :
    ((initializeSD b s).1, (initializeSD b s).2.SD_Type) =
      if resetAnswer b (attempts b s.board - 1) s.board = 0x01 then
        identified b s.board s.SD_Type
      else (resetAnswer b (attempts b s.board - 1) s.board, s.SD_Type) := by
  have hprep : initializeSD b s = (do
      let err ← onBoard (resetLoop b)
      let err ← if err = 0x01 then identify b else pure err
      onBoard b.sdDisSel
      onBoard (clocks b 1)
      onBoard (b.spi1SetSpeed SPI_SPEED_2)
      return err : StateM (Setup σ) Byte) ⟨prepared b s.board, s.SD_Type⟩ := rfl
  rw [hprep, bind_setup, resetLoop_eq]
  by_cases h1 : resetAnswer b (attempts b s.board - 1) s.board = 0x01
  · simp only [h1, if_true]
    exact identify_run b s.board s.SD_Type rfl
  · simp only [h1, if_false]
    rfl

/-! ### When the promise is kept -/

/- `CMD8` and what follows it went as required. -/
def Identified (s : σ) : Prop :=
  (ifCond b s).1 = 0x01 ∧ (∃ k, k ≤ 200 ∧ opCondAnswer b k s = 0) ∧ (readOcr b s).1 = 0

theorem accepted_iff (m : ℕ) (s : σ) :
    Accepted b m s ↔ (∃ k, k < m ∧ resetAnswer b k s = 0x01) ∧ Identified b s :=
  ⟨fun h => ⟨h.idle, h.ifCond, h.opCond, h.ocr⟩, fun h => ⟨h.1, h.2.1, h.2.2.1, h.2.2.2⟩⟩

theorem identified_accepted (s : σ) (t : Byte) (h : Identified b s) :
    identified b s t = (0, cardType b s) := by
  obtain ⟨h8, h41, h58⟩ := h
  unfold identified
  rw [if_neg (not_not.mpr h8), if_neg (not_not.mpr ((opCondLoop_zero b s).mpr h41)),
    if_neg (not_not.mpr h58)]

theorem identified_refused (s : σ) (t : Byte) (h : ¬ Identified b s) (h0 : (ifCond b s).1 ≠ 0) :
    (identified b s t).1 ≠ 0 ∧ (identified b s t).2 = t := by
  unfold identified
  by_cases h8 : (ifCond b s).1 ≠ 0x01
  · rw [if_pos h8]
    exact ⟨h0, rfl⟩
  rw [if_neg h8]
  by_cases h41 : (opCondLoop b (clocks b 4 (ifCond b s).2).2).1 ≠ 0
  · rw [if_pos h41]
    exact ⟨h41, rfl⟩
  rw [if_neg h41]
  by_cases h58 : (readOcr b s).1 ≠ 0
  · rw [if_pos h58]
    exact ⟨h58, rfl⟩
  exact absurd ⟨not_not.mp h8, (opCondLoop_zero b s).mp (not_not.mp h41), not_not.mp h58⟩ h

theorem identified_zero (s : σ) (t : Byte) (h : (ifCond b s).1 = 0) :
    identified b s t = (0, t) := by
  have h8 : (ifCond b s).1 ≠ 0x01 := by
    rw [h]
    decide
  unfold identified
  rw [if_pos h8, h]

/- The contract in terms of the value returned and the type left. -/
theorem initContract_of_run (m : ℕ) (s : Setup σ) {r t : Byte}
    (h : ((initializeSD b s).1, (initializeSD b s).2.SD_Type) = (r, t)) :
    InitContract b m s ↔ (r = 0 ↔ Accepted b m s.board) ∧ (r = 0 → t = cardType b s.board) ∧
      (r ≠ 0 → ¬ (t = s.SD_Type ∧ s.SD_Type ≠ SD_TYPE_ERR)) := by
  obtain ⟨hr, ht⟩ := Prod.mk.inj h
  rw [← hr, ← ht]
  exact ⟨fun hc => ⟨hc.verdict, hc.type, hc.stale⟩, fun hc => ⟨hc.1, hc.2.1, hc.2.2⟩⟩

theorem initializeSD_contract_iff (m : ℕ) (s : Setup σ)
    (hm : attempts b s.board ≤ m ∧ m ≤ 201) : InitContract b m s ↔ InitHolds b m s := by
  have hrun := initializeSD_run b s
  have hatt : 0 < attempts b s.board := Nat.succ_pos _
  unfold InitHolds
  by_cases h1 : resetAnswer b (attempts b s.board - 1) s.board = 0x01
  · rw [if_pos h1] at hrun ⊢
    have hidle : ∃ k, k < m ∧ resetAnswer b k s.board = 0x01 :=
      ⟨attempts b s.board - 1, by omega, h1⟩
    by_cases hid : Identified b s.board
    · have hacc : Accepted b m s.board := (accepted_iff b m s.board).mpr ⟨hidle, hid⟩
      have hne : (ifCond b s.board).1 ≠ 0 := by
        rw [hid.1]
        decide
      rw [identified_accepted b s.board s.SD_Type hid] at hrun
      rw [initContract_of_run b m s hrun]
      exact iff_of_true ⟨iff_of_true rfl hacc, fun _ => rfl, fun h => absurd rfl h⟩
        ⟨hne, Or.inl hacc⟩
    · have hacc : ¬ Accepted b m s.board := fun h => hid ((accepted_iff b m s.board).mp h).2
      by_cases h0 : (ifCond b s.board).1 = 0
      · rw [identified_zero b s.board s.SD_Type h0] at hrun
        rw [initContract_of_run b m s hrun]
        exact iff_of_false (fun h => hacc (h.1.mp rfl)) fun h => h.1 h0
      · obtain ⟨hr, ht⟩ := identified_refused b s.board s.SD_Type hid h0
        have hp : identified b s.board s.SD_Type = ((identified b s.board s.SD_Type).1, s.SD_Type) :=
          Prod.ext rfl ht
        rw [hp] at hrun
        rw [initContract_of_run b m s hrun]
        simp only [hr, hacc, h0, ne_eq, not_false_eq_true, true_and, false_or, iff_self,
          false_implies, forall_const, not_not]
  · rw [if_neg h1] at hrun
    rw [if_neg h1, initContract_of_run b m s hrun]
    by_cases h0 : resetAnswer b (attempts b s.board - 1) s.board = 0
    · rw [if_pos h0, h0]
      simp only [true_iff, forall_const, ne_eq, not_true_eq_false, false_implies, and_true]
    · rw [if_neg h0]
      simp only [h0, false_iff, false_implies, ne_eq, not_false_eq_true, forall_const, true_and,
        not_not]

end

/-! ### Cards as functions of the commands sent -/

structure Cmd where
  cmd : Byte
  arg : Word
  crc : Byte

/- `response` answers the last command of a history; `data` are the bytes clocked after it. -/
structure HistoryCard where
  response : List Cmd → Byte
  data : List Cmd → ℕ → Byte

def HistoryCard.board (h : HistoryCard) : Board (List Cmd × ℕ) where
  pinInit := pure ()
  spi1Init := pure ()
  sdDisSel := pure ()
  spi1SetSpeed _ := pure ()
  spi1ReadWriteByte _ := fun s => (h.data s.1 s.2, (s.1, s.2 + 1))
  sendCmd cmd arg crc := fun s =>
    (h.response (s.1 ++ [⟨cmd, arg, crc⟩]), (s.1 ++ [⟨cmd, arg, crc⟩], 0))

/- No card in the slot: every byte is `0xff`. -/
def absentCard : HistoryCard := ⟨fun _ => 0xff, fun _ _ => 0xff⟩

theorem initializeSD_contract_iff_absent :
    (attempts absentCard.board ([], 0) ≤ 1 ∧ 1 ≤ 201) ∧
      (InitContract absentCard.board 1 ⟨([], 0), SD_TYPE_V2HC⟩ ↔
        InitHolds absentCard.board 1 ⟨([], 0), SD_TYPE_V2HC⟩) :=
  ⟨by decide, initializeSD_contract_iff absentCard.board 1 ⟨([], 0), SD_TYPE_V2HC⟩ (by decide)⟩

/- The card was taken out after use: the failed run leaves `SD_TYPE_V2HC` behind. -/
theorem initializeSD_absentCard :
    ¬ ∃ m, InitContract absentCard.board m ⟨([], 0), SD_TYPE_V2HC⟩ := by
  rintro ⟨m, h⟩
  exact h.stale (by decide) ⟨rfl, by decide⟩

/-! ### The driver as a board -/

def pinInit : Run Unit := setCS true

def spi1Init (c : Card) : Run Unit := do
  modify fun s => { s with CR1 := s.CR1 ||| 1 <<< 9 ||| 1 <<< 8 ||| 1 <<< 2 ||| 1 <<< 1 |||
    1 <<< 0 ||| 7 <<< 3 ||| 1 <<< 6 }
  let _ ← spi1ReadWriteByte c 0xff

def driver (c : Card) : Board State where
  pinInit := pinInit
  spi1Init := spi1Init c
  sdDisSel := sdDisSel c
  spi1SetSpeed := spi1SetSpeed
  spi1ReadWriteByte := spi1ReadWriteByte c
  sendCmd := sendCmd c

/-- `Initialize_SD` on the driver's own state. -/
def cardInitialize (c : Card) : Run Byte := fun s =>
  let out := initializeSD (driver c) ⟨s, s.SD_Type⟩
  (out.1, { out.2.board with SD_Type := out.2.SD_Type })

def STA_NOINIT : Byte := 0x01

def diskInitialize (c : Card) (pdrv : Byte) : Run Byte := do
  let res ←
    if pdrv = SD_CARD then do
      let res ← cardInitialize c
      if res ≠ 0 then
        spi1SetSpeed SPI_SPEED_256
        let _ ← spi1ReadWriteByte c 0xff
        spi1SetSpeed SPI_SPEED_2
      pure res
    else if pdrv = EX_FLASH then pure 0
    else pure 1
  return if res ≠ 0 then STA_NOINIT else 0

theorem cardInitialize_fst (c : Card) (s : State) :
    (cardInitialize c s).1 = (initializeSD (driver c) ⟨s, s.SD_Type⟩).1 := by
  simp only [cardInitialize]

theorem diskInitialize_of_zero (c : Card) {s s' : State} (h : cardInitialize c s = (0, s')) :
    diskInitialize c SD_CARD s = (0, s') := by
  unfold diskInitialize
  rw [if_pos rfl, bind_of h]
  rfl

/-- FatFs takes the drive for usable on a last `CMD0` answered 0, whatever the card is. -/
theorem diskInitialize_ready (c : Card) (s : State)
    (h : resetAnswer (driver c) (attempts (driver c) s - 1) s = 0) :
    (diskInitialize c SD_CARD s).1 = 0 := by
  have hne : ¬ (resetAnswer (driver c) (attempts (driver c) s - 1) s = 0x01) := by
    rw [h]
    decide
  have hrun := initializeSD_run (driver c) ⟨s, s.SD_Type⟩
  rw [if_neg hne] at hrun
  have hfst : (cardInitialize c s).1 = resetAnswer (driver c) (attempts (driver c) s - 1) s := by
    rw [cardInitialize_fst]
    exact (Prod.mk.inj hrun).1
  have hrun0 : cardInitialize c s = (0, (cardInitialize c s).2) := Prod.ext (hfst.trans h) rfl
  exact congrArg Prod.fst (diskInitialize_of_zero c hrun0)

end MultiEmbedded.Sd
