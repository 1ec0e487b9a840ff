import MultiEmbedded.Lib.Search

/-!
# The SD card driver over SPI (board/sd/sd_driv.c, fatfs/src/diskio.c)

The card is seen through the bytes it returns: `miso n` is the byte clocked in
by the `n`-th exchange, whatever the host sent. A card that answers commands is
one such sequence for each run, so a statement about every `miso` covers every
card. `stack k` is the value the uninitialised local of the `k`-th call of
`SD_Waite_Ready` happens to have.
-/

namespace MultiEmbedded.Sd

abbrev Byte := BitVec 8
abbrev Word := BitVec 32

structure Card where
  miso : ℕ → Byte
  stack : ℕ → Word

/-- Driver and bus: the statics, chip select, the speed register, every byte
put on MOSI so far, the caller's memory and the uninitialised reads so far. -/
structure State where
  SD_Type : Byte
  UERR : Byte
  SD_CS : Bool
  CR1 : BitVec 16
  sent : List Byte
  mem : ℕ → Byte
  stackReads : ℕ

abbrev Run := StateM State

/-! ### sd_driv.h, spi.h, diskio.h -/

def SD_TYPE_ERR : Byte := 0x00
def SD_TYPE_MMC : Byte := 0x01
def SD_TYPE_V2 : Byte := 0x04
def SD_TYPE_V2HC : Byte := 0x06

def CMD0 : Byte := 0
def CMD8 : Byte := 8
def CMD9 : Byte := 9
def CMD10 : Byte := 10
def CMD12 : Byte := 12
def CMD17 : Byte := 17
def CMD18 : Byte := 18
def CMD23 : Byte := 23
def CMD24 : Byte := 24
def CMD25 : Byte := 25
def CMD41 : Byte := 41
def CMD55 : Byte := 55
def CMD58 : Byte := 58

def MSD_RESPONSE_NO_ERROR : Byte := 0x00
def MSD_RESPONSE_FAILURE : Byte := 0xff

def SPI_SPEED_2 : Byte := 0
def SPI_SPEED_256 : Byte := 7

inductive DResult where
  | RES_OK | RES_ERROR | RES_WRPRT | RES_NOTRDY | RES_PARERR
  deriving DecidableEq, Repr

def SD_CARD : Byte := 0
def EX_FLASH : Byte := 1

/-! ### spi.c -/

/-- `SPI1_ReadWriteByte`: one byte out, one byte in. -/
def spi1ReadWriteByte (c : Card) (txData : Byte) : Run Byte := fun s =>
  (c.miso s.sent.length, { s with sent := s.sent ++ [txData] })

def spi1SetSpeed (speedSet : Byte) : Run Unit := fun s =>
  let speedSet := speedSet &&& 0x07
  let cr1 := s.CR1 &&& 0xffc7
  let cr1 := cr1 ||| (speedSet.setWidth 16 <<< 3)
  ((), { s with CR1 := cr1 ||| (1 <<< 6) })

/-! ### sd_driv.c -/

/-- Value of a local variable that was never written. -/
def uninitialised (c : Card) : Run Word := fun s =>
  (c.stack s.stackReads, { s with stackReads := s.stackReads + 1 })

/-- The loop of `SD_Waite_Ready`: `i` wraps at 32 bits, so `0x1000000` rounds
are enough from every initial value (`waiteReadyLoop_eq`). -/
def waiteReadyLoop (c : Card) : ℕ → Word → Run Byte
  | 0, _ => pure 0xff
  | fuel + 1, i => do
    let res ← spi1ReadWriteByte c 0xff
    if res = 0xff then return 0
    let i := i + 1
    if i < 0xffffff then waiteReadyLoop c fuel i else return 0xff

def sdWaiteReady (c : Card) : Run Byte := do
  let i ← uninitialised c
  waiteReadyLoop c 0x1000000 i

def setCS (level : Bool) : Run Unit := fun s => ((), { s with SD_CS := level })

def sdDisSel (c : Card) : Run Unit := do
  setCS true
  let r ← spi1ReadWriteByte c 0xff
  modify fun s => { s with UERR := r }

def sdSelect (c : Card) : Run Byte := do
  setCS false
  if (← sdWaiteReady c) = 0 then return 0
  sdDisSel c
  return 1

/-- Bytes sent for their effect alone. -/
def sendBytes (c : Card) : List Byte → Run Unit
  | [] => pure ()
  | b :: bs => do
    let _ ← spi1ReadWriteByte c b
    sendBytes c bs

/-- The response loop of `SendCmd`; the argument is `retry` before the round. -/
def responseLoop (c : Card) : ℕ → Run (Byte × ℕ)
  | 0 => pure (0xff, 0)
  | retry + 1 => do
    let err ← spi1ReadWriteByte c 0xff
    if err = 0xff ∧ retry ≠ 0 then responseLoop c retry else return (err, retry)

/-- The six bytes of a command on the bus. -/
def frame (cmd : Byte) (arg : Word) (crc : Byte) : List Byte :=
  [cmd ||| 0x40, (arg >>> 24).setWidth 8, (arg >>> 16).setWidth 8, (arg >>> 8).setWidth 8,
    arg.setWidth 8, crc]

def sendCmd (c : Card) (cmd : Byte) (arg : Word) (crc : Byte) : Run Byte := do
  sdDisSel c
  if (← sdSelect c) ≠ 0 then return 0xff
  sendBytes c (frame cmd arg crc)
  if cmd = CMD12 then sendBytes c [0xff]
  let (err, retry) ← responseLoop c 0x1f
  return if retry = 0 then 0xff else err

/-- The loop of `GetResponse`; the argument is `count`, the result its final
value (the post-decrement of 0 wraps to `0xffff`). -/
def getResponseLoop (c : Card) (response : Byte) : ℕ → Run ℕ
  | 0 => do
    let res ← spi1ReadWriteByte c 0xff
    return if res = response then 0 else 0xffff
  | count + 1 => do
    let res ← spi1ReadWriteByte c 0xff
    if res = response then return count + 1 else getResponseLoop c response count

def getResponse (c : Card) (response : Byte) : Run Byte := do
  let count ← getResponseLoop c response 0xffff
  return if count = 0 then MSD_RESPONSE_FAILURE else MSD_RESPONSE_NO_ERROR

/-- `while(len--) *buf++ = SPI1_ReadWriteByte(0xff)`. -/
def recvBytes (c : Card) : ℕ → ℕ → Run Unit
  | _, 0 => pure ()
  | buf, len + 1 => do
    let b ← spi1ReadWriteByte c 0xff
    modify fun s => { s with mem := Function.update s.mem buf b }
    recvBytes c (buf + 1) len

def sdRevData (c : Card) (buf len : ℕ) : Run Byte := do
  if (← getResponse c 0xfe) ≠ 0 then return 0xff
  recvBytes c buf len
  sendBytes c [0xff, 0xff]
  return 0

/-- The multi-block loop of `SD_ReadDisk`; `cnt` counts down modulo 256. -/
def readBlocks (c : Card) : ℕ → ℕ → Byte → Run Byte
  | 0, _, _ => pure 0
  | fuel + 1, buf, cnt => do
    let err ← sdRevData c buf 512
    let cnt := cnt - 1
    if cnt ≠ 0 ∧ err = 0 then readBlocks c fuel (buf + 512) cnt else return err

/-- Card address of a sector: bytes, or sectors on a high-capacity card. -/
def address (type : Byte) (sec : Word) : Word :=
  if type ≠ SD_TYPE_V2HC then sec <<< 9 else sec

def sdReadDisk (c : Card) (buf : ℕ) (sec : Word) (cnt : Byte) : Run Byte := do
  let sec := address (← get).SD_Type sec
  let err ←
    if cnt = 1 then do
      let err ← sendCmd c CMD17 sec 0x01
      if err = 0 then sdRevData c buf 512 else pure err
    else do
      -- each assignment to `err` but the last is dropped
      let _err ← sendCmd c CMD18 sec 0x01
      let _err ← readBlocks c 256 buf cnt
      sendCmd c CMD12 0 0x01
  sdDisSel c
  return err

/-- The `n` bytes of the caller's memory at `buf`. -/
def block (mem : ℕ → Byte) (buf n : ℕ) : List Byte := (List.range n).map fun i => mem (buf + i)

def sdSendBlock (c : Card) (buf : ℕ) (cmd : Byte) : Run Byte := do
  if (← sdWaiteReady c) ≠ 0 then return 0x1
  sendBytes c [cmd]
  if cmd ≠ 0xfd then
    sendBytes c (block (← get).mem buf 512)
    sendBytes c [0xff, 0xff]
    let t ← spi1ReadWriteByte c 0xff
    if t &&& 0x1f ≠ 0x05 then return 2
  return 0

/-- The multi-block loop of `SD_WriteDisk`; `cnt` counts down modulo 256. -/
def writeBlocks (c : Card) : ℕ → ℕ → Byte → Run Byte
  | 0, _, _ => pure 0
  | fuel + 1, buf, cnt => do
    let err ← sdSendBlock c buf 0xfc
    let cnt := cnt - 1
    if cnt ≠ 0 ∧ err = 0 then writeBlocks c fuel (buf + 512) cnt else return err

def sdWriteDisk (c : Card) (buf : ℕ) (sector : Word) (cnt : Byte) : Run Byte := do
  let type := (← get).SD_Type
  let sector := address type sector
  let err ←
    if cnt = 1 then do
      let err ← sendCmd c CMD24 sector 0x01
      if err = 0 then sdSendBlock c buf 0xfe else pure err
    else do
      if type ≠ SD_TYPE_MMC then
        let _ ← sendCmd c CMD55 0 0x01
        let _ ← sendCmd c CMD23 (cnt.setWidth 32) 0x01
      let err ← sendCmd c CMD25 sector 0x01
      if err = 0 then
        let _err ← writeBlocks c 256 buf cnt
        sdSendBlock c 0 0xfd
      else pure err
  sdDisSel c
  return err

/-- The common text of `SD_GetCSD` and `SD_GetCID`. -/
def getRegister (c : Card) (cmd : Byte) (buf : ℕ) : Run Byte := do
  let r ← sendCmd c cmd 0 0x01
  let r ← if r = 0 then sdRevData c buf 16 else pure r
  sdDisSel c
  return if r ≠ 0 then 0xff else 0

def sdGetCSD (c : Card) (buf : ℕ) : Run Byte := getRegister c CMD9 buf

def sdGetCID (c : Card) (cid_data : ℕ) : Run Byte := getRegister c CMD10 cid_data

/-- The two formulas of `SD_GetSectorCount`. Only `n ≥ 9` gives the last shift a meaning in C. -/
def capacity (csd : ℕ → Byte) : Word :=
  if csd 0 &&& 0xc0 = 0x40 then
    let csize : BitVec 16 := (csd 9).setWidth 16 + (csd 8).setWidth 16 <<< 8 + 1#16
    csize.setWidth 32 <<< 10
  else
    let n : Byte := (csd 5 &&& 15#8) + (csd 10 &&& 128#8) >>> 7 + (csd 9 &&& 3#8) <<< 1 + 2#8
    let csize : BitVec 16 := (csd 8).setWidth 16 >>> 6 + (csd 7).setWidth 16 <<< 2 +
      (csd 6 &&& 3#8).setWidth 16 <<< 10 + 1#16
    csize.setWidth 32 <<< (n.toNat - 9)

/-- `csd` is where the local array lies. -/
def sdGetSectorCount (c : Card) (csd : ℕ) : Run Word := do
  if (← sdGetCSD c csd) ≠ 0 then return 0
  let mem := (← get).mem
  return capacity fun i => mem (csd + i)

/-! ### diskio.c -/

/-- `disk_read`; `count` is truncated to eight bits by the call of `SD_ReadDisk`. -/
def diskRead (c : Card) (pdrv : Byte) (buff : ℕ) (sector : Word) (count : Word) : Run DResult := do
  if count = 0 then return .RES_PARERR
  let res ←
    if pdrv = SD_CARD then do
      let res ← sdReadDisk c buff sector (count.setWidth 8)
      if res ≠ 0 then
        spi1SetSpeed SPI_SPEED_256
        let _ ← spi1ReadWriteByte c 0xff
        spi1SetSpeed SPI_SPEED_2
      pure res
    else if pdrv = EX_FLASH then pure 0
    else pure 1
  return if res = 0 then .RES_OK else .RES_ERROR

def diskWrite (c : Card) (pdrv : Byte) (buff : ℕ) (sector : Word) (count : Word) : Run DResult := do
  if count = 0 then return .RES_PARERR
  let res ←
    if pdrv = SD_CARD then sdWriteDisk c buff sector (count.setWidth 8)
    else if pdrv = EX_FLASH then pure 0
    else pure 1
  return if res = 0 then .RES_OK else .RES_ERROR

end MultiEmbedded.Sd
