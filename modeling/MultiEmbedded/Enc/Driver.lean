import MultiEmbedded.Lib.Prog
import Mathlib.Data.BitVec

/-!
# The ENC28J60 driver (ENC28J60.C)

The driver as a program over SPI commands and its two statics. Every chip-select
period of the source is one command; the busy waits get a number of turns, `spin`.
-/

namespace MultiEmbedded.Enc
open Prog

abbrev Byte := BitVec 8
abbrev Word := BitVec 32

/-! ### Registers: address in bits 0-4, bank in bits 5-6, MAC/PHY indicator in bit 7 -/

def ADDR_MASK : Byte := 0x1f
def BANK_MASK : Byte := 0x60

def EIE : Byte := 0x1b
def EIR : Byte := 0x1c
def ESTAT : Byte := 0x1d
def ECON2 : Byte := 0x1e
def ECON1 : Byte := 0x1f

def ERDPTL : Byte := 0x00 ||| 0x00
def ERDPTH : Byte := 0x01 ||| 0x00
def EWRPTL : Byte := 0x02 ||| 0x00
def EWRPTH : Byte := 0x03 ||| 0x00
def ETXSTL : Byte := 0x04 ||| 0x00
def ETXSTH : Byte := 0x05 ||| 0x00
def ETXNDL : Byte := 0x06 ||| 0x00
def ETXNDH : Byte := 0x07 ||| 0x00
def ERXSTL : Byte := 0x08 ||| 0x00
def ERXSTH : Byte := 0x09 ||| 0x00
def ERXNDL : Byte := 0x0a ||| 0x00
def ERXNDH : Byte := 0x0b ||| 0x00
def ERXRDPTL : Byte := 0x0c ||| 0x00
def ERXRDPTH : Byte := 0x0d ||| 0x00

def EPMM0 : Byte := 0x08 ||| 0x20
def EPMM1 : Byte := 0x09 ||| 0x20
def EPMCSL : Byte := 0x10 ||| 0x20
def EPMCSH : Byte := 0x11 ||| 0x20
def ERXFCON : Byte := 0x18 ||| 0x20
def EPKTCNT : Byte := 0x19 ||| 0x20

def MACON1 : Byte := 0x00 ||| 0x40 ||| 0x80
def MACON2 : Byte := 0x01 ||| 0x40 ||| 0x80
def MACON3 : Byte := 0x02 ||| 0x40 ||| 0x80
def MABBIPG : Byte := 0x04 ||| 0x40 ||| 0x80
def MAIPGL : Byte := 0x06 ||| 0x40 ||| 0x80
def MAIPGH : Byte := 0x07 ||| 0x40 ||| 0x80
def MAMXFLL : Byte := 0x0a ||| 0x40 ||| 0x80
def MAMXFLH : Byte := 0x0b ||| 0x40 ||| 0x80
def MIREGADR : Byte := 0x14 ||| 0x40 ||| 0x80
def MIWRL : Byte := 0x16 ||| 0x40 ||| 0x80
def MIWRH : Byte := 0x17 ||| 0x40 ||| 0x80

def MAADR1 : Byte := 0x00 ||| 0x60 ||| 0x80
def MAADR0 : Byte := 0x01 ||| 0x60 ||| 0x80
def MAADR3 : Byte := 0x02 ||| 0x60 ||| 0x80
def MAADR2 : Byte := 0x03 ||| 0x60 ||| 0x80
def MAADR5 : Byte := 0x04 ||| 0x60 ||| 0x80
def MAADR4 : Byte := 0x05 ||| 0x60 ||| 0x80
def MISTAT : Byte := 0x0a ||| 0x60 ||| 0x80
def EREVID : Byte := 0x12 ||| 0x60
def ECOCON : Byte := 0x15 ||| 0x60

def PHCON1 : Byte := 0x00
def PHCON2 : Byte := 0x10
def PHLCON : Byte := 0x14

def ERXFCON_UCEN : Byte := 0x80
def ERXFCON_CRCEN : Byte := 0x20
def ERXFCON_PMEN : Byte := 0x10
def EIE_INTIE : Byte := 0x80
def EIE_PKTIE : Byte := 0x40
def EIE_RXERIE : Byte := 0x01
def EIR_TXERIF : Byte := 0x02
def ESTAT_CLKRDY : Byte := 0x01
def ECON2_PKTDEC : Byte := 0x40
def ECON1_TXRTS : Byte := 0x08
def ECON1_RXEN : Byte := 0x04
def ECON1_BSEL1 : Byte := 0x02
def ECON1_BSEL0 : Byte := 0x01
def MACON1_TXPAUS : Byte := 0x08
def MACON1_RXPAUS : Byte := 0x04
def MACON1_MARXEN : Byte := 0x01
def MACON3_PADCFG0 : Byte := 0x20
def MACON3_TXCRCEN : Byte := 0x10
def MACON3_FRMLNEN : Byte := 0x02
def MACON3_FULDPX : Byte := 0x01
def MISTAT_BUSY : Byte := 0x01
def PHCON1_PDPXMD : Word := 0x0100
def PHCON2_HDLDIS : Word := 0x0100

def ENC28J60_READ_CTRL_REG : Byte := 0x00
def ENC28J60_READ_BUF_MEM : Byte := 0x3a
def ENC28J60_WRITE_CTRL_REG : Byte := 0x40
def ENC28J60_WRITE_BUF_MEM : Byte := 0x7a
def ENC28J60_BIT_FIELD_SET : Byte := 0x80
def ENC28J60_BIT_FIELD_CLR : Byte := 0xa0
def ENC28J60_SOFT_RESET : Byte := 0xff

def RXSTART_INIT : Word := 0x0
def RXSTOP_INIT : Word := 0x1fff - 0x0600 - 1
def TXSTART_INIT : Word := 0x1fff - 0x0600
def TXSTOP_INIT : Word := 0x1fff
def MAX_FRAMELEN : Word := 1500

/-! ### Operations -/

/- The commands on the bus, the release of chip select in `enc28j60Init`, and the accesses
to `Enc28j60Bank` and `NextPacketPtr`. -/
inductive Op
  | readOp (op address : Byte)
  | writeOp (op address data : Byte)
  | readBuffer (len : Word)
  | writeBuffer (data : List Byte)
  | csHigh
  | loadBank
  | storeBank (bank : Byte)
  | loadNext
  | storeNext (next : Word)

@[reducible] def Op.Res : Op → Type
  | readOp _ _ => Byte
  | readBuffer _ => List Byte
  | loadBank => Byte
  | loadNext => Word
  | _ => Unit

abbrev Drv := Prog Op Op.Res

def enc28j60ReadOp (op address : Byte) : Drv Byte := perform (Op.readOp op address)

def enc28j60WriteOp (op address data : Byte) : Drv Unit := perform (Op.writeOp op address data)

/- The bytes stored from `data` on: `len` bytes off the chip and a terminator. -/
def enc28j60ReadBuffer (len : Word) : Drv (List Byte) := do
  let data ← perform (Op.readBuffer len)
  return data ++ [0]

def enc28j60WriteBuffer (len : Word) (data : ℕ → Byte) : Drv Unit :=
  perform (Op.writeBuffer ((List.range len.toNat).map data))

def enc28j60SetBank (address : Byte) : Drv Unit := do
  if address &&& BANK_MASK ≠ (← perform Op.loadBank) then
    enc28j60WriteOp ENC28J60_BIT_FIELD_CLR ECON1 (ECON1_BSEL1 ||| ECON1_BSEL0)
    enc28j60WriteOp ENC28J60_BIT_FIELD_SET ECON1 ((address &&& BANK_MASK) >>> 5)
    perform (Op.storeBank (address &&& BANK_MASK))

def enc28j60Read (address : Byte) : Drv Byte := do
  enc28j60SetBank address
  enc28j60ReadOp ENC28J60_READ_CTRL_REG address

def enc28j60Write (address data : Byte) : Drv Unit := do
  enc28j60SetBank address
  enc28j60WriteOp ENC28J60_WRITE_CTRL_REG address data

def lowByte (w : Word) : Byte := w.setWidth 8
def highByte (w : Word) : Byte := (w >>> 8).setWidth 8

def enc28j60PhyWrite (spin : ℕ) (address : Byte) (data : Word) : Drv Unit := do
  enc28j60Write MIREGADR address
  enc28j60Write MIWRL (lowByte data)
  enc28j60Write MIWRH (highByte data)
  waitWhile (do return (← enc28j60Read MISTAT) &&& MISTAT_BUSY != 0) spin

def enc28j60clkout (clk : Byte) : Drv Unit := enc28j60Write ECOCON (clk &&& 0x7)

/- The `printf`s of the address registers, for the reads they make. -/
def printAddress : Drv Unit := do
  let _ ← enc28j60Read MAADR5
  let _ ← enc28j60Read MAADR4
  let _ ← enc28j60Read MAADR3
  let _ ← enc28j60Read MAADR2
  let _ ← enc28j60Read MAADR1
  let _ ← enc28j60Read MAADR0

def enc28j60Init (spin : ℕ) (macaddr : ℕ → Byte) : Drv Unit := do
  perform Op.csHigh
  enc28j60WriteOp ENC28J60_SOFT_RESET 0 ENC28J60_SOFT_RESET
  waitWhile (do return (← enc28j60Read ESTAT) &&& ESTAT_CLKRDY == 0) spin
  perform (Op.storeNext RXSTART_INIT)
  enc28j60Write ERXSTL (lowByte RXSTART_INIT)
  enc28j60Write ERXSTH (highByte RXSTART_INIT)
  enc28j60Write ERXRDPTL (lowByte RXSTART_INIT)
  enc28j60Write ERXRDPTH (highByte RXSTART_INIT)
  enc28j60Write ERXNDL (lowByte RXSTOP_INIT)
  enc28j60Write ERXNDH (highByte RXSTOP_INIT)
  enc28j60Write ETXSTL (lowByte TXSTART_INIT)
  enc28j60Write ETXSTH (highByte TXSTART_INIT)
  enc28j60Write ETXNDL (lowByte TXSTOP_INIT)
  enc28j60Write ETXNDH (highByte TXSTOP_INIT)
  enc28j60Write ERXFCON (ERXFCON_UCEN ||| ERXFCON_CRCEN ||| ERXFCON_PMEN)
  enc28j60Write EPMM0 0x3f
  enc28j60Write EPMM1 0x30
  enc28j60Write EPMCSL 0xf9
  enc28j60Write EPMCSH 0xf7
  enc28j60Write MACON1 (MACON1_MARXEN ||| MACON1_TXPAUS ||| MACON1_RXPAUS)
  enc28j60Write MACON2 0x00
  enc28j60WriteOp ENC28J60_BIT_FIELD_SET MACON3
    (MACON3_PADCFG0 ||| MACON3_TXCRCEN ||| MACON3_FRMLNEN ||| MACON3_FULDPX)
  enc28j60Write MAIPGL 0x12
  enc28j60Write MAIPGH 0x0c
  enc28j60Write MABBIPG 0x15
  enc28j60Write MAMXFLL (lowByte MAX_FRAMELEN)
  enc28j60Write MAMXFLH (highByte MAX_FRAMELEN)
  enc28j60Write MAADR5 (macaddr 0)
  enc28j60Write MAADR4 (macaddr 1)
  enc28j60Write MAADR3 (macaddr 2)
  enc28j60Write MAADR2 (macaddr 3)
  enc28j60Write MAADR1 (macaddr 4)
  enc28j60Write MAADR0 (macaddr 5)
  if (← enc28j60Read MAADR5) = macaddr 0 then printAddress
  enc28j60PhyWrite spin PHCON1 PHCON1_PDPXMD
  enc28j60PhyWrite spin PHCON2 PHCON2_HDLDIS
  enc28j60SetBank ECON1
  enc28j60WriteOp ENC28J60_BIT_FIELD_SET EIE (EIE_INTIE ||| EIE_PKTIE ||| EIE_RXERIE)
  enc28j60WriteOp ENC28J60_BIT_FIELD_SET ECON1 ECON1_RXEN

def enc28j60getrev : Drv Byte := enc28j60Read EREVID

def enc28j60PacketSend (spin : ℕ) (len : Word) (packet : ℕ → Byte) : Drv Unit := do
  waitWhile (do return (← enc28j60Read ECON1) &&& ECON1_TXRTS != 0) spin
  enc28j60Write EWRPTL (lowByte TXSTART_INIT)
  enc28j60Write EWRPTH (highByte TXSTART_INIT)
  enc28j60Write ETXNDL (lowByte (TXSTART_INIT + len))
  enc28j60Write ETXNDH (highByte (TXSTART_INIT + len))
  enc28j60WriteOp ENC28J60_WRITE_BUF_MEM 0 0x00
  enc28j60WriteBuffer len packet
  enc28j60WriteOp ENC28J60_BIT_FIELD_SET ECON1 ECON1_TXRTS
  if (← enc28j60Read EIR) &&& EIR_TXERIF ≠ 0 then
    enc28j60SetBank ECON1
    enc28j60WriteOp ENC28J60_BIT_FIELD_CLR ECON1 ECON1_TXRTS

/- A 16-bit field of the receive header, low byte first. -/
def readField : Drv Word := do
  let low ← enc28j60ReadOp ENC28J60_READ_BUF_MEM 0
  let high ← enc28j60ReadOp ENC28J60_READ_BUF_MEM 0
  return low.setWidth 32 ||| high.setWidth 32 <<< 8

/- The return value and what is stored from `packet` on. -/
def enc28j60PacketReceive (maxlen : Word) : Drv (Word × List Byte) := do
  if (← enc28j60Read EPKTCNT) = 0 then return (0, [])
  enc28j60Write ERDPTL (lowByte (← perform Op.loadNext))
  enc28j60Write ERDPTH (highByte (← perform Op.loadNext))
  perform (Op.storeNext ((← enc28j60ReadOp ENC28J60_READ_BUF_MEM 0).setWidth 32))
  let high ← enc28j60ReadOp ENC28J60_READ_BUF_MEM 0
  perform (Op.storeNext ((← perform Op.loadNext) ||| high.setWidth 32 <<< 8))
  let len ← readField
  let len := len - 4
  let rxstat ← readField
  let len := if len > maxlen - 1 then maxlen - 1 else len
  let (len, stored) ← (if rxstat &&& 0x80 = 0 then pure (0, [])
    else Prod.mk len <$> enc28j60ReadBuffer len)
  enc28j60Write ERXRDPTL (lowByte (← perform Op.loadNext))
  enc28j60Write ERXRDPTH (highByte (← perform Op.loadNext))
  enc28j60WriteOp ENC28J60_BIT_FIELD_SET ECON2 ECON2_PKTDEC
  return (len, stored)

def mymacinit (spin : ℕ) (mymac : ℕ → Byte) : Drv Unit := do
  enc28j60Init spin mymac
  enc28j60PhyWrite spin PHLCON 0x0476
  enc28j60clkout 2

end MultiEmbedded.Enc
