import Mathlib.Data.Nat.Notation
import Mathlib.Tactic.Common

/-!
# The scanners of usmart_str.c

A pointer into a string is what is left of it, and `[]` is its NUL. A buffer is
what has been stored in it from its first element on. A step past the NUL and a
store outside of a buffer end the run with a fault.
-/

namespace MultiEmbedded.Usmart

abbrev Byte := BitVec 8

inductive Fault
  | pastNul
  | index
  | hang
  deriving DecidableEq

abbrev Run (α : Type) := Except Fault α

def SPACE : Byte := 0x20
def QUOTE : Byte := 0x22
def LPAR : Byte := 0x28
def RPAR : Byte := 0x29
def STAR : Byte := 0x2A
def COMMA : Byte := 0x2C
def BACKSLASH : Byte := 0x5C

def USMART_OK : Byte := 0
def USMART_FUNCERR : Byte := 1
def USMART_PARMERR : Byte := 2
def USMART_PARMOVER : Byte := 3
def USMART_NOFUNCFIND : Byte := 4

/-! ### Buffers and pointers -/

/- `buf[i] = c`; what stood behind `i` is not read any more. -/
def put (size i : ℕ) (c : Byte) (buf : List Byte) : Run (List Byte) :=
  if i < size then .ok (buf.take i ++ [c]) else .error .index

/- `*p = c; p++` with `p` behind all that is stored. -/
def push (size : ℕ) (c : Byte) (buf : List Byte) : Run (List Byte) :=
  if buf.length < size then .ok (buf ++ [c]) else .error .index

/- `*p = 0`: the buffer holds its string from here on. -/
def terminate (size : ℕ) (buf : List Byte) : Run (List Byte) :=
  if buf.length < size then .ok buf else .error .index

def peek : List Byte → Byte
  | [] => 0
  | c :: _ => c

def advance (n : ℕ) (s : List Byte) : Run (List Byte) :=
  if n ≤ s.length then .ok (s.drop n) else .error .pastNul

/-! ### Strings and numbers -/

def strcmp : List Byte → List Byte → Byte
  | [], t => if peek t ≠ 0 then 1 else 0
  | c :: s, t => if c ≠ peek t then 1 else if c = 0 then 0 else strcmp s t.tail

def strlen (s : List Byte) : Byte := BitVec.ofNat 8 s.length

def pow (m : Byte) : ℕ → BitVec 32
  | 0 => 1
  | n + 1 => pow m n * m.setWidth 32

/- The first pass: the number of digits and the base, or `none` for the return of 1. -/
def numDigits : List Byte → (bnum hexdec : Byte) → Option (Byte × Byte)
  | [], bnum, hexdec => some (bnum, hexdec)
  | c :: s, bnum, hexdec =>
    if (c ≤ 0x39 ∧ c ≥ 0x30) ∨ (c ≤ 0x46 ∧ c ≥ 0x41) ∨ (c = 0x58 ∧ bnum = 1) then
      numDigits s (bnum + 1) (if c ≥ 0x41 then 16 else hexdec)
    else none

/- The second pass. `res` is added up from the most significant digit on. -/
def numValue (hexdec : Byte) : List Byte → (bnum : Byte) → (res : BitVec 32) → BitVec 32
  | [], _, res => res
  | c :: s, bnum, res =>
    let bnum := if bnum ≠ 0 then bnum - 1 else bnum
    let t := if c ≤ 0x39 ∧ c ≥ 0x30 then c.setWidth 32 - 0x30 else c.setWidth 32 - 0x41 + 10
    numValue hexdec s bnum (res + t * pow hexdec bnum.toNat)

/- The returned code and `*res`. -/
def str2num (str : List Byte) : Byte × BitVec 32 :=
  match numDigits str 0 10 with
  | none => (1, 0)
  | some (bnum, hexdec) =>
    if hexdec = 16 then
      if bnum < 3 then (2, 0)
      else if peek str = 0x30 ∧ peek str.tail = 0x58 then
        (0, numValue hexdec (str.drop 2) (bnum - 2) 0)
      else (3, 0)
    else if bnum = 0 then (4, 0)
    else (0, numValue hexdec str bnum 0)

/- The returned code, the name and its length. -/
def getCmdname (maxlen : Byte) (size : ℕ) : List Byte → (nlen : Byte) → (cmdname : List Byte) →
    Run (Byte × List Byte × Byte)
  | [], nlen, cmdname => do return (0, ← terminate size cmdname, nlen)
  | c :: s, nlen, cmdname => do
    if c = SPACE then return (0, ← terminate size cmdname, nlen)
    else
      let cmdname ← push size c cmdname
      if nlen + 1 ≥ maxlen then return (1, cmdname, nlen + 1)
      else getCmdname maxlen size s (nlen + 1) cmdname

/-! ### The name and the parameter count of a function -/

/- The character after the spaces that follow `*str`, where `s` is what follows. -/
def searchNextc (s : List Byte) : Byte := peek (s.dropWhile (· = SPACE))

def VOID : List Byte := [0x76, 0x6F, 0x69, 0x64]

/- The scan of the return type. `fpname` has 6 bytes. -/
def scanReturn : List Byte → (pcnt : Byte) → (fpname : List Byte) → Run (Byte × List Byte)
  | [], pcnt, fpname => .ok (pcnt, fpname)
  | c :: s, pcnt, fpname =>
    if c ≠ SPACE ∧ pcnt &&& 0x7F < 5 then
      let pcnt := if pcnt = 0 then pcnt ||| 0x80 else pcnt
      if pcnt &&& 0x7F = 4 ∧ c ≠ STAR then .ok (pcnt, fpname)
      else do
        let fpname ← put 6 (pcnt &&& 0x7F).toNat c fpname
        scanReturn s (pcnt + 1) fpname
    else if pcnt = 0x85 then .ok (pcnt, fpname)
    else scanReturn s pcnt fpname

/- The scan for the last space or star in front of the name: its offset. -/
def scanOffset : List Byte → (res offset : Byte) → Byte
  | [], _, offset => offset
  | c :: s, res, offset =>
    if c = LPAR then offset
    else
      let next := searchNextc s.tail
      if (peek s = SPACE ∨ peek s = STAR) ∧ next ≠ LPAR ∧ next ≠ STAR then
        scanOffset s (res + 1) (res + 1)
      else scanOffset s (res + 1) offset

structure Scan where
  res : Byte
  fover : Byte
  nchar : Bool
  temp : Byte
  pcnt : Byte
  fplcnt : Byte
  parmnum : Byte
  fname : List Byte
  fpname : List Byte

def Scan.start (fpname : List Byte) : Scan := ⟨0, 0, false, 1, 0, 0, 0, [], fpname⟩

/- A character inside the brackets. `fpname` takes the first five of the first parameter. -/
def scanParm (c : Byte) (v : Scan) : Run Scan :=
  if c = COMMA then .ok { v with temp := 1, pcnt := v.pcnt + 1 }
  else if c ≠ SPACE ∧ c ≠ LPAR then
    if v.pcnt = 0 ∧ v.fplcnt < 5 then do
      let fpname ← put 6 v.fplcnt.toNat c v.fpname
      return { v with fpname := fpname, fplcnt := v.fplcnt + 1, temp := v.temp + 1 }
    else .ok { v with temp := v.temp + 1 }
  else .ok v

/- A parameter counts with its first character. -/
def Scan.count (v : Scan) : Scan :=
  if v.fover = 1 ∧ v.temp = 2 then { v with temp := v.temp + 1, parmnum := v.parmnum + 1 } else v

/- What the loop does with a character once the brackets are counted. -/
def scanBody (size : ℕ) (c : Byte) (v : Scan) : Run Scan :=
  if v.fover = 0 then
    if c ≠ SPACE then do return { v with fname := ← push size c v.fname } else .ok v
  else do return (← scanParm c v).count

def scanLoop (size : ℕ) : List Byte → Scan → Run Scan
  | [], v => .ok { v with res := USMART_FUNCERR }
  | c :: s, v =>
    if c = LPAR ∧ v.nchar = false then do
      scanLoop size s (← scanBody size c { v with fover := v.fover + 1 })
    else if c = RPAR ∧ v.nchar = false then do
      let v := if v.fover ≠ 0 then { v with fover := v.fover - 1 } else { v with res := USMART_FUNCERR }
      if v.fover = 0 then return v
      else scanLoop size s (← scanBody size c v)
    else if c = QUOTE then do
      scanLoop size s (← scanBody size c { v with nchar := !v.nchar })
    else do
      scanLoop size s (← scanBody size c v)

structure Fname where
  res : Byte
  fname : List Byte
  pnum : Byte
  rval : Byte

/- `*rval`, and `fpname` with the return type closed. Without any text `*rval` stays. -/
def returnFlag (pcnt : Byte) (fpname : List Byte) (rval : Byte) : Run (Byte × List Byte) :=
  if pcnt ≠ 0 then do
    let fpname ← put 6 (pcnt &&& 0x7F).toNat 0 fpname
    return (if strcmp fpname VOID = 0 then 0 else 1, fpname)
  else .ok (rval, fpname)

/- The start of the name. -/
def seekName (str : List Byte) : Run (List Byte) :=
  let offset := scanOffset str 0 0
  if offset ≠ 0 then advance (offset.toNat + 1) str else .ok str

/- `parmnum`, where a single parameter `void` does not count. -/
def countParms (v : Scan) : Run Byte :=
  if v.parmnum = 1 then do
    let fpname ← put 6 v.fplcnt.toNat 0 v.fpname
    return if strcmp fpname VOID = 0 then 0 else v.parmnum
  else .ok v.parmnum

/- `usmart_get_fname` with a name buffer of `size` bytes; `rval` is `*rval` before the call. -/
def getFname (size : ℕ) (str : List Byte) (rval : Byte) : Run Fname := do
  let (pcnt, fpname) ← scanReturn str 0 []
  let (rval, fpname) ← returnFlag pcnt fpname rval
  let strtemp ← seekName str
  let v ← scanLoop size strtemp (Scan.start fpname)
  let pnum ← countParms v
  return ⟨v.res, ← terminate size v.fname, pnum, rval⟩

/-! ### One parameter -/

def isNum (c : Byte) : Bool :=
  (c ≥ 0x30 && c ≤ 0x39) || (c ≥ 0x61 && c ≤ 0x66) || (c ≥ 0x41 && c ≤ 0x46) || c == 0x58 || c == 0x78

def toUpper (c : Byte) : Byte := if c ≥ 0x61 then c - 0x20 else c

structure Aparm where
  offset : Byte
  type : Byte
  fparm : List Byte

def aparmLoop (size : ℕ) : List Byte → (i : Byte) → (enout : Bool) → (type : Byte) →
    (string : Bool) → (fparm : List Byte) → Run Aparm
  | [], i, _, type, string, fparm =>
    -- inside a string `type` is 1 and `enout` clear: the NUL is copied and passed
    if string then do
      let _ ← push size 0 fparm
      .error .pastNul
    else do return ⟨i, type, ← terminate size fparm⟩
  | c :: s, i, enout, type, string, fparm => do
    let enout := enout || (c == COMMA && !string)
    if c = RPAR ∧ string = false then return ⟨i, type, ← terminate size fparm⟩
    else if type = 0 then
      if isNum c then
        if enout then return ⟨i, type, ← terminate size fparm⟩
        else aparmLoop size s (i + 1) enout type string (← push size (toUpper c) fparm)
      else if c = QUOTE then
        if enout then return ⟨i, type, ← terminate size fparm⟩
        else aparmLoop size s (i + 1) enout 1 true fparm
      else if c ≠ SPACE ∧ c ≠ COMMA then return ⟨i, 0xFF, ← terminate size fparm⟩
      else aparmLoop size s (i + 1) enout type string fparm
    else
      let string := string && c != QUOTE
      if enout then return ⟨i, type, ← terminate size fparm⟩
      else if string then
        if c = BACKSLASH then
          match s with
          | [] => do
            let _ ← push size 0 fparm
            .error .pastNul
          | d :: s => do aparmLoop size s (i + 2) enout type string (← push size d fparm)
        else aparmLoop size s (i + 1) enout type string (← push size c fparm)
      else aparmLoop size s (i + 1) enout type string fparm

def getAparm (size : ℕ) (str : List Byte) : Run Aparm := aparmLoop size str 0 false 0 false []

end MultiEmbedded.Usmart
