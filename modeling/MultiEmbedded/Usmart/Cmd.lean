import MultiEmbedded.Usmart.Str
import Mathlib.Logic.Function.Basic

/-!
# Commands: usmart.c and the parameters of usmart_str.c

The parameters of a command are kept one behind the other in `parm`, and their
lengths in `plentbl`. What is printed is left out.
-/

namespace MultiEmbedded.Usmart

def MAX_FNAME_LEN : ℕ := 30
def MAX_PARM : ℕ := 10
def PARM_LEN : ℕ := 200

def SP_TYPE_DEC : Byte := 0
def SP_TYPE_HEX : Byte := 1

def USMART_ENTIMX_SCAN : ℕ := 1

structure NameTab where
  func : BitVec 32
  name : List Byte

/- `usmart_dev`. The arrays have MAX_PARM and PARM_LEN elements; `fnum` is a u8. -/
structure Dev where
  funs : List NameTab
  fnum : funs.length < 256
  pnum : Byte
  id : Byte
  sptype : Byte
  parmtype : BitVec 16
  plentbl : ℕ → Byte
  parm : ℕ → Byte
  runtimeflag : Byte

/-! ### The parameter buffers -/

def getParmpos (dev : Dev) : ℕ → Run Byte
  | 0 => .ok 0
  | i + 1 => do
    let temp ← getParmpos dev i
    if i < MAX_PARM then .ok (temp + dev.plentbl i) else .error .index

def setPlen (n : ℕ) (len : Byte) (dev : Dev) : Run Dev :=
  if n < MAX_PARM then .ok { dev with plentbl := Function.update dev.plentbl n len } else .error .index

/- Bytes stored from `parm[pos]` on. -/
def storeParm : ℕ → List Byte → Dev → Run Dev
  | _, [], dev => .ok dev
  | pos, c :: s, dev =>
    if pos < PARM_LEN then storeParm (pos + 1) s { dev with parm := Function.update dev.parm pos c }
    else .error .index

def loadParm (pos : ℕ) (dev : Dev) : Run Byte :=
  if pos < PARM_LEN then .ok (dev.parm pos) else .error .index

/- The bytes of a u32 in memory. -/
def bytesOf (v : BitVec 32) : List Byte :=
  [v.extractLsb' 0 8, v.extractLsb' 8 8, v.extractLsb' 16 8, v.extractLsb' 24 8]

def wordAt (pos : ℕ) (dev : Dev) : Run (BitVec 32) := do
  let b0 ← loadParm pos dev
  let b1 ← loadParm (pos + 1) dev
  let b2 ← loadParm (pos + 2) dev
  let b3 ← loadParm (pos + 3) dev
  return b3 ++ b2 ++ b1 ++ b0

/- Parameter `n` of `type` 0 (number) or 1 (string), as the bytes to keep. -/
def storeArg (n : ℕ) (type : Byte) (bytes : List Byte) (len : Byte) (dev : Dev) : Run Dev := do
  let pos ← getParmpos dev n
  let dev ← storeParm pos.toNat bytes dev
  let parmtype := if type = 0 then dev.parmtype &&& ~~~(1#16 <<< n) else dev.parmtype ||| (1#16 <<< n)
  setPlen n len { dev with parmtype := parmtype }

/- The outcome of one parameter: the code to return, or the number of parameters so far. -/
def fparamArg (n : ℕ) (a : Aparm) (dev : Dev) : Run ((Byte ⊕ ℕ) × Dev) :=
  if a.type = 0 then
    if a.fparm ≠ [] then
      if (str2num a.fparm).1 ≠ 0 then .ok (.inl USMART_PARMERR, dev)
      else do
        let dev ← storeArg n 0 (bytesOf (str2num a.fparm).2) 4 dev
        if n + 1 > MAX_PARM then return (.inl USMART_PARMOVER, dev) else return (.inr (n + 1), dev)
    else .ok (.inr n, dev)
  else if a.type = 1 then do
    let dev ← storeArg n 1 (a.fparm ++ [0]) (strlen a.fparm + 1) dev
    if n + 1 > MAX_PARM then return (.inl USMART_PARMOVER, dev) else return (.inr (n + 1), dev)
  else .ok (.inl USMART_PARMERR, dev)

/- `*str == ')' || *str == 0` -/
def atEnd (s : List Byte) : Prop := peek s = RPAR ∨ s = []

instance (s : List Byte) : Decidable (atEnd s) := inferInstanceAs (Decidable (_ ∨ _))

/- The loop over the parameters, at most `fuel` turns. The result is the code and `*parn`. -/
def fparamLoop : ℕ → List Byte → ℕ → Dev → Run ((Byte × ℕ) × Dev)
  | 0, _, _, _ => .error .hang
  | fuel + 1, str, n, dev => do
    let a ← getAparm (PARM_LEN + 1) str
    let str ← advance a.offset.toNat str
    match ← fparamArg n a dev with
    | (.inl sta, dev) => return ((sta, n), dev)
    | (.inr n, dev) =>
      if atEnd str then return ((USMART_OK, n), dev)
      else fparamLoop fuel str n dev

/- `while (*str != '(')`: what follows the bracket, or `none` if the string ends before. -/
def skipToParen : List Byte → Run (Option (List Byte))
  | [] => .error .pastNul
  | c :: s =>
    if c = LPAR then .ok (some s) else if s = [] then .ok none else skipToParen s

def getFparam (str : List Byte) (dev : Dev) : Run ((Byte × ℕ) × Dev) := do
  let dev := { dev with plentbl := fun i => if i < MAX_PARM then 0 else dev.plentbl i }
  match ← skipToParen str with
  | none => return ((USMART_FUNCERR, 0), dev)
  | some s => fparamLoop (s.length + 1) s 0 dev

/-! ### Recognising a command -/

/- The search of the table from entry `i` on: the code to return, or the entry found. -/
def lookup (rfname : List Byte) (rpnum : Byte) : ℕ → List NameTab → Run (Byte ⊕ ℕ)
  | _, [] => .ok (.inl USMART_NOFUNCFIND)
  | i, e :: es => do
    let loc ← getFname MAX_FNAME_LEN e.name 0
    if loc.res ≠ 0 then return .inl loc.res
    else if strcmp loc.fname rfname = 0 then
      if loc.pnum > rpnum then return .inl USMART_PARMERR else return .inr i
    else lookup rfname rpnum (i + 1) es

/- The end of `usmart_cmd_rec`, once entry `i` is found. -/
def recordParms (str : List Byte) (i : ℕ) (dev : Dev) : Run (Byte × Dev) := do
  let ((sta, n), dev) ← getFparam str { dev with id := BitVec.ofNat 8 i }
  if sta ≠ 0 then return (sta, dev)
  else return (USMART_OK, { dev with pnum := BitVec.ofNat 8 n })

def usmartCmdRec (str : List Byte) (dev : Dev) : Run (Byte × Dev) := do
  let received ← getFname MAX_FNAME_LEN str 0
  if received.res ≠ 0 then return (received.res, dev)
  else
    match ← lookup received.fname received.pnum 0 dev.funs with
    | .inl sta => return (sta, dev)
    | .inr i => recordParms str i dev

/-! ### Executing it -/

/- An element of `temp`: a number, or the address of `parm[pos]`. -/
inductive Word
  | num (v : BitVec 32)
  | parmAddr (pos : ℕ)
  deriving DecidableEq

/- The call that is made: the function, and the elements of `temp` that are passed. Those not
written before are `none`. -/
structure Invocation where
  func : BitVec 32
  args : List (Option Word)

/- Parameter `i`, kept at `pos`: the address of a string, the value of a number. -/
def tempWord (dev : Dev) (i pos : ℕ) : Run Word :=
  if dev.parmtype &&& (1#16 <<< i) ≠ 0 then .ok (.parmAddr pos) else do return .num (← wordAt pos dev)

def fillTemp (dev : Dev) : ℕ → Run (List Word)
  | 0 => .ok []
  | i + 1 => do
    let temp ← fillTemp dev i
    let pos ← getParmpos dev i
    let w ← tempWord dev i pos.toNat
    if i < MAX_PARM then return temp ++ [w] else .error .index

def usmartExe (dev : Dev) : Run (Option Invocation) :=
  match dev.funs[dev.id.toNat]? with
  | none => .ok none
  | some entry => do
    let loc ← getFname MAX_FNAME_LEN entry.name 0
    let temp ← fillTemp dev loc.pnum.toNat
    if dev.pnum.toNat ≤ MAX_PARM then
      return some ⟨entry.func, (List.range dev.pnum.toNat).map fun i => temp[i]?⟩
    else return none

/-! ### System commands -/

def sysCmdTab : List (List Byte) :=
  [ [0x3F],
    [0x68, 0x65, 0x6C, 0x70],
    [0x6C, 0x69, 0x73, 0x74],
    [0x69, 0x64],
    [0x68, 0x65, 0x78],
    [0x64, 0x65, 0x63],
    [0x72, 0x75, 0x6E, 0x74, 0x69, 0x6D, 0x65] ]

def findCmd (sfname : List Byte) : ℕ → List (List Byte) → ℕ
  | i, [] => i
  | i, cmd :: cmds => if strcmp sfname cmd = 0 then i else findCmd sfname (i + 1) cmds

/- The names of all entries, one after the other in `sfname`. -/
def listIds : List NameTab → Run Unit
  | [] => .ok ()
  | e :: es => do
    let _ ← getFname MAX_FNAME_LEN e.name 0
    listIds es

/- `hex` and `dec`: with a number they convert it, without they set how numbers are shown. -/
def setSptype (sptype : Byte) (str : List Byte) (dev : Dev) : Run (Byte × Dev) := do
  let a ← getAparm MAX_FNAME_LEN str
  if a.type = 0 then
    let code := (str2num a.fparm).1
    if code = 0 then return (0, dev)
    else if code ≠ 4 then return (USMART_PARMERR, dev)
    else return (0, { dev with sptype := sptype })
  else return (USMART_PARMERR, dev)

def setRuntime (str : List Byte) (dev : Dev) : Run (Byte × Dev) := do
  let a ← getAparm MAX_FNAME_LEN str
  if a.type = 0 then
    let (code, res) := str2num a.fparm
    if code = 0 then
      if USMART_ENTIMX_SCAN = 0 then return (0, dev)
      else return (0, { dev with runtimeflag := res.setWidth 8 })
    else return (USMART_PARMERR, dev)
  else return (USMART_PARMERR, dev)

def usmartSysCmdExe (str : List Byte) (dev : Dev) : Run (Byte × Dev) := do
  let (res, sfname, nlen) ← getCmdname (BitVec.ofNat 8 MAX_FNAME_LEN) MAX_FNAME_LEN str 0 []
  if res ≠ 0 then return (USMART_FUNCERR, dev)
  else
    let str ← advance nlen.toNat str
    match findCmd sfname 0 sysCmdTab with
    | 0 | 1 | 2 => return (0, dev)
    | 3 => do
      listIds dev.funs
      return (0, dev)
    | 4 => setSptype SP_TYPE_HEX str dev
    | 5 => setSptype SP_TYPE_DEC str dev
    | 6 => setRuntime str dev
    | _ => return (USMART_FUNCERR, dev)

end MultiEmbedded.Usmart
