import MultiEmbedded.Sd.Write

/-!
# Two runs of the card driver

`SD_Waite_Ready` counts its polls in a local that is never initialised. Two runs
on the same bytes of the card differ only in what such locals hold; they are
alike exactly if every wait ends with a ready byte in time for both counters, or
both counters start at 0.
-/

namespace MultiEmbedded.Sd
open Search

/-! ### One wait -/

/-- A wait fails after 0xFFFFFF bytes, none of which says ready. -/
def FailsLate (c : Card) (s : State) : Prop :=
  (sdWaiteReady c s).1 ≠ 0 →
    (sdWaiteReady c s).2.pos = s.pos + 0xffffff ∧ ∀ i, i < 0xffffff → c.miso (s.pos + i) ≠ 0xff

structure WaitAlike (c₁ c₂ : Card) (s : State) : Prop where
  bytes : (sdWaiteReady c₁ s).2.pos = (sdWaiteReady c₂ s).2.pos
  result : (sdWaiteReady c₁ s).1 = (sdWaiteReady c₂ s).1
  fails₁ : FailsLate c₁ s
  fails₂ : FailsLate c₂ s

/-- The card is ready in time for both counters, or both start at 0. -/
def WaitSafe (c₁ c₂ : Card) (s : State) : Prop :=
  (∃ j, readyAt c₁ s.stackReads s.pos = some j ∧ readyAt c₂ s.stackReads s.pos = some j) ∨
    (c₁.stack s.stackReads = 0 ∧ c₂.stack s.stackReads = 0)

theorem waitLimit_full (i : Word) : waitLimit i = 0xffffff ↔ i = 0 := by
  have hzero : BitVec.toNat (0 : Word) = 0 := rfl
  unfold waitLimit
  constructor
  · intro h
    apply BitVec.eq_of_toNat_eq
    split at h
    · exact absurd h (by decide)
    · split at h
      · omega
      · exact absurd h (by decide)
  · rintro rfl
    rfl

theorem failsLate_of_ready {c : Card} {s : State} {j : ℕ} (h : readyAt c s.stackReads s.pos = some j) :
    FailsLate c s := by
  intro hne
  rw [sdWaiteReady_run, h] at hne
  exact absurd rfl hne

theorem failsLate_iff {c : Card} {s : State} (h : readyAt c s.stackReads s.pos = none) :
    FailsLate c s ↔ c.stack s.stackReads = 0 := by
  have hrun := sdWaiteReady_run c s
  rw [h] at hrun
  unfold FailsLate
  rw [hrun, ← waitLimit_full]
  simp only [idle_pos, readStack_pos]
  constructor
  · intro hlate
    have hpos := (hlate (by decide)).1
    omega
  · intro hlim _
    refine ⟨by rw [hlim], fun i hi => ?_⟩
    unfold readyAt at h
    rw [hlim] at h
    have hbyte := find_none h (s.pos + i) (Nat.le_add_right _ _) (by omega)
    intro hff
    rw [hff] at hbyte
    exact absurd hbyte (by decide)

variable {miso : ℕ → Byte} {stack₁ stack₂ : ℕ → Word}

/- Both runs of a safe wait go the same way. -/
theorem wait_same {s : State} (h : WaitSafe ⟨miso, stack₁⟩ ⟨miso, stack₂⟩ s) :
    sdWaiteReady ⟨miso, stack₁⟩ s = sdWaiteReady ⟨miso, stack₂⟩ s := by
  rcases h with ⟨j, h₁, h₂⟩ | ⟨h₁, h₂⟩
  · rw [sdWaiteReady_run, sdWaiteReady_run, h₁, h₂]
  · have hstack : stack₁ s.stackReads = stack₂ s.stackReads := h₁.trans h₂.symm
    rw [sdWaiteReady_run, sdWaiteReady_run]
    unfold readyAt
    dsimp only
    rw [hstack]

theorem waitAlike_iff (s : State) :
    WaitAlike ⟨miso, stack₁⟩ ⟨miso, stack₂⟩ s ↔ WaitSafe ⟨miso, stack₁⟩ ⟨miso, stack₂⟩ s := by
  have hrun₁ := sdWaiteReady_run ⟨miso, stack₁⟩ s
  have hrun₂ := sdWaiteReady_run ⟨miso, stack₂⟩ s
  constructor
  · intro h
    have hresult := h.result
    cases h₁ : readyAt ⟨miso, stack₁⟩ s.stackReads s.pos with
    | some j₁ =>
      cases h₂ : readyAt ⟨miso, stack₂⟩ s.stackReads s.pos with
      | some j₂ =>
        rw [h₁] at hrun₁
        rw [h₂] at hrun₂
        have hpos := h.bytes
        rw [hrun₁, hrun₂] at hpos
        simp only [idle_pos, readStack_pos] at hpos
        have hle₁ := (find_some h₁).1
        have hle₂ := (find_some h₂).1
        have heq : j₁ = j₂ := by omega
        exact Or.inl ⟨j₁, h₁, heq ▸ h₂⟩
      | none =>
        rw [hrun₁, hrun₂, h₁, h₂] at hresult
        exact absurd (show (0 : Byte) = 0xff from hresult) (by decide)
    | none =>
      cases h₂ : readyAt ⟨miso, stack₂⟩ s.stackReads s.pos with
      | some j₂ =>
        rw [hrun₁, hrun₂, h₁, h₂] at hresult
        exact absurd (show (0xff : Byte) = 0 from hresult) (by decide)
      | none => exact Or.inr ⟨(failsLate_iff h₁).mp h.fails₁, (failsLate_iff h₂).mp h.fails₂⟩
  · intro h
    have hsame := wait_same h
    have hlate : FailsLate ⟨miso, stack₁⟩ s ∧ FailsLate ⟨miso, stack₂⟩ s := by
      rcases h with ⟨j, h₁, h₂⟩ | ⟨h₁, h₂⟩
      · exact ⟨failsLate_of_ready h₁, failsLate_of_ready h₂⟩
      · have hstack : stack₁ s.stackReads = stack₂ s.stackReads := h₁.trans h₂.symm
        cases hr : readyAt ⟨miso, stack₁⟩ s.stackReads s.pos with
        | some j =>
          refine ⟨failsLate_of_ready hr, failsLate_of_ready (j := j) ?_⟩
          rw [← hr]
          unfold readyAt
          dsimp only
          rw [hstack]
        | none =>
          refine ⟨(failsLate_iff hr).mpr h₁, (failsLate_iff ?_).mpr h₂⟩
          rw [← hr]
          unfold readyAt
          dsimp only
          rw [hstack]
    exact ⟨congrArg (fun x => x.2.pos) hsame, congrArg Prod.fst hsame, hlate.1, hlate.2⟩

/-! ### The calls that wait -/

/-- A program on two cards behaves alike in `s`. -/
theorem bind_same {α β : Type} {x₁ x₂ : Run α} {f₁ f₂ : α → Run β} {s : State} (hx : x₁ s = x₂ s)
    (hf : f₁ (x₁ s).1 (x₁ s).2 = f₂ (x₁ s).1 (x₁ s).2) : (x₁ >>= f₁) s = (x₂ >>= f₂) s := by
  show f₁ (x₁ s).1 (x₁ s).2 = f₂ (x₂ s).1 (x₂ s).2
  rw [← hx]
  exact hf

theorem sendBytes_same (stack₁ stack₂ : ℕ → Word) (bs : List Byte) :
    sendBytes ⟨miso, stack₁⟩ bs = sendBytes ⟨miso, stack₂⟩ bs := by
  funext s
  rw [sendBytes_run, sendBytes_run]

theorem responseLoop_same (stack₁ stack₂ : ℕ → Word) (retry : ℕ) :
    responseLoop ⟨miso, stack₁⟩ retry = responseLoop ⟨miso, stack₂⟩ retry := by
  funext s
  rw [responseLoop_run, responseLoop_run]

theorem sdRevData_same (stack₁ stack₂ : ℕ → Word) (buf len : ℕ) :
    sdRevData ⟨miso, stack₁⟩ buf len = sdRevData ⟨miso, stack₂⟩ buf len := by
  have hget (count : ℕ) : getResponseLoop ⟨miso, stack₁⟩ 0xfe count = getResponseLoop ⟨miso, stack₂⟩ 0xfe count := by
    funext s
    rw [getResponseLoop_run, getResponseLoop_run]
  have hrecv : recvBytes ⟨miso, stack₁⟩ buf len = recvBytes ⟨miso, stack₂⟩ buf len := by
    funext s
    rw [recvBytes_run, recvBytes_run]
  unfold sdRevData getResponse
  rw [hget, hrecv, sendBytes_same stack₁ stack₂]

theorem readBlocks_same (stack₁ stack₂ : ℕ → Word) (fuel buf : ℕ) (cnt : Byte) :
    readBlocks ⟨miso, stack₁⟩ fuel buf cnt = readBlocks ⟨miso, stack₂⟩ fuel buf cnt := by
  induction fuel generalizing buf cnt with
  | zero => rfl
  | succ fuel ih =>
    unfold readBlocks
    simp only [sdRevData_same stack₁ stack₂, ih]

theorem sdSelect_same {s : State}
    (h : WaitSafe ⟨miso, stack₁⟩ ⟨miso, stack₂⟩ (setCS false s).2) :
    sdSelect ⟨miso, stack₁⟩ s = sdSelect ⟨miso, stack₂⟩ s := by
  unfold sdSelect
  apply bind_same rfl
  apply bind_same (wait_same h)
  rfl

theorem sendCmd_same {cmd : Byte} {arg : Word} {crc : Byte} {s : State}
    (h : WaitSafe ⟨miso, stack₁⟩ ⟨miso, stack₂⟩ (setCS false (sdDisSel ⟨miso, stack₁⟩ s).2).2) :
    sendCmd ⟨miso, stack₁⟩ cmd arg crc s = sendCmd ⟨miso, stack₂⟩ cmd arg crc s := by
  unfold sendCmd
  apply bind_same rfl
  apply bind_same (sdSelect_same h)
  simp only [sendBytes_same stack₁ stack₂,
    responseLoop_same stack₁ stack₂]

theorem sdSendBlock_same {buf : ℕ} {cmd : Byte} {s : State}
    (h : WaitSafe ⟨miso, stack₁⟩ ⟨miso, stack₂⟩ s) :
    sdSendBlock ⟨miso, stack₁⟩ buf cmd s = sdSendBlock ⟨miso, stack₂⟩ buf cmd s := by
  unfold sdSendBlock
  apply bind_same (wait_same h)
  simp only [sendBytes_same stack₁ stack₂]
  rfl

/-! ### Every wait of a call -/

section Waits
variable (c : Card) (P : State → Prop)

/- `P` holds of every state in which the call waits for ready. -/
def selectWaits (s : State) : Prop := P (setCS false s).2

def sendCmdWaits (s : State) : Prop := selectWaits P (sdDisSel c s).2

def readDiskWaits (buf : ℕ) (sec : Word) (cnt : Byte) (s : State) : Prop :=
  if cnt = 1 then sendCmdWaits c P s
  else sendCmdWaits c P s ∧
    sendCmdWaits c P (readBlocks c 256 buf cnt (sendCmd c CMD18 (address s.SD_Type sec) 0x01 s).2).2

def writeBlocksWaits : ℕ → ℕ → Byte → State → Prop
  | 0, _, _, _ => True
  | fuel + 1, buf, cnt, s => P s ∧ (cnt - 1 ≠ 0 ∧ (sdSendBlock c buf 0xfc s).1 = 0 →
      writeBlocksWaits fuel (buf + 512) (cnt - 1) (sdSendBlock c buf 0xfc s).2)

/- The two commands before several blocks, which not every card gets. -/
def announce (cnt : Byte) (s : State) : State :=
  (sendCmd c CMD23 (cnt.setWidth 32) 0x01 (sendCmd c CMD55 0 0x01 s).2).2

def dataWaits (buf : ℕ) (sector : Word) (cnt : Byte) (s : State) : Prop :=
  sendCmdWaits c P s ∧ ((sendCmd c CMD25 sector 0x01 s).1 = 0 →
    writeBlocksWaits c P 256 buf cnt (sendCmd c CMD25 sector 0x01 s).2 ∧
    P (writeBlocks c 256 buf cnt (sendCmd c CMD25 sector 0x01 s).2).2)

/- `SD_WriteDisk` from CMD25 on. -/
def dataPhase (buf : ℕ) (sector : Word) (cnt : Byte) : Run Byte := do
  let err ← sendCmd c CMD25 sector 0x01
  let err ← if err = 0 then do
      let _err ← writeBlocks c 256 buf cnt
      sdSendBlock c 0 0xfd
    else pure err
  sdDisSel c
  return err

def writeDiskWaits (buf : ℕ) (sector : Word) (cnt : Byte) (s : State) : Prop :=
  if cnt = 1 then sendCmdWaits c P s ∧
    ((sendCmd c CMD24 (address s.SD_Type sector) 0x01 s).1 = 0 →
      P (sendCmd c CMD24 (address s.SD_Type sector) 0x01 s).2)
  else if s.SD_Type ≠ SD_TYPE_MMC then
    (sendCmdWaits c P s ∧ sendCmdWaits c P (sendCmd c CMD55 0 0x01 s).2) ∧
      dataWaits c P buf (address s.SD_Type sector) cnt (announce c cnt s)
  else dataWaits c P buf (address s.SD_Type sector) cnt s

end Waits

inductive Call
  | sdWaiteReady
  | sdSelect
  | sendCmd (cmd : Byte) (arg : Word) (crc : Byte)
  | sdSendBlock (buf : ℕ) (cmd : Byte)
  | sdReadDisk (buf : ℕ) (sec : Word) (cnt : Byte)
  | sdWriteDisk (buf : ℕ) (sector : Word) (cnt : Byte)

def Call.run (c : Card) : Call → Run Byte
  | sdWaiteReady => Sd.sdWaiteReady c
  | sdSelect => Sd.sdSelect c
  | sendCmd cmd arg crc => Sd.sendCmd c cmd arg crc
  | sdSendBlock buf cmd => Sd.sdSendBlock c buf cmd
  | sdReadDisk buf sec cnt => Sd.sdReadDisk c buf sec cnt
  | sdWriteDisk buf sector cnt => Sd.sdWriteDisk c buf sector cnt

def Call.Waits (c : Card) (P : State → Prop) : Call → State → Prop
  | sdWaiteReady, s => P s
  | sdSelect, s => selectWaits P s
  | sendCmd _ _ _, s => sendCmdWaits c P s
  | sdSendBlock _ _, s => P s
  | sdReadDisk buf sec cnt, s => readDiskWaits c P buf sec cnt s
  | sdWriteDisk buf sector cnt, s => writeDiskWaits c P buf sector cnt s

theorem Call.waits_iff (c : Card) {P Q : State → Prop} (h : ∀ s, P s ↔ Q s) (call : Call) (s : State) :
    call.Waits c P s ↔ call.Waits c Q s := by
  have hPQ : P = Q := funext fun s => propext (h s)
  rw [hPQ]

/-! ### Two runs -/

theorem sdReadDisk_same {buf : ℕ} {sec : Word} {cnt : Byte} {s : State}
    (h : readDiskWaits ⟨miso, stack₁⟩ (WaitSafe ⟨miso, stack₁⟩ ⟨miso, stack₂⟩) buf sec cnt s) :
    sdReadDisk ⟨miso, stack₁⟩ buf sec cnt s = sdReadDisk ⟨miso, stack₂⟩ buf sec cnt s := by
  unfold sdReadDisk readDiskWaits at *
  apply bind_same rfl
  by_cases hcnt : cnt = 1
  · rw [if_pos hcnt] at h
    simp only [hcnt, if_true]
    apply bind_same (sendCmd_same h)
    simp only [sdRevData_same stack₁ stack₂]
    rfl
  · rw [if_neg hcnt] at h
    simp only [hcnt, if_false]
    apply bind_same (sendCmd_same h.1)
    apply bind_same (by rw [readBlocks_same stack₁ stack₂])
    apply bind_same (sendCmd_same h.2)
    rfl

theorem writeBlocks_same {fuel buf : ℕ} {cnt : Byte} {s : State}
    (h : writeBlocksWaits ⟨miso, stack₁⟩ (WaitSafe ⟨miso, stack₁⟩ ⟨miso, stack₂⟩) fuel buf cnt s) :
    writeBlocks ⟨miso, stack₁⟩ fuel buf cnt s = writeBlocks ⟨miso, stack₂⟩ fuel buf cnt s := by
  induction fuel generalizing buf cnt s with
  | zero => rfl
  | succ fuel ih =>
    unfold writeBlocks
    apply bind_same (sdSendBlock_same h.1)
    by_cases hgo : cnt - 1 ≠ 0 ∧ (sdSendBlock ⟨miso, stack₁⟩ buf 0xfc s).1 = 0
    · rw [if_pos hgo, if_pos hgo]
      exact ih (h.2 hgo)
    · rw [if_neg hgo, if_neg hgo]

/- What is left of a write of several blocks after the commands that announce it. -/
theorem dataPhase_same {buf : ℕ} {sector : Word} {cnt : Byte} {s : State}
    (h : dataWaits ⟨miso, stack₁⟩ (WaitSafe ⟨miso, stack₁⟩ ⟨miso, stack₂⟩) buf sector cnt s) :
    dataPhase ⟨miso, stack₁⟩ buf sector cnt s = dataPhase ⟨miso, stack₂⟩ buf sector cnt s := by
  unfold dataPhase
  apply bind_same (sendCmd_same h.1)
  by_cases hacc : (sendCmd ⟨miso, stack₁⟩ CMD25 sector 0x01 s).1 = 0
  · rw [if_pos hacc, if_pos hacc]
    have hwaits := h.2 hacc
    apply bind_same (writeBlocks_same hwaits.1)
    apply bind_same (sdSendBlock_same hwaits.2)
    rfl
  · rw [if_neg hacc, if_neg hacc]
    rfl

theorem sdWriteDisk_same {buf : ℕ} {sector : Word} {cnt : Byte} {s : State}
    (h : writeDiskWaits ⟨miso, stack₁⟩ (WaitSafe ⟨miso, stack₁⟩ ⟨miso, stack₂⟩) buf sector cnt s) :
    sdWriteDisk ⟨miso, stack₁⟩ buf sector cnt s = sdWriteDisk ⟨miso, stack₂⟩ buf sector cnt s := by
  unfold sdWriteDisk writeDiskWaits at *
  rw [bind_of (get_run s), bind_of (get_run s)]
  by_cases hcnt : cnt = 1
  · rw [if_pos hcnt] at h
    simp only [hcnt, if_true]
    apply bind_same (sendCmd_same h.1)
    by_cases hacc : (sendCmd ⟨miso, stack₁⟩ CMD24 (address s.SD_Type sector) 0x01 s).1 = 0
    · rw [if_pos hacc, if_pos hacc]
      apply bind_same (sdSendBlock_same (h.2 hacc))
      rfl
    · rw [if_neg hacc, if_neg hacc]
      rfl
  · rw [if_neg hcnt] at h
    simp only [hcnt, if_false]
    by_cases hmmc : s.SD_Type ≠ SD_TYPE_MMC
    · rw [if_pos hmmc] at h
      rw [if_pos hmmc, if_pos hmmc]
      apply bind_same (sendCmd_same h.1.1)
      apply bind_same (sendCmd_same h.1.2)
      exact dataPhase_same h.2
    · rw [if_neg hmmc] at h
      rw [if_neg hmmc, if_neg hmmc]
      exact dataPhase_same h

theorem Call.run_same {call : Call} {s : State}
    (h : call.Waits ⟨miso, stack₁⟩ (WaitSafe ⟨miso, stack₁⟩ ⟨miso, stack₂⟩) s) :
    call.run ⟨miso, stack₁⟩ s = call.run ⟨miso, stack₂⟩ s := by
  cases call with
  | sdWaiteReady => exact wait_same h
  | sdSelect => exact sdSelect_same h
  | sendCmd cmd arg crc => exact sendCmd_same h
  | sdSendBlock buf cmd => exact sdSendBlock_same h
  | sdReadDisk buf sec cnt => exact sdReadDisk_same h
  | sdWriteDisk buf sector cnt => exact sdWriteDisk_same h

/-- Two runs of a call are alike: each of its waits, the status and the bytes on the bus. -/
structure Alike (c₁ c₂ : Card) (call : Call) (s : State) : Prop where
  waits : call.Waits c₁ (WaitAlike c₁ c₂) s
  status : (call.run c₁ s).1 = (call.run c₂ s).1
  bytes : (call.run c₁ s).2.sent = (call.run c₂ s).2.sent

theorem alike_iff (miso : ℕ → Byte) (stack₁ stack₂ : ℕ → Word) (call : Call) (s : State) :
    Alike ⟨miso, stack₁⟩ ⟨miso, stack₂⟩ call s ↔
      call.Waits ⟨miso, stack₁⟩ (WaitSafe ⟨miso, stack₁⟩ ⟨miso, stack₂⟩) s := by
  constructor
  · intro h
    exact (call.waits_iff _ waitAlike_iff s).mp h.waits
  · intro h
    have hsame := Call.run_same h
    exact ⟨(call.waits_iff _ waitAlike_iff s).mpr h, congrArg Prod.fst hsame,
      congrArg (fun x => x.2.sent) hsame⟩

/- A card that is busy for one byte, and a counter left one step below the bound. -/
theorem sdWaiteReady_counter :
    ¬ Alike ⟨fun n => if n = 0 then 0 else 0xff, fun _ => 0⟩
      ⟨fun n => if n = 0 then 0 else 0xff, fun _ => 0xfffffe⟩ .sdWaiteReady powerUp := by
  intro h
  have hready : (sdWaiteReady ⟨fun n => if n = 0 then 0 else 0xff, fun _ => 0⟩ powerUp).1 = 0 := rfl
  have hlate : (sdWaiteReady ⟨fun n => if n = 0 then 0 else 0xff, fun _ => 0xfffffe⟩ powerUp).1 = 0xff := rfl
  have hstatus := hready.symm.trans (h.status.trans hlate)
  exact absurd hstatus (by decide)

end MultiEmbedded.Sd
