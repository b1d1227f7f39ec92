import SynaBoot.StringArea

namespace SynaBoot.BootMode

open SynaBoot.StringArea

inductive Mode where
  | normal
  | recovery
  | fastboot
  | other (code : Int)
  deriving DecidableEq, Repr

def text (s : String) : List UInt8 := s.toList.map fun c => UInt8.ofNat c.toNat

def kFtsBootcmdRecovery : List UInt8 := text "boot-recovery"
def kFtsBootcmdFastboot : List UInt8 := text "bootonce-bootloader"
def kBootcmdFastbootd : List UInt8 := text "boot-fastboot"

def devinfoName : String := "devinfo"
def miscName : String := "misc"

def rebootModeBootloader : UInt32 := 0x29012002
def rebootModeRecovery : UInt32 := 0x11092017

/-- `struct boot_info`, the content of the devinfo partition. -/
structure BootInfo where
  macAddr : List UInt8
  serialno : List UInt8
  command : List UInt8
  bootOption : List UInt8
  debegLevel : Int

/-- `struct bootloader_message`, the start of the misc partition. -/
structure BootloaderMessage where
  command : List UInt8
  status : List UInt8
  recovery : List UInt8
  stage : List UInt8

structure Flash where
  table : List String
  devinfo : BootInfo
  misc : BootloaderMessage

structure Loader where
  devinfoExist : Bool
  miscExist : Bool
  bootInfo : BootInfo
  bootmode : Mode
  flash : Flash

structure Env where
  readOk : Bool
  writeOk : Bool
  socRamParamEnable : Bool
  rebootMode : UInt32

def strncmp : Nat → List UInt8 → List UInt8 → UInt8
  | 0, _, _ => 0
  | n + 1, x, y =>
    let res := x.headD 0 - y.headD 0
    if res ≠ 0 ∨ x.headD 0 = 0 then res else strncmp n x.tail y.tail

def strcpy (dst src : List UInt8) : List UInt8 := src ++ 0 :: dst.drop (src.length + 1)

def findPartition (table : List String) (name : String) : Int :=
  match table.idxOf? name with
  | some i => i
  | none => -1

def isCommand (buffer k : List UInt8) : Bool := strncmp (k.length + 1) buffer k == 0

def miscMode (msg : BootloaderMessage) : Mode :=
  if isCommand msg.command kFtsBootcmdRecovery then .recovery
  else if isCommand msg.command kFtsBootcmdFastboot then .fastboot
  else if isCommand msg.command kBootcmdFastbootd then .recovery
  else .normal

def checkMiscCommand (env : Env) (l : Loader) : Mode :=
  if 0 ≤ findPartition l.flash.table miscName then
    if env.readOk then miscMode l.flash.misc else .normal
  else .normal

def setMiscCommand (env : Env) (command : List UInt8) (l : Loader) : Loader :=
  if 0 ≤ findPartition l.flash.table miscName ∧ env.readOk = true ∧
      (command = kFtsBootcmdRecovery ∨ command = kFtsBootcmdFastboot) ∧ env.writeOk = true then
    let msg := { l.flash.misc with command := strcpy (List.replicate 32 0) command }
    { l with flash := { l.flash with misc := msg } }
  else l

def readBootInfoFromFlash (env : Env) (l : Loader) : Loader :=
  if env.readOk then { l with bootInfo := l.flash.devinfo } else l

def writeBootInfoToFlash (env : Env) (l : Loader) : Loader :=
  if env.writeOk then { l with flash := { l.flash with devinfo := l.bootInfo } } else l

def setCommandToBootInfo (env : Env) (command : List UInt8) (l : Loader) : Loader :=
  writeBootInfoToFlash env
    { l with bootInfo := { l.bootInfo with command := strcpy l.bootInfo.command command } }

def writeAndroidBootloaderMessage (env : Env) (command : List UInt8) (l : Loader) : Loader :=
  if l.devinfoExist then setMiscCommand env command (setCommandToBootInfo env command l) else l

def checkAndroidBootcommand (env : Env) (l : Loader) : Mode :=
  let bootCommand := if l.devinfoExist then l.bootInfo.command else []
  if isCommand bootCommand kFtsBootcmdFastboot then .fastboot
  else if isCommand bootCommand kFtsBootcmdRecovery then .recovery
  else if checkMiscCommand env l = .recovery then .recovery
  else if checkMiscCommand env l = .fastboot then .fastboot
  else if env.socRamParamEnable && env.rebootMode == rebootModeRecovery then .recovery
  else if env.socRamParamEnable && env.rebootMode == rebootModeBootloader then .fastboot
  else .normal

/-- A partition counts as existing only at an index above 0. -/
def initBootmode (env : Env) (l : Loader) : Loader :=
  let l := if 0 < findPartition l.flash.table devinfoName then
    readBootInfoFromFlash env { l with devinfoExist := true } else l
  if 0 < findPartition l.flash.table miscName then { l with miscExist := true } else l

def checkBootmode (env : Env) (l : Loader) : Mode × Loader :=
  let mode := checkAndroidBootcommand env l
  (mode, { l with bootmode := mode })

def setBootmode (env : Env) (bootMode : Mode) (l : Loader) : Loader :=
  let l := match bootMode with
    | .recovery => writeAndroidBootloaderMessage env kFtsBootcmdRecovery l
    | .fastboot => writeAndroidBootloaderMessage env kFtsBootcmdFastboot l
    | .normal => writeAndroidBootloaderMessage env (text "done") l
    | .other _ => l
  { l with bootmode := bootMode }

def powerOn (flash : Flash) : Loader where
  devinfoExist := false
  miscExist := false
  bootInfo := ⟨[], [], [], [], 0⟩
  bootmode := .normal
  flash := flash

theorem strncmp_succ (n : Nat) (x y : List UInt8) :
    strncmp (n + 1) x y = 0 ↔
      x.headD 0 = y.headD 0 ∧ (x.headD 0 = 0 ∨ strncmp n x.tail y.tail = 0) := by
  rw [strncmp]
  generalize x.headD 0 = b
  generalize y.headD 0 = c
  have hsub : b - c = 0 ↔ b = c := by
    constructor
    · intro h
      rw [← UInt8.sub_add_cancel b c, h, UInt8.zero_add]
    · intro h
      rw [h, UInt8.sub_self]
  by_cases hbc : b = c
  · subst hbc
    by_cases hb : b = 0 <;> simp [hb]
  · simp [hsub, hbc]

theorem strncmp_eq_zero_iff (k buffer : List UInt8) (hk : 0 ∉ k) :
    strncmp (k.length + 1) buffer k = 0 ↔ buffer.takeWhile (· ≠ 0) = k := by
  induction k generalizing buffer with
  | nil =>
    cases buffer with
    | nil => simp [strncmp]
    | cons b buffer => by_cases hb : b = 0 <;> simp [strncmp, hb]
  | cons c k ih =>
    rw [List.mem_cons, not_or] at hk
    rw [List.length_cons, strncmp_succ]
    cases buffer with
    | nil => simp [hk.1]
    | cons b buffer =>
      simp only [List.headD_cons, List.tail_cons, ih buffer hk.2]
      by_cases hb : b = 0
      · simp [hb, hk.1]
      · simp [hb]

theorem isCommand_iff (k buffer : List UInt8) (hk : 0 ∉ k) :
    isCommand buffer k = true ↔ buffer.takeWhile (· ≠ 0) = k := by
  rw [isCommand, beq_iff_eq]
  exact strncmp_eq_zero_iff k buffer hk

theorem isCommand_strcpy (k command dst : List UInt8) (hk : 0 ∉ k) (hc : 0 ∉ command) :
    isCommand (strcpy dst command) k = true ↔ command = k := by
  rw [isCommand_iff k _ hk, strcpy, takeWhile_terminated 0 hc]

theorem commands_distinct :
    0 ∉ kFtsBootcmdRecovery ∧ 0 ∉ kFtsBootcmdFastboot ∧ 0 ∉ text "done" ∧
      kFtsBootcmdRecovery ≠ kFtsBootcmdFastboot ∧ text "done" ≠ kFtsBootcmdRecovery ∧
      text "done" ≠ kFtsBootcmdFastboot := by
  decide

theorem checkAndroidBootcommand_misc (env : Env) (l : Loader) (hread : env.readOk = true)
    (hmisc : 0 ≤ findPartition l.flash.table miscName)
    (hmagic : env.rebootMode ≠ rebootModeRecovery ∧ env.rebootMode ≠ rebootModeBootloader)
    (hrec : isCommand (if l.devinfoExist then l.bootInfo.command else []) kFtsBootcmdRecovery = false)
    (hfast : isCommand (if l.devinfoExist then l.bootInfo.command else []) kFtsBootcmdFastboot = false) :
    checkAndroidBootcommand env l = miscMode l.flash.misc := by
  have hcheck : checkMiscCommand env l = miscMode l.flash.misc := by
    rw [checkMiscCommand, if_pos hmisc, if_pos hread]
  unfold checkAndroidBootcommand
  simp only [hrec, hfast, hcheck, hmagic.1, hmagic.2, beq_iff_eq, Bool.and_eq_true, and_false,
    Bool.false_eq_true, if_false]
  unfold miscMode
  split
  · rfl
  · split
    · rfl
    · split <;> rfl

theorem initBootmode_flash (env : Env) (l : Loader) : (initBootmode env l).flash = l.flash := by
  have hinfo : ∀ r, (readBootInfoFromFlash env r).flash = r.flash := by
    intro r
    unfold readBootInfoFromFlash
    split <;> rfl
  have hmisc : ∀ r : Loader, (if 0 < findPartition r.flash.table miscName then
      { r with miscExist := true } else r).flash = r.flash := by
    intro r
    split <;> rfl
  unfold initBootmode
  rw [hmisc]
  split
  · rw [hinfo]
  · rfl

theorem initBootmode_absent (env : Env) (l : Loader)
    (hdev : ¬ 0 < findPartition l.flash.table devinfoName) :
    (initBootmode env l).devinfoExist = l.devinfoExist := by
  unfold initBootmode
  rw [if_neg hdev]
  simp only
  split <;> rfl

theorem initBootmode_present (env : Env) (l : Loader) (hread : env.readOk = true)
    (hdev : 0 < findPartition l.flash.table devinfoName) :
    (initBootmode env l).devinfoExist = true ∧ (initBootmode env l).bootInfo = l.flash.devinfo := by
  unfold initBootmode readBootInfoFromFlash
  rw [if_pos hdev, if_pos hread]
  simp only
  split <;> exact ⟨rfl, rfl⟩

theorem setMiscCommand_frame (env : Env) (command : List UInt8) (l : Loader) :
    ∃ misc, (setMiscCommand env command l).flash = { l.flash with misc := misc } := by
  unfold setMiscCommand
  split
  · exact ⟨_, rfl⟩
  · exact ⟨l.flash.misc, rfl⟩

theorem writeAndroidBootloaderMessage_flash (env : Env) (command : List UInt8) (l : Loader)
    (hdev : l.devinfoExist = true) (hwrite : env.writeOk = true) :
    ∃ misc, (writeAndroidBootloaderMessage env command l).flash = { l.flash with
      devinfo := { l.bootInfo with command := strcpy l.bootInfo.command command }, misc := misc } := by
  unfold writeAndroidBootloaderMessage setCommandToBootInfo writeBootInfoToFlash
  simp only [hdev, hwrite, if_true]
  exact setMiscCommand_frame env command _

theorem writeAndroidBootloaderMessage_done (env : Env) (l : Loader) :
    (writeAndroidBootloaderMessage env (text "done") l).flash.misc = l.flash.misc := by
  obtain ⟨-, -, -, -, hrec, hfast⟩ := commands_distinct
  have hset : ∀ r, setMiscCommand env (text "done") r = r := by
    intro r
    unfold setMiscCommand
    rw [if_neg]
    rintro ⟨-, -, h | h, -⟩
    · exact hrec h
    · exact hfast h
  unfold writeAndroidBootloaderMessage setCommandToBootInfo writeBootInfoToFlash
  split
  · rw [hset]
    split <;> rfl
  · rfl

def modeCommand : Mode → List UInt8
  | .recovery => kFtsBootcmdRecovery
  | .fastboot => kFtsBootcmdFastboot
  | .normal | .other _ => text "done"

def Reserved (m : Mode) : Prop := m = .normal ∨ m = .recovery ∨ m = .fastboot

theorem setBootmode_flash (env : Env) (m : Mode) (hm : Reserved m) (l : Loader) :
    (setBootmode env m l).flash = (writeAndroidBootloaderMessage env (modeCommand m) l).flash := by
  obtain rfl | rfl | rfl := hm <;> rfl

theorem isCommand_nil (k : List UInt8) (hk : 0 ∉ k) (hne : k ≠ []) : isCommand [] k = false := by
  rw [Bool.eq_false_iff, ne_eq, isCommand_iff k [] hk]
  exact fun h => hne h.symm

def rebootMode (next : Env) (flash : Flash) : Mode :=
  (checkBootmode next (initBootmode next (powerOn flash))).1

theorem rebootMode_present (next : Env) (flash : Flash) (m : Mode) (hm : Reserved m)
    (dst : List UInt8) (hcommand : flash.devinfo.command = strcpy dst (modeCommand m))
    (hdev : 0 < findPartition flash.table devinfoName)
    (hmisc : 0 ≤ findPartition flash.table miscName) (hread : next.readOk = true)
    (hmagic : next.rebootMode ≠ rebootModeRecovery ∧ next.rebootMode ≠ rebootModeBootloader) :
    rebootMode next flash = if m = .normal then miscMode flash.misc else m := by
  obtain ⟨hrec, hfast, hdone, hrf, hdr, hdf⟩ := commands_distinct
  obtain ⟨hexist, hinfo⟩ := initBootmode_present next (powerOn flash) hread hdev
  have hflash := initBootmode_flash next (powerOn flash)
  have hbuffer : (if (initBootmode next (powerOn flash)).devinfoExist then
      (initBootmode next (powerOn flash)).bootInfo.command else []) = strcpy dst (modeCommand m) := by
    rw [if_pos hexist, hinfo]
    exact hcommand
  obtain rfl | rfl | rfl := hm
  · rw [if_pos rfl]
    have hno : ∀ k, 0 ∉ k → text "done" ≠ k →
        isCommand (strcpy dst (modeCommand .normal)) k = false := by
      intro k hk hne
      rw [Bool.eq_false_iff, ne_eq, modeCommand, isCommand_strcpy k _ dst hk hdone]
      exact hne
    have h := checkAndroidBootcommand_misc next (initBootmode next (powerOn flash)) hread
      (by rw [hflash]; exact hmisc) hmagic (by rw [hbuffer]; exact hno _ hrec hdr)
      (by rw [hbuffer]; exact hno _ hfast hdf)
    rw [hflash] at h
    exact h
  · have hf : isCommand (strcpy dst (modeCommand .recovery)) kFtsBootcmdFastboot = false := by
      rw [Bool.eq_false_iff, ne_eq, modeCommand, isCommand_strcpy _ _ dst hfast hrec]
      exact hrf
    have hr : isCommand (strcpy dst (modeCommand .recovery)) kFtsBootcmdRecovery = true :=
      (isCommand_strcpy _ _ dst hrec hrec).mpr rfl
    unfold rebootMode checkBootmode checkAndroidBootcommand
    simp only [hbuffer, hf, hr, if_true, Bool.false_eq_true, if_false]
    rfl
  · have hf : isCommand (strcpy dst (modeCommand .fastboot)) kFtsBootcmdFastboot = true :=
      (isCommand_strcpy _ _ dst hfast hfast).mpr rfl
    unfold rebootMode checkBootmode checkAndroidBootcommand
    simp only [hbuffer, hf, if_true]
    rfl

theorem rebootMode_absent (next : Env) (flash : Flash)
    (hdev : ¬ 0 < findPartition flash.table devinfoName)
    (hmisc : 0 ≤ findPartition flash.table miscName) (hread : next.readOk = true)
    (hmagic : next.rebootMode ≠ rebootModeRecovery ∧ next.rebootMode ≠ rebootModeBootloader) :
    rebootMode next flash = miscMode flash.misc := by
  obtain ⟨hrec, hfast, -⟩ := commands_distinct
  have hflash := initBootmode_flash next (powerOn flash)
  have hexist : (initBootmode next (powerOn flash)).devinfoExist = false :=
    initBootmode_absent next (powerOn flash) hdev
  have h := checkAndroidBootcommand_misc next (initBootmode next (powerOn flash)) hread
    (by rw [hflash]; exact hmisc) hmagic
    (by rw [hexist]; exact isCommand_nil _ hrec (by decide))
    (by rw [hexist]; exact isCommand_nil _ hfast (by decide))
  rw [hflash] at h
  exact h

def workingFlash : Env where
  readOk := true
  writeOk := true
  socRamParamEnable := true
  rebootMode := 0

def flashWith (table : List String) (command : List UInt8) : Flash where
  table := table
  devinfo := ⟨[], [], [], [], 0⟩
  misc := ⟨command, [], [], []⟩

end SynaBoot.BootMode
