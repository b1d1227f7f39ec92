import SynaBoot.BootControl

namespace SynaBoot.EarlyLoader

open SynaBoot.BootControl

/-- What the early loader finds outside its own state. -/
structure Env where
  readOk : Bool
  writeOk : Bool
  tempBuf : BootCtrl
  configSm : Bool
  genxBootSlot : BootSel

structure Loader where
  devinfoExist : Bool
  miscExist : Bool
  miscBctrl : BootCtrl
  misc : BootCtrl
  rebootMode : UInt32
  bootAbSel : BootSel

def rebootModeNormal : UInt32 := 0x0
def rebootModeDeviceCorrupted : UInt32 := 0x12513991

def bootctrlIsExist (l : Loader) : Bool := l.devinfoExist || l.miscExist

def bootctrlIsValid (l : Loader) : Bool :=
  bootctrlIsExist l &&
    (l.miscBctrl.magic == bootctrlMagic && l.miscBctrl.version == miscBootControlVersion)

def bootable (m : SlotMetadata) : Bool :=
  decide (1 < m.priority) && m.verityCorrupted == 0 &&
    (m.successfulBoot != 0 || decide (0 < m.triesRemaining))

def slotIsBootable (l : Loader) (s : Slot) : Bool :=
  bootctrlIsExist l && bootable (l.miscBctrl.slotInfo s)

def bootabSlotSelect (l : Loader) : Slot :=
  let p := l.miscBctrl.slotInfo .a
  let q := l.miscBctrl.slotInfo .b
  if bootctrlIsExist l then
    if p.priority != q.priority then prefer p.priority q.priority
    else if p.successfulBoot != q.successfulBoot then prefer p.successfulBoot q.successfulBoot
    else if p.triesRemaining != q.triesRemaining then prefer p.triesRemaining q.triesRemaining
    else bootselDefault
  else bootselDefault

def writeBootctrlMetadata (env : Env) (l : Loader) : Int × Loader :=
  if bootctrlIsExist l then
    if env.writeOk then (0, { l with misc := l.miscBctrl }) else (-1, l)
  else (0, l)

def initBootctrl (env : Env) (defaultSlot : Slot) (l : Loader) : Loader :=
  if bootctrlIsExist l then
    (writeBootctrlMetadata env { l with miscBctrl := defaultBootctrl defaultSlot }).2
  else l

def setSlot (m : BootCtrl) (s : Slot) (v : SlotMetadata) : BootCtrl :=
  { m with slotInfo := Function.update m.slotInfo s v }

theorem setSlot_self (m : BootCtrl) (s : Slot) (v : SlotMetadata) : (setSlot m s v).slotInfo s = v := by
  simp [setSlot]

theorem setSlot_of_ne (m : BootCtrl) (s t : Slot) (v : SlotMetadata) (h : t ≠ s) :
    (setSlot m s v).slotInfo t = m.slotInfo t := by
  simp [setSlot, h]

def setVerityCorrupted (m : BootCtrl) (s : Slot) : BootCtrl :=
  setSlot m s { m.slotInfo s with verityCorrupted := 1 }

def checkDmverityDeviceCorrupted (env : Env) (sel : BootSel) (l : Loader) : BootSel × Loader :=
  if env.configSm && l.rebootMode == rebootModeDeviceCorrupted then
    let final : Slot := if sel = .slot .a then .b else .a
    if slotIsBootable l final then
      let l := match l.devinfoExist, sel with
        | true, .slot s =>
          (writeBootctrlMetadata env { l with miscBctrl := setVerityCorrupted l.miscBctrl s }).2
        | _, _ => l
      (.slot final, { l with rebootMode := rebootModeNormal })
    else (.invalid, l)
  else (sel, l)

def checkAndroidAbcommand (env : Env) (l : Loader) : BootSel × Loader :=
  if bootctrlIsValid l then
    if slotIsBootable l .a && slotIsBootable l .b then
      checkDmverityDeviceCorrupted env (.slot (bootabSlotSelect l)) l
    else if slotIsBootable l .a then checkDmverityDeviceCorrupted env (.slot .a) l
    else if slotIsBootable l .b then checkDmverityDeviceCorrupted env (.slot .b) l
    else (.invalid, l)
  else if bootctrlIsExist l then
    checkDmverityDeviceCorrupted env (.slot bootselDefault) (initBootctrl env bootselDefault l)
  else checkDmverityDeviceCorrupted env env.genxBootSlot l

/-- A failed read is only logged; the scratch buffer is copied all the same. -/
def initAbmode (env : Env) (l : Loader) : Loader :=
  if bootctrlIsExist l then
    { l with miscBctrl := if env.readOk then l.misc else env.tempBuf }
  else l

def checkAbmode (env : Env) (l : Loader) : BootSel × Loader :=
  let (sel, l) := checkAndroidAbcommand env l
  (sel, { l with bootAbSel := sel })

/-- The code says whether the same slot may be tried again. -/
def tryAbmode (env : Env) (s : Slot) (l : Loader) : Int × Loader :=
  if bootctrlIsExist l then
    let info := l.miscBctrl.slotInfo s
    if bootctrlIsValid l && decide (0 < info.triesRemaining) then
      let info := { info with triesRemaining := info.triesRemaining - 1 }
      (0, (writeBootctrlMetadata env { l with miscBctrl := setSlot l.miscBctrl s info }).2)
    else if bootctrlIsValid l then
      let info := { info with priority := info.priority - 2 }
      (-1, (writeBootctrlMetadata env { l with miscBctrl := setSlot l.miscBctrl s info }).2)
    else (1, l)
  else (-1, l)

theorem checkDmverity_no_flag (env : Env) (sel : BootSel) (l : Loader)
    (hflag : l.rebootMode ≠ rebootModeDeviceCorrupted) :
    checkDmverityDeviceCorrupted env sel l = (sel, l) := by
  unfold checkDmverityDeviceCorrupted
  rw [if_neg]
  simp [hflag]

theorem checkAbmode_valid (env : Env) (l : Loader) (hvalid : bootctrlIsValid l = true)
    (hflag : l.rebootMode ≠ rebootModeDeviceCorrupted) :
    (∃ s, slotIsBootable l s = true ∧ checkAbmode env l = (.slot s, { l with bootAbSel := .slot s })) ∨
      checkAbmode env l = (.invalid, { l with bootAbSel := .invalid }) := by
  unfold checkAbmode checkAndroidAbcommand
  simp only [hvalid, if_true, checkDmverity_no_flag _ _ _ hflag, Bool.and_eq_true]
  split
  · rename_i h
    left
    refine ⟨bootabSlotSelect l, ?_, rfl⟩
    cases bootabSlotSelect l with
    | a => exact h.1
    | b => exact h.2
  · split
    · exact .inl ⟨.a, ‹_›, rfl⟩
    · split
      · exact .inl ⟨.b, ‹_›, rfl⟩
      · exact .inr rfl

end SynaBoot.EarlyLoader
