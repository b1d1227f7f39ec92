import SynaBoot.BootControl

namespace SynaBoot.UBootSlots

open SynaBoot.BootControl

/-- The MMC build drops the result of the block write. -/
inductive WriteOutcome where
  | error
  | lost
  | stored
  deriving DecidableEq, Repr

structure Env where
  readOk : Bool
  write : WriteOutcome
  bootSlot : BootSel

def isValidBootctrl (m : BootCtrl) : Bool :=
  m.magic == bootctrlMagic && m.version == miscBootControlVersion

def slotIsBootable (m : SlotMetadata) : Bool :=
  decide (0 < m.priority) && (m.successfulBoot != 0 || decide (0 < m.triesRemaining))

def writeBootctrlMetadata (env : Env) (new misc : BootCtrl) : Int × BootCtrl :=
  match env.write with
  | .error => (-1, misc)
  | .lost => (0, misc)
  | .stored => (0, new)

def getBootctrlMetadata (env : Env) (misc : BootCtrl) : Option BootCtrl :=
  if env.readOk then some misc else none

def initBootctrl (env : Env) (defaultSlot : Slot) (misc : BootCtrl) : Int × BootCtrl :=
  writeBootctrlMetadata env (defaultBootctrl defaultSlot) misc

def selectSlot (m : BootCtrl) : Slot :=
  let p := m.slotInfo .a
  let q := m.slotInfo .b
  if p.priority != q.priority then prefer p.priority q.priority
  else if p.successfulBoot != q.successfulBoot then prefer p.successfulBoot q.successfulBoot
  else if p.triesRemaining != q.triesRemaining then prefer p.triesRemaining q.triesRemaining
  else bootselDefault

def getCurrentSlot (env : Env) (misc : BootCtrl) : BootSel × BootCtrl :=
  match getBootctrlMetadata env misc with
  | none => (env.bootSlot, misc)
  | some m =>
    if isValidBootctrl m then
      if slotIsBootable (m.slotInfo .a) && slotIsBootable (m.slotInfo .b) then
        (.slot (selectSlot m), misc)
      else if slotIsBootable (m.slotInfo .a) then (.slot .a, misc)
      else if slotIsBootable (m.slotInfo .b) then (.slot .b, misc)
      else (.invalid, misc)
    else
      let (res, misc) := initBootctrl env bootselDefault misc
      if res = 0 then (.slot bootselDefault, misc) else (.invalid, misc)

/-- The metadata `set_active_slot` writes over valid metadata. -/
def activate (m : BootCtrl) (s : Slot) : BootCtrl :=
  let target := { m.slotInfo s with successfulBoot := 0, priority := 15, triesRemaining := 2 }
  let rival := m.slotInfo s.other
  let rival := if 15 ≤ rival.priority then { rival with priority := 14 } else rival
  { m with slotInfo := fun t => if t = s then target else rival }

def slotOfIndex : Nat → Option Slot
  | 0 => some .a
  | 1 => some .b
  | _ => none

def setActiveSlot (env : Env) (slotIndex : Nat) (misc : BootCtrl) : Bool × BootCtrl :=
  match slotOfIndex slotIndex with
  | none => (false, misc)
  | some s =>
    match getBootctrlMetadata env misc with
    | none => (false, misc)
    | some m =>
      let (res, misc) :=
        if isValidBootctrl m then writeBootctrlMetadata env (activate m s) misc
        else initBootctrl env s misc
      (decide (res = 0), misc)

/-- The code says whether to retry. -/
def tryAbmode (env : Env) (s : Slot) (misc : BootCtrl) : Int × BootCtrl :=
  match getBootctrlMetadata env misc with
  | none => (1, misc)
  | some m =>
    let info := m.slotInfo s
    if isValidBootctrl m && decide (0 < info.triesRemaining) then
      let info := { info with triesRemaining := info.triesRemaining - 1 }
      (0, (writeBootctrlMetadata env { m with slotInfo := Function.update m.slotInfo s info } misc).2)
    else if isValidBootctrl m then
      let info := { info with priority := info.priority - 2 }
      (-1, (writeBootctrlMetadata env { m with slotInfo := Function.update m.slotInfo s info } misc).2)
    else (1, misc)

end SynaBoot.UBootSlots
