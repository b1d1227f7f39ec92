import Mathlib.Tactic

namespace SynaBoot.CecSrv

namespace Opcode

def featureAbort : UInt8 := 0x00
def imageViewOn : UInt8 := 0x04
def tunerDeviceStatus : UInt8 := 0x07
def recordStatus : UInt8 := 0x0a
def textViewOn : UInt8 := 0x0d
def recordTvScreen : UInt8 := 0x0f
def giveDeckStatus : UInt8 := 0x1a
def deckStatus : UInt8 := 0x1b
def setMenuLang : UInt8 := 0x32
def timerStatus : UInt8 := 0x35
def standby : UInt8 := 0x36
def play : UInt8 := 0x41
def deckControl : UInt8 := 0x42
def timerClearedStatus : UInt8 := 0x43
def userControlPressed : UInt8 := 0x44
def userControlReleased : UInt8 := 0x45
def giveOsdName : UInt8 := 0x46
def setOsdName : UInt8 := 0x47
def setSysAudioMode : UInt8 := 0x72
def reportAudioStatus : UInt8 := 0x7a
def routingChange : UInt8 := 0x80
def routingInfo : UInt8 := 0x81
def activeSource : UInt8 := 0x82
def givePhyAddr : UInt8 := 0x83
def reportPhyAddr : UInt8 := 0x84
def requestActiveSource : UInt8 := 0x85
def setStreamPath : UInt8 := 0x86
def deviceVendorId : UInt8 := 0x87
def vendorCommand : UInt8 := 0x89
def vendorRemoteBtnDown : UInt8 := 0x8a
def vendorRemoteBtnUp : UInt8 := 0x8b
def giveDeviceVendorId : UInt8 := 0x8c
def menuRequest : UInt8 := 0x8d
def menuStatus : UInt8 := 0x8e
def giveDevicePowerStatus : UInt8 := 0x8f
def reportPowerStatus : UInt8 := 0x90
def getMenuLang : UInt8 := 0x91
def inactiveSource : UInt8 := 0x9d
def cecVersion : UInt8 := 0x9e
def getCecVersion : UInt8 := 0x9f
def vendorCommandWithId : UInt8 := 0xa0
def abort : UInt8 := 0xff

end Opcode

def unicast : UInt8 := 1

def broadcast : UInt8 := 2

structure TableEntry where
  opcode : UInt8
  len : UInt8
  mode : UInt8
  rxactionReqd : Bool
  deriving DecidableEq, Repr

open Opcode in
def msgTableTv : List TableEntry :=
  [⟨featureAbort, 2, unicast, false⟩,
   ⟨abort, 0, unicast, true⟩,
   ⟨imageViewOn, 0, unicast, true⟩,
   ⟨textViewOn, 0, unicast, true⟩,
   ⟨inactiveSource, 2, unicast, true⟩,
   ⟨standby, 0, unicast, false⟩,
   ⟨getMenuLang, 0, unicast, true⟩,
   ⟨givePhyAddr, 0, unicast, true⟩,
   ⟨getCecVersion, 0, unicast, true⟩,
   ⟨setOsdName, 1, unicast, true⟩,
   ⟨userControlPressed, 1, unicast, true⟩,
   ⟨userControlReleased, 0, unicast, false⟩,
   ⟨giveDevicePowerStatus, 0, unicast, true⟩,
   ⟨reportPowerStatus, 1, unicast, true⟩,
   ⟨reportAudioStatus, 1, unicast, true⟩,
   ⟨setSysAudioMode, 1, unicast, true⟩,
   ⟨menuStatus, 1, unicast, true⟩,
   ⟨deckStatus, 1, unicast, true⟩,
   ⟨recordStatus, 1, unicast, true⟩,
   ⟨recordTvScreen, 0, unicast, true⟩,
   ⟨tunerDeviceStatus, 5, unicast, true⟩,
   ⟨timerStatus, 1, unicast, true⟩,
   ⟨timerClearedStatus, 1, unicast, true⟩,
   ⟨giveDeviceVendorId, 0, unicast, true⟩,
   ⟨vendorCommand, 1, unicast, true⟩,
   ⟨vendorCommandWithId, 3, unicast, true⟩,
   ⟨vendorRemoteBtnUp, 0, unicast, true⟩,
   ⟨vendorRemoteBtnDown, 1, unicast, true⟩]

open Opcode in
def msgTableBox : List TableEntry :=
  [⟨featureAbort, 2, unicast, false⟩,
   ⟨abort, 0, unicast, true⟩,
   ⟨activeSource, 2, broadcast, true⟩,
   ⟨imageViewOn, 0, unicast, false⟩,
   ⟨requestActiveSource, 0, broadcast, false⟩,
   ⟨setStreamPath, 2, broadcast, true⟩,
   ⟨routingChange, 4, broadcast, true⟩,
   ⟨routingInfo, 2, broadcast, false⟩,
   ⟨inactiveSource, 2, unicast, true⟩,
   ⟨standby, 0, broadcast ||| unicast, false⟩,
   ⟨getMenuLang, 0, unicast, true⟩,
   ⟨setMenuLang, 3, broadcast, false⟩,
   ⟨givePhyAddr, 0, unicast, true⟩,
   ⟨reportPhyAddr, 3, broadcast, false⟩,
   ⟨cecVersion, 1, unicast, false⟩,
   ⟨getCecVersion, 0, unicast, true⟩,
   ⟨deckStatus, 1, unicast, false⟩,
   ⟨giveDeckStatus, 1, unicast, true⟩,
   ⟨deckControl, 1, unicast, true⟩,
   ⟨play, 1, unicast, true⟩,
   ⟨giveOsdName, 0, unicast, true⟩,
   ⟨setOsdName, 1, unicast, false⟩,
   ⟨userControlPressed, 1, unicast, true⟩,
   ⟨userControlReleased, 0, unicast, true⟩,
   ⟨menuRequest, 1, unicast, true⟩,
   ⟨menuStatus, 1, unicast, false⟩,
   ⟨giveDevicePowerStatus, 0, unicast, true⟩,
   ⟨reportPowerStatus, 1, unicast, false⟩,
   ⟨giveDeviceVendorId, 0, unicast, true⟩,
   ⟨vendorRemoteBtnUp, 0, unicast, true⟩,
   ⟨vendorRemoteBtnDown, 1, unicast, true⟩,
   ⟨vendorCommandWithId, 3, unicast, true⟩]

inductive Operand where
  | none
  | phyAddr (addr : UInt16)
  | routingChange (origPhyAddr newPhyAddr : UInt16)
  | byte (b : UInt8)
  | playext (uccode playmode : UInt8)
  | vendor (bytes : List UInt8)
  deriving DecidableEq, Repr

def Operand.first : Operand → UInt8
  | .none => 0
  | .phyAddr addr => addr.toUInt8
  | .routingChange origPhyAddr _ => origPhyAddr.toUInt8
  | .byte b => b
  | .playext uccode _ => uccode
  | .vendor bytes => bytes.getD 0 0

def Operand.addr : Operand → UInt16
  | .phyAddr addr => addr
  | _ => 0

structure Msg where
  srcAddr : UInt8
  destAddr : UInt8
  opcode : UInt8
  operandlen : UInt8
  operand : Operand
  deriving DecidableEq, Repr

inductive Status where
  | success
  | unsupported
  | ignored
  deriving DecidableEq, Repr

def unregisteredOpcodes : List UInt8 :=
  [Opcode.requestActiveSource, Opcode.setStreamPath, Opcode.activeSource, Opcode.routingChange,
   Opcode.routingInfo, Opcode.standby, Opcode.givePhyAddr, Opcode.getMenuLang,
   Opcode.vendorCommandWithId, Opcode.giveDeviceVendorId]

def getMsgMode (addr : UInt8) : UInt8 := if addr &&& 0x0f = 0x0f then broadcast else unicast

section Receive

/-- The bytes of a received frame; the buffer behind them is zero. -/
abbrev Bytes := List UInt8

def header (bytes : Bytes) : Msg where
  srcAddr := (bytes.getD 0 0 >>> 4) &&& 0x0f
  destAddr := bytes.getD 0 0 &&& 0x0f
  opcode := bytes.getD 1 0
  operandlen := UInt8.ofNat bytes.length - 2
  operand := .none

def screen (table : List TableEntry) (m : Msg) : Status :=
  if m.srcAddr = 0x0f ∧ m.opcode ∉ unregisteredOpcodes then .ignored
  else
    match table.find? fun e => e.opcode == m.opcode with
    | none => if m.destAddr = 0x0f then .ignored else .unsupported
    | some e =>
      if e.mode &&& getMsgMode m.destAddr = 0 then .ignored
      else if m.operandlen < e.len then .ignored
      else if e.rxactionReqd = false then .ignored
      else .success

def word (hi lo : UInt8) : UInt16 := (hi.toUInt16 <<< 8) ||| lo.toUInt16

def ucPlayFn : UInt8 := 0x60

def fill (bytes : Bytes) (m : Msg) : Status × Msg :=
  let b (i : ℕ) := bytes.getD i 0
  if m.opcode = Opcode.setStreamPath ∨ m.opcode = Opcode.activeSource then
    (.success, { m with operand := .phyAddr (word (b 2) (b 3)) })
  else if m.opcode = Opcode.routingChange then
    (.success, { m with operand := .routingChange (word (b 2) (b 3)) (word (b 4) (b 5)) })
  else if m.opcode = Opcode.giveDeckStatus ∨ m.opcode = Opcode.deckControl ∨ m.opcode = Opcode.play then
    (.success, { m with operand := .byte (b 2) })
  else if m.opcode = Opcode.userControlPressed then
    -- only the play function has operands of its own
    if b 2 = ucPlayFn then
      if m.operandlen = 1 then (.success, { m with operand := .byte (b 2) })
      else if m.operandlen = 2 then (.success, { m with operand := .playext (b 2) (b 3) })
      else (.unsupported, m)
    else (.success, { m with operand := .byte (b 2) })
  else if m.opcode = Opcode.vendorCommandWithId then
    (.success, { m with operand := .vendor bytes, operandlen := UInt8.ofNat bytes.length })
  else (.success, m)

/-- `CEC_SRV_FormatConvert` from a frame to a message. -/
def formatConvert (table : List TableEntry) (bytes : Bytes) : Status × Msg :=
  match screen table (header bytes) with
  | .success => fill bytes (header bytes)
  | status => (status, header bytes)

end Receive

inductive SysState where
  | active
  | lowpowerstandby
  | normalstandby
  | suspend
  | active2Lowpowerstandby
  | active2Normalstandby
  | active2Suspend
  | standby2Active
  | cold
  deriving DecidableEq, Repr

def SysState.isStandby (s : SysState) : Bool :=
  s = .lowpowerstandby || s = .normalstandby || s = .suspend

structure System where
  sysState : SysState
  hdmiCtrlState : UInt32
  logicAddr : UInt8
  phyAddr : UInt16
  deviceType : UInt8
  osdName : List UInt8
  deriving DecidableEq, Repr

structure TxMsg where
  destAddr : UInt8
  opcode : UInt8
  operand : List UInt8
  deriving DecidableEq, Repr

inductive Effect where
  | send (m : TxMsg)
  | wakeUp (m : Msg) (socReq : Option (List UInt8))
  | enterFlow
  deriving DecidableEq, Repr

inductive AbortReason where
  | unrecOpcode
  | invModeToRespond
  | refused
  deriving DecidableEq, Repr

def AbortReason.code : AbortReason → UInt8
  | .unrecOpcode => 0
  | .invModeToRespond => 1
  | .refused => 4

section Handlers

variable (sys : System) (m : Msg)

def wakeIfStandby (socReq : Option (List UInt8)) : List Effect :=
  if sys.sysState.isStandby then [.wakeUp m socReq] else []

def reportPhyAddr : TxMsg :=
  ⟨0x0f, Opcode.reportPhyAddr, [(sys.phyAddr >>> 8).toUInt8, sys.phyAddr.toUInt8, sys.deviceType]⟩

def featureAbort (reason : AbortReason) : TxMsg :=
  ⟨m.srcAddr, Opcode.featureAbort, [m.opcode, reason.code]⟩

def ucPowerCodes : List UInt8 := [0x40, 0x6b, 0x6d]

def tvInvalidMode : List UInt8 :=
  [Opcode.inactiveSource, Opcode.getMenuLang, Opcode.setOsdName, Opcode.reportPowerStatus,
   Opcode.reportAudioStatus, Opcode.setSysAudioMode, Opcode.menuStatus, Opcode.deckStatus,
   Opcode.recordStatus, Opcode.recordTvScreen, Opcode.tunerDeviceStatus, Opcode.timerStatus,
   Opcode.timerClearedStatus, Opcode.giveDeviceVendorId, Opcode.vendorCommand,
   Opcode.vendorCommandWithId, Opcode.vendorRemoteBtnUp, Opcode.vendorRemoteBtnDown]

/-- What is done, and the reason to abort, if any. -/
def tvSwitch : List Effect × Option AbortReason :=
  if m.opcode = Opcode.abort then ([], some .refused)
  else if m.opcode = Opcode.imageViewOn ∨ m.opcode = Opcode.textViewOn then
    (wakeIfStandby sys m none, none)
  else if m.opcode = Opcode.givePhyAddr then ([.send (reportPhyAddr sys)], none)
  else if m.opcode = Opcode.getCecVersion then ([.send ⟨m.srcAddr, Opcode.cecVersion, [5]⟩], none)
  else if m.opcode = Opcode.userControlPressed then
    if m.operand.first ∈ ucPowerCodes then (wakeIfStandby sys m none, none)
    else ([], some .invModeToRespond)
  else if m.opcode = Opcode.giveDevicePowerStatus then
    ([.send ⟨m.srcAddr, Opcode.reportPowerStatus, [1]⟩], none)
  else if m.opcode ∈ tvInvalidMode then ([], some .invModeToRespond)
  else ([], some .unrecOpcode)

def findmux (phyAddr : UInt16) : UInt16 :=
  if phyAddr &&& 0xf000 = phyAddr then 0xf000
  else if phyAddr &&& 0xff00 = phyAddr then 0xff00
  else if phyAddr &&& 0xfff0 = phyAddr then 0xfff0
  else 0xffff

def phyAddrEvent (event : UInt8) : List UInt8 :=
  [event, 0, 0, 0, (m.operand.addr >>> 8).toUInt8, m.operand.addr.toUInt8, 0, 0]

def powerStatus (s : SysState) : UInt8 :=
  if s = .active2Lowpowerstandby ∨ s = .active2Normalstandby ∨ s = .active2Suspend then 3
  else if s.isStandby then 1
  else 2

def ucWakeCodes : List UInt8 := [0x4a, 0x60, 0x40, 0x44, 0x6b, 0x6d]

def boxUserControl : List Effect × Option AbortReason :=
  if m.operandlen = 2 then
    match m.operand with
    | .playext uccode playmode =>
      if uccode = ucPlayFn ∧ playmode = 0x24 then (wakeIfStandby sys m none, none)
      else ([], some .invModeToRespond)
    -- the second byte of the union is zero
    | _ => ([], some .invModeToRespond)
  else if m.operand.first ∈ ucWakeCodes then (wakeIfStandby sys m (some [9, 0, 0, 0]), none)
  else ([], some .invModeToRespond)

def boxSwitch : List Effect × Option AbortReason :=
  if m.opcode = Opcode.abort then ([], some .refused)
  else if m.opcode = Opcode.activeSource then
    (if m.operand.addr ≠ 0 then wakeIfStandby sys m (some (phyAddrEvent m 7)) else [], none)
  else if m.opcode = Opcode.setStreamPath then
    (if m.operand.addr &&& findmux sys.phyAddr = sys.phyAddr then
      wakeIfStandby sys m (some (phyAddrEvent m 8)) else [], none)
  else if m.opcode = Opcode.routingChange then ([], none)
  else if m.opcode = Opcode.standby then (if sys.sysState.isStandby then [.enterFlow] else [], none)
  else if m.opcode = Opcode.givePhyAddr then ([.send (reportPhyAddr sys)], none)
  else if m.opcode = Opcode.getMenuLang then ([], some .invModeToRespond)
  else if m.opcode = Opcode.getCecVersion then ([.send ⟨m.srcAddr, Opcode.cecVersion, [4]⟩], none)
  else if m.opcode = Opcode.giveDeckStatus then
    -- only `CEC_STATUS_REQUEST_ONCE` is supported
    if m.operand.first = 2 ∨ m.operand.first = 1 then ([], some .refused)
    else ([.send ⟨m.srcAddr, Opcode.deckStatus, [0x1a]⟩], none)
  else if m.opcode = Opcode.deckControl then
    if m.operand.first = 4 then (wakeIfStandby sys m none, none) else ([], some .invModeToRespond)
  else if m.opcode = Opcode.play then
    (if m.operand.first = 0x24 then wakeIfStandby sys m none else [], none)
  else if m.opcode = Opcode.giveOsdName then
    ([.send ⟨m.srcAddr, Opcode.setOsdName, sys.osdName⟩], none)
  else if m.opcode = Opcode.menuRequest then ([], some .invModeToRespond)
  else if m.opcode = Opcode.userControlPressed then boxUserControl sys m
  else if m.opcode = Opcode.userControlReleased then ([], none)
  else if m.opcode = Opcode.giveDevicePowerStatus then
    ([.send ⟨m.srcAddr, Opcode.reportPowerStatus, [powerStatus sys.sysState]⟩], none)
  else ([], some .unrecOpcode)

def conclude (r : List Effect × Option AbortReason) : List Effect :=
  match r.2 with
  | none => r.1
  | some reason => r.1 ++ [.send (featureAbort m reason)]

end Handlers

inductive Host where
  | tv
  | box
  deriving DecidableEq, Repr

/-- A message to be ignored is dropped only if it is a broadcast. -/
def rxMsgTv (sys : System) (bytes : Bytes) : List Effect :=
  if sys.hdmiCtrlState = 0 then []
  else
    let (status, m) := formatConvert msgTableTv bytes
    if status = .ignored ∧ m.destAddr = 0x0f then [] else conclude m (tvSwitch sys m)

def rxMsgBox (sys : System) (bytes : Bytes) : List Effect :=
  let (status, m) := formatConvert msgTableBox bytes
  if status = .ignored then []
  else if sys.hdmiCtrlState = 0 then []
  else conclude m (boxSwitch sys m)

/-- `mv_sm_cec_srv_rx_msg`, as `sm_cec_init` chooses it. -/
def rxMsg : Host → System → Bytes → List Effect
  | .tv => rxMsgTv
  | .box => rxMsgBox

def setHeader (init foll : UInt8) : UInt8 :=
  (foll &&& (0x0f : UInt8)) ||| ((init &&& (0x0f : UInt8)) <<< (4 : UInt8))

def operandLen (opcode : UInt8) : ℕ :=
  if opcode = Opcode.featureAbort then 2
  else if opcode = Opcode.reportPhyAddr ∨ opcode = Opcode.deviceVendorId then 3
  else if opcode = Opcode.cecVersion ∨ opcode = Opcode.deckStatus ∨ opcode = Opcode.reportPowerStatus then 1
  -- `OSD_NAME_MAX_LENGTH`
  else if opcode = Opcode.setOsdName then 14
  else 0

def frameOf (logicAddr : UInt8) (m : TxMsg) : Bytes :=
  setHeader logicAddr m.destAddr :: m.opcode ::
    (List.range (operandLen m.opcode)).map fun i => m.operand.getD i 0

theorem length_frameOf (logicAddr : UInt8) (m : TxMsg) : (frameOf logicAddr m).length ≤ 16 := by
  have hlen : operandLen m.opcode ≤ 14 := by
    unfold operandLen
    split_ifs <;> omega
  rw [frameOf, List.length_cons, List.length_cons, List.length_map, List.length_range]
  omega

end SynaBoot.CecSrv
