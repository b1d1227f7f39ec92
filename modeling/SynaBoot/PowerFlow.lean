import SynaBoot.Schedules

namespace SynaBoot.PowerFlow

inductive SysState where
  | active
  | lowpowerstandby
  | normalstandby
  | suspend
  | active2Lowpowerstandby
  | active2Normalstandby
  | active2Suspend
  | standby2Active
  | cold
  deriving DecidableEq, Repr

inductive Flow where
  | active2Lowpowerstandby
  | active2Normalstandby
  | active2Suspend
  | lowpowerstandby2Active
  | normalstandby2Active
  | suspend2Active
  | sysreset2Lowpowerstandby
  | sysreset2Normalstandby
  | sysreset2Active
  | cold2Lowpowerstandby
  | idle
  deriving DecidableEq, Repr

inductive Status where
  | enterflow
  | poweron
  | poweroff
  | powerok
  | assert
  | deassert
  | waitrsp
  | leaveflow
  | invalid
  deriving DecidableEq, Repr

/-- `MV_SOC_STATE`, the boot flag that the SoC reads. -/
inductive SocState where
  | poweron
  | active2Normalstandby
  | active2Suspend
  | suspendRequest
  | sysreset2Active
  | sysreset2Lowpowerstandby
  | sysreset2Normalstandby
  | lowpowerstandby2Active
  | suspend2Active
  deriving DecidableEq, Repr

inductive WakeupSource where
  | invalid
  | ir
  | wifi
  | wol
  | cec
  | timer
  | button
  | bt
  deriving DecidableEq, Repr

inductive Output where
  | entered (flow : Flow) (sysState : SysState)
  | left (flow : Flow)
  | received (type : Int)
  | broadcast (flow : Flow) (status : Status)
  | socPoweron
  | socPoweroff (flow : Flow)
  | socAssert
  | socDeassert
  | peripheralAssert
  | peripheralDeassert
  | irqToSoc
  | sentWakeupInfo (source : WakeupSource) (payload : Int)
  | sentBootFlag (flag : SocState)
  | sentTime (ms : Nat)
  deriving DecidableEq, Repr

def poweroff2Poweron : Nat := 300
def poweron2OkTime : Nat := 60
def assert2DeassertTime : Nat := 100

/- The message types; requests of Linux and responses of the bootloader share numbers. -/
def irLinuxready : Int := 30
def socStateColdboot : Int := 0x21
def socStateSyspoweron : Int := 0
def lowpowerstandbyRequest : Int := 0x10
def normalstandbyRequest : Int := 0x11
def standbyRequest : Int := 1
def suspendRequest : Int := 2
def wakeupSourceRequest : Int := 3
def bootupFlagRequest : Int := 0xdd
def currTimeRequest : Int := 19
def sysReset : Int := 0xff
def active2SuspendResp : Int := 0xa0
def cold2ActiveResp : Int := 2
def lowpowerstandby2ActiveResp : Int := 0x10
def normalstandby2ActiveResp : Int := 7
def suspend2ActiveResp : Int := 6

def suspendTypeWfi : Int := 0xf1
def suspendTypePwroff : Int := 0xff

/-- The variables, the time in milliseconds and the record, newest first. -/
structure Sm where
  sysState : SysState := .active
  flow : Flow := .idle
  status : Status := .invalid
  lasttime : Nat := 0
  isGetRsp : Bool := false
  isLinuxReady : Bool := false
  standbyType : Int := normalstandbyRequest
  suspendType : Int := suspendTypePwroff
  bootFlag : SocState
  requestPoweron : Bool := false
  isWakeup : Bool := false
  gethWakeup : Bool := false
  fpbuttonWakeup : Bool := false
  wakeupSource : WakeupSource := .invalid
  payload : Int := 0
  now : Nat
  log : List Output := []

def init (bootFlag : SocState) (now : Nat) : Sm := { bootFlag := bootFlag, now := now }

def emit (o : Output) (s : Sm) : Sm := { s with log := o :: s.log }

def gettimems (s : Sm) : Nat := s.now % 2 ^ 32

def elapsed (s : Sm) : Nat := (gettimems s + 2 ^ 32 - s.lasttime % 2 ^ 32) % 2 ^ 32

def waittime (interval : Nat) (s : Sm) (f : Sm → Sm) : Sm :=
  if interval ≤ elapsed s then f { s with lasttime := gettimems s } else s

def broadcastPowerState (s : Sm) : Sm := emit (.broadcast s.flow s.status) s

def enterflow (flow : Flow) (s : Sm) : Bool × Sm :=
  if s.flow ≠ .idle ∨ s.status ≠ .invalid then (false, s)
  else
    (true, { emit (.entered flow s.sysState) s with
      isLinuxReady := false
      status := .enterflow
      flow := flow
      lasttime := gettimems s })

def flowOfState : SysState → Flow
  | .lowpowerstandby => .lowpowerstandby2Active
  | .normalstandby => .normalstandby2Active
  | .suspend => .suspend2Active
  | _ => .idle

def enterflowBysmstate (s : Sm) : Bool × Sm := enterflow (flowOfState s.sysState) s

def leaveflow (s : Sm) : Sm :=
  { emit (.left s.flow) (broadcastPowerState s) with status := .invalid, flow := .idle }

def socPoweron2Powerok (powerGood : Bool) (s : Sm) : Sm :=
  match s.status with
  | .poweron => waittime poweroff2Poweron s fun s =>
    { emit .socPoweron (broadcastPowerState s) with status := .powerok }
  | .powerok => waittime poweron2OkTime s fun s =>
    if powerGood then { emit .socDeassert (broadcastPowerState s) with status := .waitrsp }
    else { s with lasttime := gettimems s }
  | _ => s

def socAssert2Deassert (s : Sm) : Bool × Sm :=
  match s.status with
  | .assert =>
    (false, { emit .socAssert (emit .peripheralAssert (broadcastPowerState s)) with
      status := .deassert })
  | .deassert => (false, waittime assert2DeassertTime s fun s =>
    { broadcastPowerState (emit .peripheralDeassert s) with status := .poweron })
  | .waitrsp => if s.isGetRsp then (true, { s with isGetRsp := false }) else (false, s)
  | _ => (false, s)

def beginWarmdown (s : Sm) : Sm :=
  let s := broadcastPowerState { s with gethWakeup := false, fpbuttonWakeup := false }
  match s.flow with
  | .active2Lowpowerstandby =>
    { s with
      sysState := .active2Lowpowerstandby
      bootFlag := .active2Normalstandby
      status := .poweroff }
  | .active2Normalstandby =>
    { s with
      sysState := .active2Normalstandby
      bootFlag := .active2Normalstandby
      status := .poweroff }
  | .active2Suspend =>
    { s with
      sysState := .active2Suspend
      bootFlag := .suspendRequest
      status := if s.suspendType = suspendTypeWfi then .leaveflow else .waitrsp }
  | _ => s

def flowWarmdown (s : Sm) : Sm :=
  match s.status with
  | .enterflow => beginWarmdown s
  | .assert | .deassert | .waitrsp =>
    match socAssert2Deassert s with
    | (true, s) => { s with status := .poweroff }
    | (false, s) => s
  | .poweroff => { emit (.socPoweroff s.flow) s with status := .leaveflow }
  | .leaveflow =>
    match s.flow with
    | .active2Lowpowerstandby => leaveflow { s with sysState := .lowpowerstandby }
    | .active2Normalstandby => leaveflow { s with sysState := .normalstandby }
    | .active2Suspend => leaveflow { s with sysState := .suspend }
    | _ => leaveflow s
  | _ => s

def flowColddown (s : Sm) : Sm :=
  match s.status with
  | .enterflow => { broadcastPowerState s with status := .poweroff }
  | .poweroff => { emit (.socPoweroff s.flow) s with status := .leaveflow }
  | .leaveflow =>
    let s := leaveflow { s with sysState := .lowpowerstandby }
    if s.requestPoweron then
      { (enterflowBysmstate { s with wakeupSource := .invalid }).2 with requestPoweron := false }
    else s
  | _ => s

def beginWarmup (s : Sm) : Sm :=
  let s := { broadcastPowerState s with sysState := .standby2Active, status := .assert }
  match s.flow with
  | .lowpowerstandby2Active | .normalstandby2Active => { s with bootFlag := .lowpowerstandby2Active }
  | .suspend2Active => { s with bootFlag := .suspend2Active }
  | _ => s

def flowWarmup (powerGood : Bool) (s : Sm) : Sm :=
  match s.status with
  | .enterflow => beginWarmup s
  | .poweron =>
    if s.bootFlag = .suspend2Active ∧ s.suspendType = suspendTypeWfi then
      { emit .irqToSoc s with isGetRsp := false, status := .leaveflow }
    else socPoweron2Powerok powerGood s
  | .powerok => socPoweron2Powerok powerGood s
  | .assert => { s with status := .deassert }
  | .deassert | .waitrsp =>
    match socAssert2Deassert s with
    | (true, s) => { s with status := .leaveflow }
    | (false, s) => s
  | .leaveflow => leaveflow { s with sysState := .active, bootFlag := .poweron }
  | _ => s

def flowSysreset (powerGood : Bool) (s : Sm) : Sm :=
  let s := broadcastPowerState s
  match s.status with
  | .enterflow =>
    { s with
      status := .assert
      bootFlag := match s.flow with
        | .sysreset2Active => .sysreset2Active
        | .sysreset2Lowpowerstandby => .sysreset2Lowpowerstandby
        | .sysreset2Normalstandby => .sysreset2Normalstandby
        | _ => s.bootFlag }
  | .poweroff =>
    { emit (.socPoweroff s.flow) (broadcastPowerState s) with
      lasttime := gettimems s
      status := .deassert }
  | .poweron | .powerok => socPoweron2Powerok powerGood s
  | .assert => { emit .socAssert s with lasttime := gettimems s, status := .deassert }
  | .waitrsp =>
    match socAssert2Deassert s with
    | (true, s) => { s with status := .leaveflow }
    | (false, s) => s
  | .deassert => (socAssert2Deassert s).2
  | .leaveflow => leaveflow s
  | _ => s

def stateToWaitWakeup : SysState → Bool
  | .lowpowerstandby | .normalstandby | .suspend => true
  | _ => false

def wifibtWakeupHandler (s : Sm) : Sm :=
  if s.isWakeup then { (enterflowBysmstate s).2 with isWakeup := false } else s

def gethWakeupHandler (s : Sm) : Sm :=
  if s.gethWakeup then
    { (enterflowBysmstate { s with wakeupSource := .wol }).2 with gethWakeup := false }
  else s

def ethWifibtWakeupHandler (s : Sm) : Sm := gethWakeupHandler (wifibtWakeupHandler s)

def fpbuttonWakeupHandler (s : Sm) : Sm :=
  if s.fpbuttonWakeup then
    { (enterflowBysmstate { s with wakeupSource := .button }).2 with fpbuttonWakeup := false }
  else s

def flowIdle (s : Sm) : Sm :=
  if stateToWaitWakeup s.sysState then fpbuttonWakeupHandler (ethWifibtWakeupHandler s) else s

def inFlow (flow : Flow) (body : Sm → Sm) (s : Sm) : Sm :=
  if flow ≠ s.flow then { s with flow := .idle } else body s

def powerTask (powerGood : Bool) (s : Sm) : Sm :=
  match s.flow with
  | .cold2Lowpowerstandby => inFlow s.flow flowColddown s
  | .active2Lowpowerstandby | .active2Normalstandby | .active2Suspend =>
    inFlow s.flow flowWarmdown s
  | .lowpowerstandby2Active | .normalstandby2Active | .suspend2Active =>
    inFlow s.flow (flowWarmup powerGood) s
  | .sysreset2Active => inFlow s.flow (flowSysreset powerGood) s
  | .idle => flowIdle s
  | .sysreset2Lowpowerstandby | .sysreset2Normalstandby => s

def isWarmupResp (type : Int) : Bool :=
  type = lowpowerstandby2ActiveResp || type = normalstandby2ActiveResp ||
    type = suspend2ActiveResp || type = cold2ActiveResp

/-- Messages for timers and the fast boot flag change nothing. -/
def processActive (type content suspendType : Int) (s : Sm) : Sm :=
  if type = irLinuxready then
    let s := { s with
      isLinuxReady := true
      isWakeup := false
      gethWakeup := false
      fpbuttonWakeup := false }
    if s.wakeupSource = .timer then emit (.sentWakeupInfo s.wakeupSource s.payload) s else s
  else if type = lowpowerstandbyRequest then { s with standbyType := lowpowerstandbyRequest }
  else if type = normalstandbyRequest then { s with standbyType := normalstandbyRequest }
  else if type = standbyRequest then
    if s.standbyType = lowpowerstandbyRequest then (enterflow .active2Lowpowerstandby s).2
    else (enterflow .active2Normalstandby s).2
  else if type = suspendRequest then
    (enterflow .active2Suspend { s with suspendType := suspendType }).2
  else if type = wakeupSourceRequest then
    let s := emit (.sentWakeupInfo s.wakeupSource s.payload) s
    if content ≠ 0 then { s with payload := 0 } else s
  else if type = bootupFlagRequest then emit (.sentBootFlag s.bootFlag) s
  else if type = currTimeRequest then emit (.sentTime (gettimems s)) s
  else if type = sysReset then (enterflow .sysreset2Active s).2
  else s

def processPowerMsg (type content suspendType : Int) (s : Sm) : Sm :=
  let s := emit (.received type) s
  match s.sysState with
  | .cold =>
    if type = socStateColdboot then (enterflow .cold2Lowpowerstandby s).2
    else if type = socStateSyspoweron then { s with requestPoweron := true }
    else s
  | .active => processActive type content suspendType s
  | .active2Suspend =>
    if type = active2SuspendResp then { s with isGetRsp := true, bootFlag := .active2Suspend } else s
  | .standby2Active => if isWarmupResp type then { s with isGetRsp := true } else s
  | .suspend =>
    if type = irLinuxready then (enterflowBysmstate { s with wakeupSource := .invalid }).2 else s
  | .lowpowerstandby | .normalstandby | .active2Lowpowerstandby | .active2Normalstandby => s

/-- Keys, CEC messages and buttons look at the system state first. -/
def wakeup (source : WakeupSource) (payload : Int) (s : Sm) : Sm :=
  if stateToWaitWakeup s.sysState then
    (enterflowBysmstate { s with wakeupSource := source, payload := payload }).2
  else s

/-- UART and LAN set the source when the flow is entered. -/
def wakeupOnLan (s : Sm) : Sm :=
  if stateToWaitWakeup s.sysState then
    match enterflowBysmstate s with
    | (true, s) => { s with wakeupSource := .wol }
    | (false, s) => s
  else s

/-- The timer for the wake-up ignores only state `ACTIVE`. -/
def wakeupTimer (s : Sm) : Sm :=
  if s.sysState = .active then s
  else (enterflowBysmstate { s with wakeupSource := .timer }).2

/-- It wakes only from state `COLD`. -/
def cecLaunchApp (s : Sm) : Sm :=
  if s.sysState = .cold then (enterflowBysmstate { s with wakeupSource := .cec }).2 else s

def overheat (s : Sm) : Sm :=
  if s.sysState = .active then (enterflow .active2Lowpowerstandby s).2 else s

inductive Event where
  | msg (type content suspendType : Int)
  | tick (powerGood : Bool)
  | elapse (ms : Nat)
  | wakeup (source : WakeupSource) (payload : Int)
  | wakeupOnLan
  | wakeupTimer
  | cecLaunchApp
  | wifibt (source : WakeupSource)
  | geth
  | fpbutton
  | watchdog
  | overheat
  deriving DecidableEq, Repr

def step (e : Event) (s : Sm) : Sm :=
  match e with
  | .msg type content suspendType => processPowerMsg type content suspendType s
  | .tick powerGood => powerTask powerGood s
  | .elapse ms => { s with now := s.now + ms }
  | .wakeup source payload => wakeup source payload s
  | .wakeupOnLan => wakeupOnLan s
  | .wakeupTimer => wakeupTimer s
  | .cecLaunchApp => cecLaunchApp s
  | .wifibt source => { s with isWakeup := true, wakeupSource := source }
  | .geth => if s.sysState = .active then s else { s with gethWakeup := true }
  | .fpbutton => if s.sysState = .active then s else { s with fpbuttonWakeup := true }
  | .watchdog => (enterflow .sysreset2Active s).2
  | .overheat => overheat s

abbrev run (s : Sm) (es : List Event) : Sm := Schedules.run step s es

end SynaBoot.PowerFlow
