import SynaBoot.CText
import SynaBoot.CecSrv
import SynaBoot.CircularBuffer
import SynaBoot.Schedules

namespace SynaBoot.CecTask

open SynaBoot.CecSrv
open SynaBoot.CircularBuffer

inductive Cmd where
  | rxMsg
  | rxFailed
  | txMsg
  | txDone
  | txFailed
  | exit
  deriving DecidableEq, Repr

/-- `CEC_TASK_DATA`; `msg` are the `msg_len` bytes of `msg_fifo`. -/
structure TaskData where
  cmd : Cmd
  mode : UInt8
  retry : Bool
  status : UInt8
  msg : Bytes
  txtime : UInt32
  deriving DecidableEq, Repr

def failNone : UInt8 := 0

def txFailLineBusy : UInt8 := 1

def txFailSignalFreeTime : UInt8 := 2

def txFailIndata : UInt8 := 4

def txFailNack : UInt8 := 5

/-- With a length of three it takes two entries. -/
abbrev Fifo := Buffer 3 TaskData

/-- `cec_write_fifo`, whose result nobody looks at. -/
def writeFifo (d : TaskData) (b : Fifo) : Fifo := if b.stop + 1 = b.start then b else b.push d

def readFifo (b : Fifo) : Option (TaskData × Fifo) :=
  if b.start = b.stop then none else some (b.slots b.start, b.skip)

def clearFifo (b : Fifo) : Fifo := { b with start := 0, stop := 0 }

/-- `cec_clear_data`, which leaves the command and the time. -/
def clearData (d : TaskData) : TaskData :=
  { d with msg := [], mode := 0, retry := false, status := 0 }

inductive TaskState where
  | idle
  | listening
  | sending
  deriving DecidableEq, Repr

/-- `busy`: the hardware owns a transmission. -/
structure State where
  taskExit : Bool
  taskState : TaskState
  isrFifo : Fifo
  appFifo : Fifo
  txData : TaskData
  rxData : TaskData
  retransTime : UInt8
  busy : Bool

def reset : State :=
  let d : TaskData := ⟨.rxMsg, 0, false, 0, [], 0⟩
  let b : Fifo := ⟨fun _ => d, 0, 0⟩
  ⟨true, .idle, b, b, d, d, 0, false⟩

def State.isr (s : State) : List TaskData := s.isrFifo.contents

def State.app (s : State) : List TaskData := s.appFifo.contents

def enable (logicAddr : UInt8) (on : Bool) (s : State) : State :=
  let s := { s with isrFifo := clearFifo s.isrFifo, appFifo := clearFifo s.appFifo }
  if on then
    if logicAddr = 0x0f then s
    else { s with taskExit := false, taskState := .listening, busy := false }
  else { s with taskExit := true, taskState := .idle, busy := false }

theorem enable_true {logicAddr : UInt8} (h : logicAddr ≠ 0x0f) (s : State) :
    enable logicAddr true s = { s with
      isrFifo := clearFifo s.isrFifo, appFifo := clearFifo s.appFifo
      taskExit := false, taskState := .listening, busy := false } := by
  rw [enable, if_pos rfl, if_neg h]

section Isr

def intrTxFail : UInt16 := 0x200f

def intrTxComplete : UInt16 := 0x0010

def intrRxComplete : UInt16 := 0x0020

def intrRxFail : UInt16 := 0x00c0

def failReason (reg : UInt16) : UInt8 :=
  if reg &&& 0x0004 ≠ 0 then txFailLineBusy
  else if reg &&& 0x0008 ≠ 0 then txFailSignalFreeTime
  else if reg &&& 0x0003 ≠ 0 then txFailNack
  else txFailIndata

def sendTxStatus (cmd : Cmd) (status : UInt8) (s : State) : State :=
  let d := { s.txData with cmd := cmd, status := status }
  { s with txData := d, isrFifo := writeFifo d s.isrFifo, busy := false }

def sendRxStatus (cmd : Cmd) (status : UInt8) (s : State) : State :=
  let d := { s.rxData with cmd := cmd, status := status }
  { s with rxData := d, isrFifo := writeFifo d s.isrFifo }

def isrTx (reg : UInt16) (s : State) : State :=
  let s := if reg &&& intrTxFail ≠ 0 then sendTxStatus .txFailed (failReason reg) s else s
  if reg &&& intrTxComplete ≠ 0 then sendTxStatus .txDone failNone s else s

def isrRx (reg : UInt16) (bytes : Bytes) (s : State) : State :=
  let s := if reg &&& intrRxFail ≠ 0 then sendRxStatus .rxFailed reg.toUInt8 s else s
  if reg &&& intrRxComplete ≠ 0 then
    sendRxStatus .rxMsg reg.toUInt8 { s with rxData := { clearData s.rxData with msg := bytes } }
  else s

def isr (reg : UInt16) (bytes : Bytes) (s : State) : State := isrRx reg bytes (isrTx reg s)

end Isr

structure Env where
  host : Host
  sys : System
  now : UInt32
  line : Bool
  deriving DecidableEq, Repr

def request (sys : System) (now : UInt32) (m : TxMsg) : TaskData where
  cmd := .txMsg
  mode := if m.destAddr = 0x0f then broadcast else unicast
  retry := false
  status := 0
  msg := frameOf sys.logicAddr m
  txtime := now

def srvTxMsg (sys : System) (now : UInt32) (m : TxMsg) (s : State) : State :=
  { s with appFifo := writeFifo (request sys now m) s.appFifo }

section Task

def replies (env : Env) (bytes : Bytes) : List TaskData :=
  (rxMsg env.host env.sys bytes).filterMap fun effect =>
    match effect with
    | .send m => some (request env.sys env.now m)
    | _ => none

def srvRxMsg (env : Env) (d : TaskData) (s : State) : State :=
  { s with appFifo := (replies env d.msg).foldl (fun b r => writeFifo r b) s.appFifo }

def hwTransmit (s : State) : State := if 16 < s.txData.msg.length then s else { s with busy := true }

def txTimeout : ℤ := 6000

def maxRetransTime : UInt8 := 5

def retries (env : Env) (s : State) : Prop :=
  s.retransTime < maxRetransTime ∨ txTimeout < CText.int32 (env.now - s.txData.txtime).toNat

instance (env : Env) (s : State) : Decidable (retries env s) :=
  inferInstanceAs (Decidable (_ ∨ _))

def listening (env : Env) (d : TaskData) (s : State) : State :=
  match d.cmd with
  | .exit => enable env.sys.logicAddr false s
  | .rxMsg => srvRxMsg env d s
  | .txMsg =>
    let s := { s with retransTime := 0, txData := d }
    let s :=
      if env.line then hwTransmit s
      else
        let d := { d with cmd := .txFailed, status := txFailLineBusy }
        { s with txData := d, appFifo := writeFifo d s.appFifo }
    { s with taskState := .sending }
  | _ => s

def countRetrans (s : State) : UInt8 :=
  if s.txData.status ≠ txFailSignalFreeTime then s.retransTime + 1 else s.retransTime

def retransmit (env : Env) (s : State) : State :=
  let s := { s with txData := { s.txData with retry := true } }
  let s := if env.line then hwTransmit s else { s with appFifo := writeFifo s.txData s.appFifo }
  { s with retransTime := countRetrans s }

def endMessage (s : State) : State := { s with txData := clearData s.txData, taskState := .listening }

def sending (env : Env) (d : TaskData) (s : State) : State :=
  match d.cmd with
  | .txDone => endMessage s
  | .txFailed => if retries env s then retransmit env s else endMessage s
  | .rxMsg => srvRxMsg env d s
  | .txMsg => { s with appFifo := writeFifo d s.appFifo }
  | _ => s

/-- The next command; those of the ISR come first. -/
def next (s : State) : Option (TaskData × State) :=
  match readFifo s.isrFifo with
  | some (d, b) => some (d, { s with isrFifo := b })
  | none => (readFifo s.appFifo).map fun (d, b) => (d, { s with appFifo := b })

def task (env : Env) (s : State) : State :=
  if s.taskExit then s
  else
    match next s with
    | none => s
    | some (d, s) =>
      match s.taskState with
      | .idle => if d.cmd = .exit then enable env.sys.logicAddr false s else s
      | .listening => listening env d s
      | .sending => sending env d s

end Task

inductive Act where
  | isr (reg : UInt16) (bytes : Bytes)
  | task (env : Env)
  | srvTxMsg (sys : System) (now : UInt32) (m : TxMsg)
  deriving DecidableEq, Repr

def step : Act → State → State
  | .isr reg bytes => isr reg bytes
  | .task env => task env
  | .srvTxMsg sys now m => srvTxMsg sys now m

section Queues

variable {b : Fifo} {d : TaskData}

theorem length_contents_le (b : Fifo) : b.contents.length ≤ 2 := by
  have hlt : b.pending < 3 := (b.stop - b.start).isLt
  rw [Buffer.length_contents]
  omega

theorem writeFifo_room (h : b.contents.length < 2) : (writeFifo d b).contents = b.contents ++ [d] := by
  rw [Buffer.length_contents] at h
  have hfull : ¬ b.stop + 1 = b.start := by
    rw [Buffer.full_iff]
    omega
  rw [writeFifo, if_neg hfull]
  exact Buffer.contents_push (by omega)

theorem writeFifo_full (h : b.contents.length = 2) : writeFifo d b = b := by
  rw [Buffer.length_contents] at h
  have hfull : b.stop + 1 = b.start := by
    rw [Buffer.full_iff, h]
  rw [writeFifo, if_pos hfull]

theorem prefix_writeFifo : b.contents <+: (writeFifo d b).contents := by
  rcases Nat.lt_or_ge b.contents.length 2 with h | h
  · rw [writeFifo_room h]
    exact List.prefix_append _ _
  · rw [writeFifo_full (le_antisymm (length_contents_le b) h)]

theorem mem_writeFifo {x : TaskData} (h : x ∈ (writeFifo d b).contents) : x ∈ b.contents ∨ x = d := by
  rcases Nat.lt_or_ge b.contents.length 2 with hlt | hge
  · rw [writeFifo_room hlt, List.mem_append, List.mem_singleton] at h
    exact h
  · rw [writeFifo_full (le_antisymm (length_contents_le b) hge)] at h
    exact .inl h

theorem readFifo_nil (h : b.contents = []) : readFifo b = none :=
  if_pos (Buffer.contents_eq_nil_iff.mp h)

theorem readFifo_cons {ds : List TaskData} (h : b.contents = d :: ds) :
    readFifo b = some (d, b.skip) ∧ b.skip.contents = ds := by
  have hne : ¬ b.start = b.stop := by
    intro heq
    rw [Buffer.contents_eq_nil_iff.mpr heq] at h
    cases h
  obtain ⟨hd, hds⟩ := Buffer.contents_cons h
  rw [readFifo, if_neg hne, hd]
  exact ⟨rfl, hds⟩

theorem foldl_writeFifo (b : Fifo) (ds : List TaskData) :
    (ds.foldl (fun b r => writeFifo r b) b).contents =
      b.contents ++ ds.take (2 - b.contents.length) := by
  induction ds generalizing b with
  | nil => rw [List.foldl_nil, List.take_nil, List.append_nil]
  | cons d ds ih =>
    have hle := length_contents_le b
    rw [List.foldl_cons, ih]
    rcases Nat.lt_or_ge b.contents.length 2 with h | h
    · have hroom : 2 - b.contents.length = (2 - (b.contents.length + 1)) + 1 := by omega
      rw [writeFifo_room h, List.length_append, List.length_singleton, List.append_assoc, hroom]
      rfl
    · have hzero : 2 - b.contents.length = 0 := by omega
      rw [writeFifo_full (le_antisymm hle h), hzero, List.take_zero, List.take_zero]

theorem contents_clearFifo (b : Fifo) : (clearFifo b).contents = [] :=
  Buffer.contents_eq_nil_iff.mpr rfl

end Queues

section Commands

variable {s s' : State} {d : TaskData}

theorem length_app_le (s : State) : s.app.length ≤ 2 := length_contents_le s.appFifo

theorem length_isr_le (s : State) : s.isr.length ≤ 2 := length_contents_le s.isrFifo

theorem next_none (hisr : s.isr = []) (happ : s.app = []) : next s = none := by
  rw [next, readFifo_nil hisr, readFifo_nil happ]
  rfl

theorem next_isr {ds : List TaskData} (h : s.isr = d :: ds) :
    next s = some (d, { s with isrFifo := s.isrFifo.skip }) ∧ s.isrFifo.skip.contents = ds := by
  obtain ⟨hread, hds⟩ := readFifo_cons h
  rw [next, hread]
  exact ⟨rfl, hds⟩

theorem next_app {ds : List TaskData} (hisr : s.isr = []) (h : s.app = d :: ds) :
    next s = some (d, { s with appFifo := s.appFifo.skip }) ∧ s.appFifo.skip.contents = ds := by
  obtain ⟨hread, hds⟩ := readFifo_cons h
  rw [next, readFifo_nil hisr, hread]
  exact ⟨rfl, hds⟩

structure Taken (s : State) (d : TaskData) (s' : State) : Prop where
  queues : s.isr = d :: s'.isr ∧ s'.app = s.app ∨ s.isr = [] ∧ s'.isr = [] ∧ s.app = d :: s'.app
  taskExit : s'.taskExit = s.taskExit
  taskState : s'.taskState = s.taskState
  txData : s'.txData = s.txData
  retransTime : s'.retransTime = s.retransTime
  busy : s'.busy = s.busy

theorem next_cases (s : State) :
    next s = none ∧ s.isr = [] ∧ s.app = [] ∨ ∃ d s', next s = some (d, s') ∧ Taken s d s' := by
  cases hisr : s.isr with
  | cons d ds =>
    obtain ⟨hnext, hds⟩ := next_isr hisr
    refine .inr ⟨d, _, hnext, .inl ⟨?_, rfl⟩, rfl, rfl, rfl, rfl, rfl⟩
    rw [hisr]
    exact congrArg (d :: ·) hds.symm
  | nil =>
    cases happ : s.app with
    | nil => exact .inl ⟨next_none hisr happ, rfl, rfl⟩
    | cons d ds =>
      obtain ⟨hnext, hds⟩ := next_app hisr happ
      refine .inr ⟨d, _, hnext, .inr ⟨hisr, hisr, ?_⟩, rfl, rfl, rfl, rfl, rfl⟩
      rw [happ]
      exact congrArg (d :: ·) hds.symm

variable {env : Env}

theorem task_taken (hexit : s.taskExit = false) (h : next s = some (d, s')) :
    task env s = match s'.taskState with
      | .idle => if d.cmd = .exit then enable env.sys.logicAddr false s' else s'
      | .listening => listening env d s'
      | .sending => sending env d s' := by
  rw [task, hexit, h]
  rfl

theorem srvRxMsg_app (env : Env) (d : TaskData) (s : State) :
    (srvRxMsg env d s).app = s.app ++ (replies env d.msg).take (2 - s.app.length) :=
  foldl_writeFifo s.appFifo (replies env d.msg)

theorem mem_replies {bytes : Bytes} {r : TaskData} (h : r ∈ replies env bytes) :
    ∃ m, r = request env.sys env.now m := by
  obtain ⟨effect, -, heffect⟩ := List.mem_filterMap.mp h
  cases effect with
  | send m => exact ⟨m, (Option.some.inj heffect).symm⟩
  | wakeUp => cases heffect
  | enterFlow => cases heffect

theorem hwTransmit_short (h : s.txData.msg.length ≤ 16) : hwTransmit s = { s with busy := true } :=
  if_neg (Nat.not_lt.mpr h)

theorem retransmit_started (hline : env.line = true) (hlen : s.txData.msg.length ≤ 16) :
    retransmit env s =
      { s with
        txData := { s.txData with retry := true }, busy := true, retransTime := countRetrans s } := by
  have hstart : hwTransmit { s with txData := { s.txData with retry := true } } = _ :=
    hwTransmit_short hlen
  unfold retransmit
  dsimp only
  rw [if_pos hline, hstart]
  rfl

theorem retransmit_refused (hline : env.line = false) :
    retransmit env s =
      { s with
        txData := { s.txData with retry := true }
        appFifo := writeFifo { s.txData with retry := true } s.appFifo
        retransTime := countRetrans s } := by
  have hne : ¬ env.line = true := by
    rw [hline]
    exact Bool.false_ne_true
  unfold retransmit
  dsimp only
  rw [if_neg hne]
  rfl

theorem listening_started (hcmd : d.cmd = .txMsg) (hline : env.line = true)
    (hlen : d.msg.length ≤ 16) :
    listening env d s =
      { s with taskState := .sending, txData := d, busy := true, retransTime := 0 } := by
  have hstart : hwTransmit { s with retransTime := 0, txData := d } = _ := hwTransmit_short hlen
  unfold listening
  rw [hcmd]
  dsimp only
  rw [if_pos hline, hstart]

theorem listening_refused (hcmd : d.cmd = .txMsg) (hline : env.line = false) :
    listening env d s =
      { s with
        taskState := .sending
        txData := { d with cmd := .txFailed, status := txFailLineBusy }
        appFifo := writeFifo { d with cmd := .txFailed, status := txFailLineBusy } s.appFifo
        retransTime := 0 } := by
  have hne : ¬ env.line = true := by
    rw [hline]
    exact Bool.false_ne_true
  unfold listening
  rw [hcmd]
  dsimp only
  rw [if_neg hne]

end Commands

end SynaBoot.CecTask
