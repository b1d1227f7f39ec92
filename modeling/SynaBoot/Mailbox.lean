import SynaBoot.Schedules

namespace SynaBoot.Mailbox

open SynaBoot.Schedules

def smMsgSize : Nat := 32
def smMsgqTotalSize : Nat := 512
def smMsgqHeaderSize : Nat := smMsgSize
def smMsgqSize : Nat := smMsgqTotalSize - smMsgqHeaderSize
def smMsgqMsgCount : Nat := smMsgqSize / smMsgSize
def smMsgBodySize : Nat := smMsgSize - 2 * 2
def smRecvQCnt : Nat := 2

def sOk : Int := 0
def boardcastMsg : Int := -1

def int32 (x : Int) : Int := x.bmod (2 ^ 32)

def int16 (x : Int) : Int := x.bmod (2 ^ 16)

structure SmMessage where
  moduleId : Int
  msgLen : Int
  msgBody : Nat → UInt8

/-- `m_Queue` by byte offset. -/
structure MsgQ where
  write : Nat
  read : Nat
  writeTotal : Int
  readTotal : Int
  queue : Nat → SmMessage

def zeroedQ : MsgQ := ⟨0, 0, 0, 0, fun _ => ⟨0, 0, fun _ => 0⟩⟩

def MsgQ.setQueue (q : MsgQ) (off : Nat) (m : SmMessage) : MsgQ :=
  { q with queue := Function.update q.queue off m }

structure Request where
  moduleId : Int
  body : List UInt8
  deriving DecidableEq

/-- `iLen` after it is cut to the size of a message body. -/
def Request.len (r : Request) : Nat :=
  if smMsgBodySize < r.body.length then smMsgBodySize else r.body.length

/-- The next access to a shared field in `MV_SM_Send_Msg`. -/
inductive Sender where
  | idle
  | testRead (r : Request)
  | testTotals (r : Request)
  | putId (r : Request)
  | putLen (r : Request)
  | putBody (r : Request) (i : Nat)
  | advance (r : Request)
  | wrap (r : Request)
  | total (r : Request)

/-- `dispatch i k` is `try_to_dispatch_msg` for queue `i` at module `k`. -/
inductive Receiver where
  | scan (i : Nat)
  | dispatch (i k : Nat)
  | advance (i : Nat)
  | wrap (i : Nat)
  | total (i : Nat)

structure Delivery where
  moduleId : Int
  msgLen : Int
  body : List UInt8
  deriving DecidableEq

def seen (m : SmMessage) : Delivery :=
  ⟨m.moduleId, m.msgLen, (List.range m.msgLen.toNat).map m.msgBody⟩

structure RtModule where
  moduleId : Int
  hasMsgHandle : Bool

structure State where
  msgqInput0 : MsgQ
  msgqInput1 : MsgQ
  sender : Sender
  receiver : Receiver
  returned : List (Request × Int)
  handled : List (Nat × Delivery)
  dispatched : List Delivery

def State.start : State := ⟨zeroedQ, zeroedQ, .idle, .scan 0, [], [], []⟩

def State.getMsgqInput (s : State) (index : Nat) : MsgQ :=
  if index = 0 then s.msgqInput0 else s.msgqInput1

def State.setMsgqInput (s : State) (index : Nat) (q : MsgQ) : State :=
  if index = 0 then { s with msgqInput0 := q } else { s with msgqInput1 := q }

/-- `SM_Send_MsgQ` is the input queue 1. -/
def sendStep (s : State) : State :=
  let q := s.msgqInput1
  match s.sender with
  | .idle => s
  | .testRead r =>
    if q.read = q.write then { s with sender := .testTotals r } else { s with sender := .putId r }
  | .testTotals r =>
    -- message queue full, ignore the newest message
    if q.readTotal ≠ q.writeTotal then
      { s with sender := .idle, returned := s.returned ++ [(r, -1)] }
    else { s with sender := .putId r }
  | .putId r =>
    let m := { q.queue q.write with moduleId := int16 r.moduleId }
    { s with msgqInput1 := q.setQueue q.write m, sender := .putLen r }
  | .putLen r =>
    let m := { q.queue q.write with msgLen := int16 r.len }
    { s with msgqInput1 := q.setQueue q.write m, sender := .putBody r 0 }
  | .putBody r i =>
    if i < r.len then
      let old := q.queue q.write
      let m := { old with msgBody := Function.update old.msgBody i (r.body.getD i 0) }
      { s with msgqInput1 := q.setQueue q.write m, sender := .putBody r (i + 1) }
    else { s with sender := .advance r }
  | .advance r =>
    { s with msgqInput1 := { q with write := q.write + smMsgSize }, sender := .wrap r }
  | .wrap r =>
    let write := if smMsgqSize ≤ q.write then q.write - smMsgqSize else q.write
    { s with msgqInput1 := { q with write }, sender := .total r }
  | .total r =>
    { s with
      msgqInput1 := { q with writeTotal := int32 (q.writeTotal + smMsgSize) }
      sender := .idle
      returned := s.returned ++ [(r, sOk)] }

def nextQueue (i : Nat) : Nat := if i + 1 < smRecvQCnt then i + 1 else 0

/-- One round of the loop of `try_to_dispatch_msg`, at module `k`. -/
def dispatchStep (modules : List RtModule) (i k : Nat) (s : State) : State :=
  let q := s.getMsgqInput i
  let msg := q.queue q.read
  match modules[k]? with
  | none => { s with dispatched := s.dispatched ++ [seen msg], receiver := .advance i }
  | some m =>
    if m.hasMsgHandle = true ∧ (msg.moduleId = boardcastMsg ∨ msg.moduleId = m.moduleId) then
      let s := { s with handled := s.handled ++ [(k, seen msg)] }
      if msg.moduleId = m.moduleId then
        { s with dispatched := s.dispatched ++ [seen msg], receiver := .advance i }
      else { s with receiver := .dispatch i (k + 1) }
    else { s with receiver := .dispatch i (k + 1) }

def commStep (modules : List RtModule) (s : State) : State :=
  match s.receiver with
  | .scan i =>
    let q := s.getMsgqInput i
    if q.readTotal < q.writeTotal then { s with receiver := .dispatch i 0 }
    else { s with receiver := .scan (nextQueue i) }
  | .dispatch i k => dispatchStep modules i k s
  | .advance i =>
    let q := s.getMsgqInput i
    { s.setMsgqInput i { q with read := q.read + smMsgSize } with receiver := .wrap i }
  | .wrap i =>
    let q := s.getMsgqInput i
    let read := if smMsgqSize ≤ q.read then q.read - smMsgqSize else q.read
    { s.setMsgqInput i { q with read } with receiver := .total i }
  | .total i =>
    let q := s.getMsgqInput i
    { s.setMsgqInput i { q with readTotal := int32 (q.readTotal + smMsgSize) } with
      receiver := .scan (nextQueue i) }

inductive Action where
  | call (r : Request)
  | send
  | comm

def step (modules : List RtModule) (a : Action) (s : State) : State :=
  match a with
  | .call r =>
    match s.sender with
    | .idle => { s with sender := .testRead r }
    | _ => s
  | .send => sendStep s
  | .comm => commStep modules s

def State.sent (s : State) : List Request :=
  (s.returned.filter fun x => x.2 = sOk).map Prod.fst

def tryToDispatchMsg (d : Delivery) : Nat → List RtModule → List (Nat × Delivery)
  | _, [] => []
  | k, m :: ms =>
    if m.hasMsgHandle = true ∧ (d.moduleId = boardcastMsg ∨ d.moduleId = m.moduleId) then
      (k, d) :: if d.moduleId = m.moduleId then [] else tryToDispatchMsg d (k + 1) ms
    else tryToDispatchMsg d (k + 1) ms

end SynaBoot.Mailbox
