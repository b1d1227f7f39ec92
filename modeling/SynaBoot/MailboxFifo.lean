import SynaBoot.Mailbox
import SynaBoot.Ring

namespace SynaBoot.MailboxFifo

open SynaBoot.Schedules SynaBoot.Mailbox

def place (k : Nat) : Nat := Ring.offset smMsgSize smMsgqMsgCount k

structure HoldsUpTo (m : SmMessage) (r : Request) (i : Nat) : Prop where
  moduleId : m.moduleId = int16 r.moduleId
  msgLen : m.msgLen = int16 r.len
  msgBody : ∀ j < i, m.msgBody j = r.body.getD j 0

def asStored (r : Request) : Delivery := ⟨int16 r.moduleId, r.len, r.body.take r.len⟩

def asSent (r : Request) : Delivery := ⟨r.moduleId, r.body.length, r.body⟩

structure Fits (r : Request) : Prop where
  moduleId : int16 r.moduleId = r.moduleId
  length : r.body.length ≤ smMsgBodySize

theorem len_le (r : Request) : r.len ≤ smMsgBodySize ∧ r.len ≤ r.body.length := by
  rw [Request.len]
  split <;> omega

theorem int16_len (r : Request) : int16 r.len = r.len := by
  have h := (len_le r).1
  have hsize : smMsgBodySize = 28 := rfl
  exact Int.bmod_eq_of_le (by omega) (by omega)

theorem int32_small {x : Int} (h0 : 0 ≤ x) (h : x < 2 ^ 31) : int32 x = x :=
  Int.bmod_eq_of_le (by omega) (by omega)

theorem asStored_of_fits {r : Request} (h : Fits r) : asStored r = asSent r := by
  have hlen : r.len = r.body.length := by
    rw [Request.len, if_neg (not_lt.mpr h.length)]
  rw [asStored, asSent, h.moduleId, hlen, List.take_length]

theorem seen_of_holds {m : SmMessage} {r : Request} (h : HoldsUpTo m r r.len) :
    seen m = asStored r := by
  have hlen : m.msgLen.toNat = r.len := by
    rw [h.msgLen, int16_len, Int.toNat_natCast]
  have hbody : (List.range r.len).map m.msgBody = r.body.take r.len := by
    refine List.ext_getElem (by simp [(len_le r).2]) fun i h1 h2 => ?_
    have hi : i < r.len := by simpa using h1
    have hi' : i < r.body.length := lt_of_lt_of_le hi (len_le r).2
    rw [List.getElem_map, List.getElem_range, h.msgBody i hi, List.getElem_take,
      List.getD_eq_getElem?_getD, List.getElem?_eq_getElem hi', Option.getD_some]
  rw [seen, asStored, hlen, hbody, h.moduleId, h.msgLen, int16_len]

def freed (d : Nat) : Receiver → Nat
  | .advance _ => d - 1
  | _ => d

def writeAt (n : Nat) : Sender → Nat
  | .wrap _ => place n + smMsgSize
  | .total _ => place (n + 1)
  | _ => place n

def admitted : Sender → Bool
  | .idle | .testRead _ | .testTotals _ => false
  | _ => true

def Written (m : SmMessage) : Sender → Prop
  | .putLen r => m.moduleId = int16 r.moduleId
  | .putBody r i => i ≤ r.len ∧ HoldsUpTo m r i
  | .advance r | .wrap r | .total r => HoldsUpTo m r r.len
  | _ => True

structure SenderAt (q : MsgQ) (n free : Nat) (pc : Sender) : Prop where
  write : q.write = writeAt n pc
  room : admitted pc = true → n < free + smMsgqMsgCount
  slot : Written (q.queue (place n)) pc

def readAt (d : Nat) : Receiver → Nat
  | .advance _ => place (d - 1)
  | .wrap _ => place (d - 1) + smMsgSize
  | _ => place d

def counted (d : Nat) : Receiver → Nat
  | .scan _ | .dispatch _ _ => d
  | _ => d - 1

def Placed (modules : List RtModule) (n d : Nat) : Receiver → Prop
  | .scan i => i < smRecvQCnt
  | .dispatch i k => i = 1 ∧ k ≤ modules.length ∧ d < n
  | .advance i | .wrap i | .total i => i = 1 ∧ 0 < d

structure ReceiverAt (modules : List RtModule) (q : MsgQ) (n d : Nat) (pc : Receiver) : Prop where
  read : q.read = readAt d pc
  readTotal : q.readTotal = smMsgSize * counted d pc
  placed : Placed modules n d pc

def HandledAt (modules : List RtModule) (sent : List Request) (dispatched : List Delivery)
    (handled : List (Nat × Delivery)) : Receiver → Prop
  | .dispatch _ k => ∀ r, sent[dispatched.length]? = some r →
      handled ++ tryToDispatchMsg (asStored r) k (modules.drop k) =
        (dispatched ++ [asStored r]).flatMap fun x => tryToDispatchMsg x 0 modules
  | _ => handled = dispatched.flatMap fun x => tryToDispatchMsg x 0 modules

structure Inv (modules : List RtModule) (q : MsgQ) (sent : List Request)
    (dispatched : List Delivery) (handled : List (Nat × Delivery)) (sender : Sender)
    (receiver : Receiver) : Prop where
  writeTotal : q.writeTotal = smMsgSize * sent.length
  receiverAt : ReceiverAt modules q sent.length dispatched.length receiver
  room : sent.length ≤ freed dispatched.length receiver + smMsgqMsgCount
  senderAt : SenderAt q sent.length (freed dispatched.length receiver) sender
  stored : ∀ k r, dispatched.length ≤ k → sent[k]? = some r →
    HoldsUpTo (q.queue (place k)) r r.len
  delivered : dispatched = (sent.take dispatched.length).map asStored
  handledAt : HandledAt modules sent dispatched handled receiver

structure Coherent (modules : List RtModule) (s : State) : Prop where
  input0 : s.msgqInput0 = zeroedQ
  input1 : Inv modules s.msgqInput1 s.sent s.dispatched s.handled s.sender s.receiver

theorem count_pos : 0 < smMsgqMsgCount := by decide

theorem size_pos : 0 < smMsgSize := by decide

theorem place_succ (k : Nat) :
    (if smMsgqSize ≤ place k + smMsgSize then place k + smMsgSize - smMsgqSize
      else place k + smMsgSize) = place (k + 1) :=
  Ring.offset_succ size_pos count_pos k

theorem place_ne {k m : Nat} (hkm : k < m) (hm : m < k + smMsgqMsgCount) : place k ≠ place m :=
  Ring.offset_ne size_pos hkm hm

theorem freed_le (d : Nat) (pc : Receiver) : freed d pc ≤ d := by
  cases pc with
  | advance i => exact Nat.sub_le d 1
  | _ => exact le_rfl

theorem counted_le_freed (d : Nat) (pc : Receiver) : counted d pc ≤ freed d pc := by
  cases pc with
  | wrap i => exact Nat.sub_le d 1
  | total i => exact Nat.sub_le d 1
  | _ => exact le_rfl

theorem SenderAt.mono {q q' : MsgQ} {n free free' : Nat} {pc : Sender} (h : SenderAt q n free pc)
    (hwrite : q'.write = q.write) (hqueue : q'.queue = q.queue) (hfree : free ≤ free') :
    SenderAt q' n free' pc :=
  ⟨hwrite.trans h.write, fun hp => lt_of_lt_of_le (h.room hp) (Nat.add_le_add_right hfree _),
    hqueue ▸ h.slot⟩

variable {modules : List RtModule}

theorem Placed.mono {n n' d : Nat} {pc : Receiver} (h : Placed modules n d pc) (hn : n ≤ n') :
    Placed modules n' d pc := by
  cases pc with
  | dispatch i k => exact ⟨h.1, h.2.1, lt_of_lt_of_le h.2.2 hn⟩
  | _ => exact h

section

variable {modules : List RtModule} {q : MsgQ} {sent : List Request} {dispatched : List Delivery}
  {handled : List (Nat × Delivery)} {sender : Sender} {receiver : Receiver}
  (h : Inv modules q sent dispatched handled sender receiver)
include h

theorem Inv.dispatched_le : dispatched.length ≤ sent.length := by
  have hlen := congrArg List.length h.delivered
  rw [List.length_map, List.length_take] at hlen
  omega

theorem Inv.of_eq {sent' : List Request} (he : sent' = sent) :
    Inv modules q sent' dispatched handled sender receiver := he ▸ h

theorem Inv.room_of_totals (heq : q.readTotal = q.writeTotal) :
    sent.length < freed dispatched.length receiver + smMsgqMsgCount := by
  have hcounted := counted_le_freed dispatched.length receiver
  rw [h.receiverAt.readTotal, h.writeTotal] at heq
  have hsize : smMsgSize = 32 := rfl
  have hpos := count_pos
  rw [hsize] at heq
  omega

theorem Inv.resume {q' : MsgQ} {pc : Sender} (hread : q'.read = q.read)
    (hrt : q'.readTotal = q.readTotal) (hwt : q'.writeTotal = q.writeTotal)
    (hqueue : ∀ k, dispatched.length ≤ k → k < sent.length →
      q'.queue (place k) = q.queue (place k))
    (hs : SenderAt q' sent.length (freed dispatched.length receiver) pc) :
    Inv modules q' sent dispatched handled pc receiver := by
  refine ⟨hwt.trans h.writeTotal, ⟨hread.trans h.receiverAt.read, hrt.trans h.receiverAt.readTotal,
    h.receiverAt.placed⟩, h.room, hs, fun k r hk hr => ?_, h.delivered, h.handledAt⟩
  obtain ⟨hlt, -⟩ := List.getElem?_eq_some_iff.mp hr
  exact (hqueue k hk hlt).symm ▸ h.stored k r hk hr

theorem Inv.putSlot {m : SmMessage} {pc : Sender} (hadm : admitted sender = true)
    (hwrite : writeAt sent.length sender = place sent.length)
    (hwrite' : writeAt sent.length pc = place sent.length) (hslot : Written m pc) :
    Inv modules (q.setQueue q.write m) sent dispatched handled pc receiver := by
  have hroom := h.senderAt.room hadm
  have hfree := freed_le dispatched.length receiver
  have hw := h.senderAt.write.trans hwrite
  refine h.resume rfl rfl rfl (fun k hk hlt => ?_) ⟨hw.trans hwrite'.symm, fun _ => hroom, ?_⟩
  · rw [MsgQ.setQueue, hw]
    exact Function.update_of_ne (place_ne hlt (by omega)) _ _
  · rw [MsgQ.setQueue, hw]
    simp only [Function.update_self]
    exact hslot

theorem Inv.publish {r : Request} (hpc : sender = .total r) (hn : sent.length + 1 < 2 ^ 26) :
    Inv modules { q with writeTotal := int32 (q.writeTotal + smMsgSize) } (sent ++ [r]) dispatched
      handled .idle receiver := by
  have hs := h.senderAt
  rw [hpc] at hs
  have hd := h.dispatched_le
  have hlen : (sent ++ [r]).length = sent.length + 1 := List.length_append
  refine ⟨?_, ?_, ?_, ?_, fun k r' hk hr => ?_, ?_, ?_⟩
  · rw [hlen, Nat.cast_add, Nat.cast_one, mul_add, mul_one, ← h.writeTotal]
    have hsize : smMsgSize = 32 := rfl
    have hwt := h.writeTotal
    rw [hsize] at hwt ⊢
    exact int32_small (by omega) (by omega)
  · rw [hlen]
    exact ⟨h.receiverAt.read, h.receiverAt.readTotal, h.receiverAt.placed.mono (Nat.le_succ _)⟩
  · rw [hlen]
    exact hs.room rfl
  · rw [hlen]
    exact ⟨hs.write, fun hp => absurd hp Bool.false_ne_true, trivial⟩
  · rcases Nat.lt_or_ge k sent.length with hlt | hge
    · rw [List.getElem?_append_left hlt] at hr
      exact h.stored k r' hk hr
    · rw [List.getElem?_append_right hge, List.getElem?_singleton] at hr
      split at hr
      · next h0 =>
        cases hr
        rw [le_antisymm (Nat.sub_eq_zero_iff_le.mp h0) hge]
        exact hs.slot
      · cases hr
  · rw [List.take_append_of_le_length hd]
    exact h.delivered
  · have hh := h.handledAt
    have hp := h.receiverAt.placed
    cases receiver with
    | dispatch i k =>
      intro r' hr
      rw [List.getElem?_append_left hp.2.2] at hr
      exact hh r' hr
    | _ => exact hh

end

theorem sent_append (s : State) (r : Request) (code : Int) :
    State.sent { s with returned := s.returned ++ [(r, code)] } =
      if code = sOk then s.sent ++ [r] else s.sent := by
  simp only [State.sent, List.filter_append, List.map_append]
  split
  · next hc => simp [hc]
  · next hc => simp [hc]

/-- `m_iRead` is read before it is wrapped, with all slots in use. -/
def readsUnwrapped (q : MsgQ) : Sender → Bool
  | .testRead _ =>
    decide (q.read = smMsgqSize ∧ q.writeTotal - q.readTotal = smMsgqSize + smMsgSize)
  | _ => false

theorem place_le (k : Nat) : place k + smMsgSize ≤ smMsgqSize := by
  have hlt := Nat.mod_lt k count_pos
  have hcount : smMsgqMsgCount = 15 := by decide
  have hsize : smMsgSize = 32 := rfl
  have hq : smMsgqSize = 480 := rfl
  rw [place, Ring.offset, hsize, hq]
  rw [hcount] at hlt ⊢
  omega

section

variable {modules : List RtModule} {q : MsgQ} {sent : List Request} {dispatched : List Delivery}
  {handled : List (Nat × Delivery)}

theorem Inv.room_of_ne {r : Request} {receiver : Receiver}
    (h : Inv modules q sent dispatched handled (.testRead r) receiver)
    (hsafe : readsUnwrapped q (.testRead r) = false) (hne : q.read ≠ q.write) :
    sent.length < freed dispatched.length receiver + smMsgqMsgCount := by
  refine lt_of_le_of_ne h.room fun hfull => hne ?_
  have hw : q.write = place sent.length := h.senderAt.write
  have hback : place sent.length = place (freed dispatched.length receiver) := by
    rw [hfull]
    exact Ring.offset_add_count _
  have hread := h.receiverAt.read
  rw [hw, hback, hread]
  cases receiver with
  | wrap i =>
    have hrt := h.receiverAt.readTotal
    have hpos : 0 < dispatched.length := h.receiverAt.placed.2
    simp only [readAt, counted, freed] at hread hrt hfull ⊢
    have hsucc := place_succ (dispatched.length - 1)
    rw [Nat.sub_add_cancel hpos] at hsucc
    by_cases hend : smMsgqSize ≤ place (dispatched.length - 1) + smMsgSize
    · have hq : q.read = smMsgqSize := hread.trans (le_antisymm (place_le _) hend)
      have hdiff : q.writeTotal - q.readTotal = smMsgqSize + smMsgSize := by
        have hn : sent.length = dispatched.length - 1 + 16 := by
          have hcount : smMsgqMsgCount = 15 := by decide
          omega
        rw [h.writeTotal, hrt, hn, Nat.cast_add, mul_add, add_sub_cancel_left]
        rfl
      exact absurd ⟨hq, hdiff⟩ (of_decide_eq_false hsafe)
    · rwa [if_neg hend] at hsucc
  | _ => rfl

theorem HoldsUpTo.put {m : SmMessage} {r : Request} {i : Nat} (h : HoldsUpTo m r i) :
    HoldsUpTo { m with msgBody := Function.update m.msgBody i (r.body.getD i 0) } r (i + 1) := by
  refine ⟨h.moduleId, h.msgLen, fun j hj => ?_⟩
  rcases Nat.lt_succ_iff_lt_or_eq.mp hj with hlt | rfl
  · simp only [Function.update_of_ne (Nat.ne_of_lt hlt)]
    exact h.msgBody j hlt
  · exact Function.update_self _ _ _

theorem Coherent.sendStep {s : State} (h : Coherent modules s)
    (hsafe : readsUnwrapped s.msgqInput1 s.sender = false)
    (hn : (sendStep s).sent.length < 2 ^ 26) : Coherent modules (sendStep s) := by
  have hi := h.input1
  have hs := hi.senderAt
  rw [Mailbox.sendStep] at hn ⊢
  cases hpc : s.sender with
  | idle => exact h
  | testRead r =>
    rw [hpc] at hi hs hsafe
    simp only
    split
    · exact ⟨h.input0, hi.resume rfl rfl rfl (fun _ _ _ => rfl)
        ⟨hs.write, fun hp => absurd hp Bool.false_ne_true, trivial⟩⟩
    · next hne =>
      exact ⟨h.input0, hi.resume rfl rfl rfl (fun _ _ _ => rfl)
        ⟨hs.write, fun _ => hi.room_of_ne hsafe hne, trivial⟩⟩
  | testTotals r =>
    rw [hpc] at hi hs
    simp only
    split
    · have hsent := (sent_append s r (-1)).trans (if_neg (by decide))
      have hidle : Inv modules s.msgqInput1 s.sent s.dispatched s.handled .idle s.receiver :=
        hi.resume rfl rfl rfl (fun _ _ _ => rfl)
          ⟨hs.write, fun hp => absurd hp Bool.false_ne_true, trivial⟩
      exact ⟨h.input0, hidle.of_eq hsent⟩
    · next heq =>
      exact ⟨h.input0, hi.resume rfl rfl rfl (fun _ _ _ => rfl)
        ⟨hs.write, fun _ => hi.room_of_totals (not_not.mp heq), trivial⟩⟩
  | putId r =>
    rw [hpc] at hi
    exact ⟨h.input0, hi.putSlot rfl rfl rfl rfl⟩
  | putLen r =>
    rw [hpc] at hi hs
    refine ⟨h.input0, hi.putSlot rfl rfl rfl ?_⟩
    refine ⟨Nat.zero_le _, ?_, ?_, fun j hj => absurd hj (Nat.not_lt_zero j)⟩
    · rw [hs.write]
      exact hs.slot
    · dsimp only
  | putBody r i =>
    rw [hpc] at hi hs
    obtain ⟨hle, hup⟩ := hs.slot
    simp only
    split
    · next hlt =>
      refine ⟨h.input0, hi.putSlot rfl rfl rfl ⟨hlt, ?_⟩⟩
      rw [hs.write]
      exact hup.put
    · next hge =>
      refine ⟨h.input0, hi.resume rfl rfl rfl (fun _ _ _ => rfl) ⟨hs.write, fun _ => hs.room rfl, ?_⟩⟩
      rw [le_antisymm hle (not_lt.mp hge)] at hup
      exact hup
  | advance r =>
    rw [hpc] at hi hs
    exact ⟨h.input0, hi.resume rfl rfl rfl (fun _ _ _ => rfl)
      ⟨congrArg (· + smMsgSize) hs.write, fun _ => hs.room rfl, hs.slot⟩⟩
  | wrap r =>
    rw [hpc] at hi hs
    refine ⟨h.input0, hi.resume rfl rfl rfl (fun _ _ _ => rfl) ⟨?_, fun _ => hs.room rfl, hs.slot⟩⟩
    simp only [hs.write]
    exact place_succ s.sent.length
  | total r =>
    rw [hpc] at hi hn
    have hsent := (sent_append s r sOk).trans (if_pos rfl)
    have hlen : (s.sent ++ [r]).length < 2 ^ 26 := lt_of_eq_of_lt (congrArg List.length hsent.symm) hn
    rw [List.length_append] at hlen
    exact ⟨h.input0, (hi.publish rfl hlen).of_eq hsent⟩

end

theorem Coherent.call {s : State} (h : Coherent modules s) (r : Request) (hpc : s.sender = .idle) :
    Coherent modules { s with sender := .testRead r } := by
  have hs := h.input1.senderAt
  rw [hpc] at hs
  exact ⟨h.input0, h.input1.resume rfl rfl rfl (fun _ _ _ => rfl)
    ⟨hs.write, fun hp => absurd hp Bool.false_ne_true, trivial⟩⟩

section

variable {modules : List RtModule} {q : MsgQ} {sent : List Request} {dispatched : List Delivery}
  {handled : List (Nat × Delivery)} {sender : Sender}

theorem Inv.move {receiver pc : Receiver}
    (h : Inv modules q sent dispatched handled sender receiver) {q' : MsgQ}
    (hr : ReceiverAt modules q' sent.length dispatched.length pc) (hwrite : q'.write = q.write)
    (hwt : q'.writeTotal = q.writeTotal) (hqueue : q'.queue = q.queue)
    (hfree : freed dispatched.length receiver ≤ freed dispatched.length pc)
    {calls : List (Nat × Delivery)} (hh : HandledAt modules sent dispatched calls pc) :
    Inv modules q' sent dispatched calls sender pc := by
  refine ⟨hwt.trans h.writeTotal, hr, ?_, h.senderAt.mono hwrite hqueue hfree, fun k r hk hget => ?_,
    h.delivered, hh⟩
  · exact le_trans h.room (Nat.add_le_add_right hfree _)
  · rw [hqueue]
    exact h.stored k r hk hget

theorem Inv.finish {i k : Nat} (h : Inv modules q sent dispatched handled sender (.dispatch i k))
    {r : Request} (hr : sent[dispatched.length]? = some r) {calls : List (Nat × Delivery)}
    (hcalls : calls = (dispatched ++ [asStored r]).flatMap fun x => tryToDispatchMsg x 0 modules) :
    Inv modules q sent (dispatched ++ [asStored r]) calls sender (.advance i) := by
  have hlen : (dispatched ++ [asStored r]).length = dispatched.length + 1 := List.length_append
  have hp := h.receiverAt.placed
  refine ⟨h.writeTotal, ⟨?_, ?_, ?_⟩, ?_, ?_, fun j r' hj hget => ?_, ?_, hcalls⟩
  · rw [hlen]
    exact h.receiverAt.read
  · rw [hlen]
    exact h.receiverAt.readTotal
  · rw [hlen]
    exact ⟨hp.1, Nat.succ_pos _⟩
  · rw [hlen]
    exact h.room
  · rw [hlen]
    exact h.senderAt
  · rw [hlen] at hj
    exact h.stored j r' (Nat.le_of_succ_le hj) hget
  · rw [hlen, List.take_add_one, hr, List.map_append, ← h.delivered]
    rfl

theorem Inv.dispatch {i k : Nat} (h : Inv modules q sent dispatched handled sender (.dispatch i k)) :
    ∃ r, sent[dispatched.length]? = some r ∧ seen (q.queue q.read) = asStored r := by
  have hlt := h.receiverAt.placed.2.2
  refine ⟨_, List.getElem?_eq_getElem hlt, ?_⟩
  have hread : q.read = place dispatched.length := h.receiverAt.read
  rw [hread]
  exact seen_of_holds (h.stored _ _ le_rfl (List.getElem?_eq_getElem hlt))

end

theorem Coherent.dispatchStep {s : State} (h : Coherent modules s) {i k : Nat}
    (hpc : s.receiver = .dispatch i k) : Coherent modules (dispatchStep modules i k s) := by
  have hi := h.input1
  rw [hpc] at hi
  obtain ⟨rfl, hk, hlt⟩ : i = 1 ∧ k ≤ modules.length ∧ s.dispatched.length < s.sent.length :=
    hi.receiverAt.placed
  obtain ⟨r, hr, hseen⟩ := hi.dispatch
  have hid : (s.msgqInput1.queue s.msgqInput1.read).moduleId = (asStored r).moduleId :=
    congrArg Delivery.moduleId hseen
  have hcalls := hi.handledAt r hr
  have hq : s.getMsgqInput 1 = s.msgqInput1 := rfl
  rw [Mailbox.dispatchStep]
  simp only [hq, hseen, hid]
  cases hm : modules[k]? with
  | none =>
    have hdrop : modules.drop k = [] := List.drop_eq_nil_of_le (List.getElem?_eq_none_iff.mp hm)
    rw [hdrop, tryToDispatchMsg, List.append_nil] at hcalls
    exact ⟨h.input0, hi.finish hr hcalls⟩
  | some m =>
    obtain ⟨hlen, rfl⟩ := List.getElem?_eq_some_iff.mp hm
    rw [List.drop_eq_getElem_cons hlen, tryToDispatchMsg] at hcalls
    have hnext : ∀ calls, calls ++ tryToDispatchMsg (asStored r) (k + 1) (modules.drop (k + 1)) =
          ((s.dispatched ++ [asStored r]).flatMap fun x => tryToDispatchMsg x 0 modules) →
        Inv modules s.msgqInput1 s.sent s.dispatched calls s.sender (.dispatch 1 (k + 1)) := by
      intro calls heq
      have hat : ReceiverAt modules s.msgqInput1 s.sent.length s.dispatched.length
          (.dispatch 1 (k + 1)) := ⟨hi.receiverAt.read, hi.receiverAt.readTotal, rfl, hlen, hlt⟩
      refine hi.move hat rfl rfl rfl le_rfl fun r' hr' => ?_
      rw [Option.some.inj (hr'.symm.trans hr)]
      exact heq
    simp only
    split
    · next hmatch =>
      rw [if_pos hmatch] at hcalls
      split
      · next heq =>
        rw [if_pos heq] at hcalls
        exact ⟨h.input0, hi.finish hr hcalls⟩
      · next hne =>
        rw [if_neg hne, List.append_cons] at hcalls
        exact ⟨h.input0, hnext _ hcalls⟩
    · next hno =>
      rw [if_neg hno] at hcalls
      exact ⟨h.input0, hnext _ hcalls⟩

section

variable {modules : List RtModule} {s : State}

theorem commStep_scan {i : Nat} (hpc : s.receiver = .scan i) : commStep modules s =
    if (s.getMsgqInput i).readTotal < (s.getMsgqInput i).writeTotal then
      { s with receiver := .dispatch i 0 }
    else { s with receiver := .scan (nextQueue i) } := by
  rw [commStep, hpc]

theorem commStep_advance (hpc : s.receiver = .advance 1) : commStep modules s =
    { s with
      msgqInput1 := { s.msgqInput1 with read := s.msgqInput1.read + smMsgSize }
      receiver := .wrap 1 } := by
  rw [commStep, hpc]
  rfl

theorem commStep_wrap (hpc : s.receiver = .wrap 1) : commStep modules s =
    { s with
      msgqInput1 := { s.msgqInput1 with
        read := if smMsgqSize ≤ s.msgqInput1.read then s.msgqInput1.read - smMsgqSize
          else s.msgqInput1.read }
      receiver := .total 1 } := by
  rw [commStep, hpc]
  rfl

theorem commStep_total (hpc : s.receiver = .total 1) : commStep modules s =
    { s with
      msgqInput1 := { s.msgqInput1 with
        readTotal := int32 (s.msgqInput1.readTotal + smMsgSize) }
      receiver := .scan 0 } := by
  rw [commStep, hpc]
  rfl

theorem Coherent.scan (h : Coherent modules s) {i : Nat} (hpc : s.receiver = .scan i) :
    Coherent modules (commStep modules s) := by
  have hi := h.input1
  rw [hpc] at hi
  have hr := hi.receiverAt
  have hnext : ReceiverAt modules s.msgqInput1 s.sent.length s.dispatched.length
      (.scan (nextQueue i)) := by
    refine ⟨hr.read, hr.readTotal, ?_⟩
    rw [nextQueue]
    split
    · next hlt => exact hlt
    · exact Nat.zero_lt_succ 1
  rw [commStep_scan hpc]
  split
  · next hlt =>
    have hone : i = 1 := by
      have hi2 : i < 2 := hr.placed
      rcases Nat.eq_zero_or_pos i with rfl | hpos
      · rw [State.getMsgqInput, if_pos rfl, h.input0] at hlt
        exact absurd hlt (by decide)
      · omega
    subst hone
    have hless : s.dispatched.length < s.sent.length := by
      have hq : s.getMsgqInput 1 = s.msgqInput1 := rfl
      have hrt : s.msgqInput1.readTotal = smMsgSize * s.dispatched.length := hr.readTotal
      have hsize : smMsgSize = 32 := rfl
      rw [hq, hrt, hi.writeTotal, hsize] at hlt
      omega
    have hat : ReceiverAt modules s.msgqInput1 s.sent.length s.dispatched.length (.dispatch 1 0) :=
      ⟨hr.read, hr.readTotal, rfl, Nat.zero_le _, hless⟩
    refine ⟨h.input0, hi.move hat rfl rfl rfl le_rfl fun r _ => ?_⟩
    have hh : s.handled = s.dispatched.flatMap fun x => tryToDispatchMsg x 0 modules := hi.handledAt
    rw [List.drop_zero, List.flatMap_append, hh, List.flatMap_singleton]
  · exact ⟨h.input0, hi.move hnext rfl rfl rfl le_rfl hi.handledAt⟩

theorem Coherent.commStep (h : Coherent modules s) (hn : s.sent.length < 2 ^ 26) :
    Coherent modules (commStep modules s) := by
  have hi := h.input1
  have hle := hi.dispatched_le
  cases hpc : s.receiver with
  | scan i => exact h.scan hpc
  | dispatch i k =>
    rw [Mailbox.commStep, hpc]
    exact h.dispatchStep hpc
  | advance i =>
    rw [hpc] at hi
    have hr := hi.receiverAt
    obtain ⟨rfl, hpos⟩ : i = 1 ∧ 0 < s.dispatched.length := hr.placed
    have hat : ReceiverAt modules { s.msgqInput1 with read := s.msgqInput1.read + smMsgSize }
        s.sent.length s.dispatched.length (.wrap 1) :=
      ⟨congrArg (· + smMsgSize) hr.read, hr.readTotal, rfl, hpos⟩
    rw [commStep_advance hpc]
    exact ⟨h.input0, hi.move hat rfl rfl rfl (Nat.sub_le _ 1) hi.handledAt⟩
  | wrap i =>
    rw [hpc] at hi
    have hr := hi.receiverAt
    obtain ⟨rfl, hpos⟩ : i = 1 ∧ 0 < s.dispatched.length := hr.placed
    have hread : s.msgqInput1.read = place (s.dispatched.length - 1) + smMsgSize := hr.read
    have hsucc := place_succ (s.dispatched.length - 1)
    rw [Nat.sub_add_cancel hpos, ← hread] at hsucc
    rw [commStep_wrap hpc, hsucc]
    have hat : ReceiverAt modules { s.msgqInput1 with read := place s.dispatched.length }
        s.sent.length s.dispatched.length (.total 1) := ⟨rfl, hr.readTotal, rfl, hpos⟩
    exact ⟨h.input0, hi.move hat rfl rfl rfl le_rfl hi.handledAt⟩
  | total i =>
    rw [hpc] at hi
    have hr := hi.receiverAt
    obtain ⟨rfl, hpos⟩ : i = 1 ∧ 0 < s.dispatched.length := hr.placed
    have htotal : int32 (s.msgqInput1.readTotal + smMsgSize) = smMsgSize * s.dispatched.length := by
      have hrt : s.msgqInput1.readTotal = smMsgSize * (s.dispatched.length - 1 : Nat) := hr.readTotal
      have hsize : smMsgSize = 32 := rfl
      rw [hsize] at hrt ⊢
      rw [int32_small (by omega) (by omega)]
      omega
    have hat : ReceiverAt modules { s.msgqInput1 with
          readTotal := int32 (s.msgqInput1.readTotal + smMsgSize) }
        s.sent.length s.dispatched.length (.scan 0) := ⟨hr.read, htotal, Nat.zero_lt_succ 1⟩
    rw [commStep_total hpc]
    exact ⟨h.input0, hi.move hat rfl rfl rfl le_rfl hi.handledAt⟩

end

end SynaBoot.MailboxFifo
