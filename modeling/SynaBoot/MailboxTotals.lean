import SynaBoot.MailboxDelivery

namespace SynaBoot.MailboxTotals

open SynaBoot.Schedules SynaBoot.Mailbox SynaBoot.MailboxFifo SynaBoot.MailboxDelivery

def bytes (n : Nat) : Int := int32 (smMsgSize * n)

theorem bytes_succ (n : Nat) : int32 (bytes n + smMsgSize) = bytes (n + 1) := by
  have hmul : (smMsgSize * n + smMsgSize : Int) = smMsgSize * (n + 1 : Nat) := by
    push_cast
    ring
  unfold bytes int32
  rw [Int.bmod_add_bmod, hmul]

theorem bytes_zero : bytes 0 = 0 := by decide

theorem bytes_lt_iff (d n : Nat) :
    bytes d < bytes n ↔ (d + 2 ^ 26) % 2 ^ 27 < (n + 2 ^ 26) % 2 ^ 27 := by
  have hbytes (k : Nat) : bytes k = 32 * (((k + 2 ^ 26) % 2 ^ 27 : Nat) - 2 ^ 26 : Int) := by
    have hsize : smMsgSize = 32 := rfl
    unfold bytes int32
    rw [hsize, Int.bmod_def]
    push_cast
    split <;> omega
  rw [hbytes, hbytes]
  omega

def Located (modules : List RtModule) (d : Nat) : Receiver → Prop
  | .scan i => i < smRecvQCnt
  | .dispatch i k => i = 1 ∧ k ≤ modules.length
  | .advance i | .wrap i | .total i => i = 1 ∧ 0 < d

structure Totals (modules : List RtModule) (s : State) : Prop where
  input0 : s.msgqInput0 = zeroedQ
  writeTotal : s.msgqInput1.writeTotal = bytes s.sent.length
  readTotal : s.msgqInput1.readTotal = bytes (counted s.dispatched.length s.receiver)
  located : Located modules s.dispatched.length s.receiver

section

variable {modules : List RtModule} {s : State}

theorem sendStep_totals (s : State) : (sendStep s).msgqInput0 = s.msgqInput0 ∧
    (sendStep s).msgqInput1.readTotal = s.msgqInput1.readTotal ∧
    ((sendStep s).msgqInput1.writeTotal = s.msgqInput1.writeTotal ∧ (sendStep s).sent = s.sent ∨
      ∃ r, (sendStep s).msgqInput1.writeTotal = int32 (s.msgqInput1.writeTotal + smMsgSize) ∧
        (sendStep s).sent = s.sent ++ [r]) := by
  unfold sendStep
  cases s.sender with
  | testRead r =>
    dsimp only
    split <;> exact ⟨rfl, rfl, .inl ⟨rfl, rfl⟩⟩
  | testTotals r =>
    dsimp only
    split
    · exact ⟨rfl, rfl, .inl ⟨rfl, sent_append s r (-1)⟩⟩
    · exact ⟨rfl, rfl, .inl ⟨rfl, rfl⟩⟩
  | putBody r i =>
    dsimp only
    split <;> exact ⟨rfl, rfl, .inl ⟨rfl, rfl⟩⟩
  | total r => exact ⟨rfl, rfl, .inr ⟨r, rfl, sent_append s r sOk⟩⟩
  | _ => exact ⟨rfl, rfl, .inl ⟨rfl, rfl⟩⟩

theorem Totals.sendStep (h : Totals modules s) : Totals modules (sendStep s) := by
  obtain ⟨hrc, hd, -, -⟩ := sendStep_frame s
  obtain ⟨h0, hr, ⟨hw, hsent⟩ | ⟨r, hw, hsent⟩⟩ := sendStep_totals s
  · refine ⟨h0.trans h.input0, ?_, ?_, ?_⟩
    · rw [hw, hsent]
      exact h.writeTotal
    · rw [hr, hrc, hd]
      exact h.readTotal
    · rw [hrc, hd]
      exact h.located
  · refine ⟨h0.trans h.input0, ?_, ?_, ?_⟩
    · rw [hw, hsent, h.writeTotal, bytes_succ, List.length_append, List.length_singleton]
    · rw [hr, hrc, hd]
      exact h.readTotal
    · rw [hrc, hd]
      exact h.located

theorem Totals.scan_zero (h : Totals modules s) :
    ¬(s.getMsgqInput 0).readTotal < (s.getMsgqInput 0).writeTotal := by
  have hq : s.getMsgqInput 0 = s.msgqInput0 := rfl
  rw [hq, h.input0]
  decide

theorem Totals.scan (h : Totals modules s) {i : Nat} (hpc : s.receiver = .scan i) :
    Totals modules (Mailbox.commStep modules s) := by
  have hloc := h.located
  have hread := h.readTotal
  rw [hpc] at hloc hread
  rw [commStep_scan hpc]
  split
  case isTrue hlt =>
    have hone : i = 1 := by
      have hi : i < 2 := hloc
      by_contra hne
      have hzero : i = 0 := by omega
      subst hzero
      exact h.scan_zero hlt
    exact ⟨h.input0, h.writeTotal, hread, hone, Nat.zero_le _⟩
  case isFalse =>
    refine ⟨h.input0, h.writeTotal, hread, ?_⟩
    change nextQueue i < 2
    unfold nextQueue
    split
    · assumption
    · decide

theorem dispatchStep_queues (modules : List RtModule) (i k : Nat) (s : State) :
    (dispatchStep modules i k s).msgqInput0 = s.msgqInput0 ∧
      (dispatchStep modules i k s).msgqInput1 = s.msgqInput1 := by
  unfold dispatchStep
  dsimp only
  split
  · exact ⟨rfl, rfl⟩
  · split
    · split <;> exact ⟨rfl, rfl⟩
    · exact ⟨rfl, rfl⟩

theorem Totals.dispatch (h : Totals modules s) {i k : Nat} (hpc : s.receiver = .dispatch i k) :
    Totals modules (dispatchStep modules i k s) := by
  have hloc := h.located
  have hread := h.readTotal
  rw [hpc] at hloc hread
  obtain ⟨rfl, hk⟩ : i = 1 ∧ k ≤ modules.length := hloc
  obtain ⟨h0, h1⟩ := dispatchStep_queues modules 1 k s
  obtain ⟨hret, -, ⟨hrc, x, hd⟩ | ⟨hlt, hrc, hd⟩⟩ := dispatchStep_cases modules 1 k s
  · have hlen : (dispatchStep modules 1 k s).dispatched.length = s.dispatched.length + 1 := by
      rw [hd, List.length_append, List.length_singleton]
    refine ⟨h0.trans h.input0, ?_, ?_, ?_⟩
    · rw [h1, sent_congr hret]
      exact h.writeTotal
    · rw [h1, hrc, hlen]
      exact hread
    · rw [hrc, hlen]
      exact ⟨rfl, Nat.succ_pos _⟩
  · refine ⟨h0.trans h.input0, ?_, ?_, ?_⟩
    · rw [h1, sent_congr hret]
      exact h.writeTotal
    · rw [h1, hrc, hd]
      exact hread
    · rw [hrc, hd]
      exact ⟨rfl, hlt⟩

theorem Totals.commStep (h : Totals modules s) : Totals modules (commStep modules s) := by
  have hloc := h.located
  have hread := h.readTotal
  cases hpc : s.receiver with
  | scan i => exact h.scan hpc
  | dispatch i k =>
    have hstep : Mailbox.commStep modules s = dispatchStep modules i k s := by
      rw [Mailbox.commStep, hpc]
    rw [hstep]
    exact h.dispatch hpc
  | advance i =>
    rw [hpc] at hloc hread
    obtain ⟨rfl, hpos⟩ : i = 1 ∧ 0 < s.dispatched.length := hloc
    rw [commStep_advance hpc]
    exact ⟨h.input0, h.writeTotal, hread, rfl, hpos⟩
  | wrap i =>
    rw [hpc] at hloc hread
    obtain ⟨rfl, hpos⟩ : i = 1 ∧ 0 < s.dispatched.length := hloc
    rw [commStep_wrap hpc]
    exact ⟨h.input0, h.writeTotal, hread, rfl, hpos⟩
  | total i =>
    rw [hpc] at hloc hread
    obtain ⟨rfl, hpos⟩ : i = 1 ∧ 0 < s.dispatched.length := hloc
    have hcount : bytes (s.dispatched.length - 1 + 1) = bytes s.dispatched.length := by
      rw [Nat.sub_add_cancel hpos]
    have hread' : s.msgqInput1.readTotal = bytes (s.dispatched.length - 1) := hread
    rw [commStep_total hpc]
    refine ⟨h.input0, h.writeTotal, ?_, Nat.zero_lt_succ 1⟩
    change int32 (s.msgqInput1.readTotal + smMsgSize) = bytes s.dispatched.length
    rw [hread', bytes_succ, hcount]

theorem Totals.step (h : Totals modules s) (a : Action) : Totals modules (step modules a s) := by
  cases a with
  | call r =>
    unfold Mailbox.step
    dsimp only
    split
    · exact ⟨h.input0, h.writeTotal, h.readTotal, h.located⟩
    · exact h
  | send => exact h.sendStep
  | comm => exact h.commStep

theorem totals_start (modules : List RtModule) : Totals modules .start :=
  ⟨rfl, bytes_zero.symm, bytes_zero.symm, Nat.zero_lt_succ 1⟩

theorem totals_run (as : List Action) : Totals modules (run (step modules) .start as) := by
  have hall : Meets (step modules) (fun _ _ => True) .start as :=
    Meets.of_forall (fun _ _ => trivial) State.start as
  exact run_invariant (fun _ a h _ => h.step a) (totals_start modules) hall

def UnderWay (modules : List RtModule) (d : Nat) (s : State) : Prop :=
  (∃ k ≤ modules.length, s.receiver = .dispatch 1 k ∧ s.dispatched.length = d) ∨
    d < s.dispatched.length

def toGo (modules : List RtModule) (s : State) : Nat :=
  match s.receiver with
  | .dispatch _ k => modules.length + 1 - k
  | _ => 0

theorem UnderWay.commStep {d : Nat} (h : UnderWay modules d s) (hd : ¬d < s.dispatched.length) :
    UnderWay modules d (commStep modules s) ∧ (d < (commStep modules s).dispatched.length ∨
      toGo modules (commStep modules s) < toGo modules s) := by
  obtain ⟨k, hk, hpc, hlen⟩ := h.resolve_right hd
  have hstep : Mailbox.commStep modules s = dispatchStep modules 1 k s := by
    rw [Mailbox.commStep, hpc]
  rw [hstep]
  obtain ⟨-, -, ⟨-, x, hx⟩ | ⟨hlt, hrc, hsame⟩⟩ := dispatchStep_cases modules 1 k s
  · have hgrow : d < (dispatchStep modules 1 k s).dispatched.length := by
      rw [hx, List.length_append, List.length_singleton]
      omega
    exact ⟨.inr hgrow, .inl hgrow⟩
  · refine ⟨.inl ⟨k + 1, hlt, hrc, by rw [hsame, hlen]⟩, .inr ?_⟩
    unfold toGo
    rw [hrc, hpc]
    dsimp only
    omega

theorem step_other (modules : List RtModule) (s : State) {a : Action} (ha : isComm a = false) :
    (step modules a s).receiver = s.receiver ∧ (step modules a s).dispatched = s.dispatched := by
  cases a with
  | call r =>
    unfold step
    dsimp only
    split <;> exact ⟨rfl, rfl⟩
  | send =>
    obtain ⟨hrc, hd, -, -⟩ := sendStep_frame s
    exact ⟨hrc, hd⟩
  | comm => cases ha

theorem UnderWay.step {d : Nat} (h : UnderWay modules d s) (a : Action) :
    UnderWay modules d (step modules a s) := by
  by_cases hd : d < s.dispatched.length
  · exact .inr (lt_of_lt_of_le hd (dispatched_step modules s a))
  · cases hc : isComm a with
    | true =>
      cases a with
      | comm => exact (h.commStep hd).1
      | _ => cases hc
    | false =>
      obtain ⟨hrc, hsame⟩ := step_other modules s hc
      unfold UnderWay
      rw [hrc, hsame]
      exact h

theorem UnderWay.ends {d : Nat} (h : UnderWay modules d s) {bs : List Action}
    (hcount : modules.length + 1 ≤ bs.countP isComm) :
    d < (run (Mailbox.step modules) s bs).dispatched.length := by
  have hall : Meets (Mailbox.step modules) (fun _ _ => True) s bs :=
    Meets.of_forall (fun _ _ => trivial) s bs
  refine run_progress (UnderWay modules d) (fun t => d < t.dispatched.length) (toGo modules) isComm
    ?_ ?_ ?_ ?_ ?_ h hall (le_trans ?_ hcount)
  · exact fun t a ht _ => ht.step a
  · exact fun t a _ _ hg => lt_of_lt_of_le hg (dispatched_step modules t a)
  · intro t a ht _ hc hg
    cases a with
    | comm => exact (ht.commStep hg).2
    | _ => cases hc
  · intro t a _ _ hc
    unfold toGo
    rw [(step_other modules t hc).1]
  · intro t ht hg
    obtain ⟨k, hk, hpc, -⟩ := ht.resolve_right hg
    unfold toGo
    rw [hpc]
    dsimp only
    omega
  · unfold toGo
    split <;> omega

structure Deaf (s t : State) : Prop where
  input0 : t.msgqInput0 = zeroedQ
  input1 : ¬t.msgqInput1.readTotal < t.msgqInput1.writeTotal
  scan : ∃ i, t.receiver = .scan i
  dispatched : t.dispatched = s.dispatched

theorem Deaf.commStep {t : State} (h : Deaf s t) : Deaf s (commStep modules t) := by
  obtain ⟨i, hpc⟩ := h.scan
  have hno : ¬(t.getMsgqInput i).readTotal < (t.getMsgqInput i).writeTotal := by
    unfold State.getMsgqInput
    split
    · rw [h.input0]
      decide
    · exact h.input1
  rw [commStep_scan hpc, if_neg hno]
  exact ⟨h.input0, h.input1, ⟨_, rfl⟩, h.dispatched⟩

theorem Deaf.run (modules : List RtModule) {t : State} (h : Deaf s t) (n : Nat) :
    Deaf s (run (Mailbox.step modules) t (List.replicate n .comm)) := by
  induction n generalizing t with
  | zero => exact h
  | succ n ih => exact ih h.commStep

end

/-- A pass dispatches a message as long as the totals have not wrapped between the two counts. -/
theorem pass_dispatches_iff (modules : List RtModule) (as : List Action) :
    let s := run (step modules) .start as
    s.sender = .idle → s.receiver = .scan 1 → s.dispatched.length < s.sent.length →
    ((∀ bs, modules.length + 1 ≤ bs.countP isComm →
        s.dispatched.length < (run (step modules) s (.comm :: bs)).dispatched.length) ↔
      (s.dispatched.length + 2 ^ 26) % 2 ^ 27 < (s.sent.length + 2 ^ 26) % 2 ^ 27) := by
  intro s _ hpc _
  have ht : Totals modules s := totals_run as
  have hread : s.msgqInput1.readTotal = bytes s.dispatched.length := by
    have hr := ht.readTotal
    rw [hpc] at hr
    exact hr
  rw [← bytes_lt_iff, ← hread, ← ht.writeTotal]
  constructor
  · intro hall
    by_contra hno
    have hdeaf : Deaf s s := ⟨ht.input0, hno, ⟨1, hpc⟩, rfl⟩
    have hpass := hall (List.replicate (modules.length + 1) .comm)
      (by simp [List.countP_replicate, isComm])
    have hsame := (hdeaf.run modules (modules.length + 2)).dispatched
    rw [List.replicate_succ] at hsame
    rw [hsame] at hpass
    exact lt_irrefl _ hpass
  · intro hlt bs hcount
    have hstep : step modules .comm s = { s with receiver := .dispatch 1 0 } := by
      change commStep modules s = _
      rw [commStep_scan hpc]
      exact if_pos hlt
    have hway : UnderWay modules s.dispatched.length (step modules .comm s) := by
      rw [hstep]
      exact .inl ⟨0, Nat.zero_le _, rfl, rfl⟩
    exact hway.ends hcount

def firstPass : List Action := wholeCall 1 ++ [.comm]

theorem pass_dispatches_first : 0 < (run (step powerModule)
    (run (step powerModule) .start firstPass) [.comm, .comm, .comm]).dispatched.length := by
  have hsender : (run (step powerModule) .start firstPass).sender = .idle := rfl
  have hreceiver : (run (step powerModule) .start firstPass).receiver = .scan 1 := rfl
  have hd : (run (step powerModule) .start firstPass).dispatched.length = 0 := by decide +kernel
  have hn : (run (step powerModule) .start firstPass).sent.length = 1 := by decide +kernel
  have hpass := (pass_dispatches_iff powerModule firstPass hsender hreceiver
    (by rw [hd, hn]; decide)).mpr (by rw [hd, hn]; decide) [.comm, .comm] (by decide)
  rw [hd] at hpass
  exact hpass

structure Rest (j : Nat) (s : State) : Prop where
  input0 : s.msgqInput0 = zeroedQ
  sender : s.sender = .idle
  receiver : s.receiver = .scan 0
  indices : s.msgqInput1.read = s.msgqInput1.write
  readTotal : s.msgqInput1.readTotal = bytes j
  writeTotal : s.msgqInput1.writeTotal = bytes j
  sent : s.sent.length = j
  dispatched : s.dispatched.length = j

def wrapped (x : Nat) : Nat := if smMsgqSize ≤ x then x - smMsgqSize else x

theorem powerMessage_len (k : Nat) : (powerMessage k).len = 1 := rfl

theorem wholeCall_run (modules : List RtModule) (k : Nat) {s : State} (hidle : s.sender = .idle)
    (hindex : s.msgqInput1.read = s.msgqInput1.write)
    (htotal : s.msgqInput1.readTotal = s.msgqInput1.writeTotal) :
    ∃ queue, (queue s.msgqInput1.read).moduleId = 5 ∧
      run (step modules) s (wholeCall k) = { s with
        msgqInput1 := ⟨wrapped (s.msgqInput1.write + smMsgSize), s.msgqInput1.read,
          int32 (s.msgqInput1.writeTotal + smMsgSize), s.msgqInput1.readTotal, queue⟩
        returned := s.returned ++ [(powerMessage k, sOk)] } := by
  obtain ⟨q0, ⟨w, r, wt, rt, queue⟩, snd, rcv, ret, hnd, dsp⟩ := s
  dsimp only at hidle hindex htotal
  subst hidle hindex htotal
  refine ⟨?_, ?_, ?_⟩
  rotate_left 2
  · simp only [wholeCall, List.replicate, run, step, sendStep, powerMessage_len, if_true,
      MsgQ.setQueue, Nat.zero_lt_one, ne_eq, not_true_eq_false, if_false, Nat.zero_add,
      lt_irrefl]
    rfl
  · simp [powerMessage]
    decide

theorem commPass_run {s : State} (h0 : s.msgqInput0 = zeroedQ) (hpc : s.receiver = .scan 0)
    (hlt : s.msgqInput1.readTotal < s.msgqInput1.writeTotal)
    (hid : (s.msgqInput1.queue s.msgqInput1.read).moduleId = 5) :
    ∃ handled x, run (step powerModule) s (List.replicate 6 .comm) = { s with
      msgqInput1 := { s.msgqInput1 with
        read := wrapped (s.msgqInput1.read + smMsgSize)
        readTotal := int32 (s.msgqInput1.readTotal + smMsgSize) }
      handled := handled
      dispatched := s.dispatched ++ [x] } := by
  have h0' : ¬(zeroedQ.readTotal < zeroedQ.writeTotal) := by decide
  obtain ⟨q0, q1, snd, rcv, ret, hnd, dsp⟩ := s
  dsimp only at h0 hpc hlt hid
  subst h0 hpc
  refine ⟨hnd ++ [(0, seen (q1.queue q1.read))], seen (q1.queue q1.read), ?_⟩
  simp only [List.replicate, run, step, commStep, dispatchStep, State.getMsgqInput,
    State.setMsgqInput, if_true, if_neg h0', hlt, nextQueue, smRecvQCnt, powerModule,
    List.getElem?_cons_zero, hid, or_true, and_self, Nat.one_ne_zero, if_false,
    Nat.zero_add, Nat.one_lt_two, Nat.lt_irrefl]
  rfl

def rounds : Nat → List Action
  | 0 => []
  | n + 1 => rounds n ++ (wholeCall n ++ List.replicate 6 .comm)

theorem Rest.call {j : Nat} {s : State} (h : Rest j s) (k : Nat) :
    ∃ q, run (step powerModule) s (wholeCall k) = { s with
        msgqInput1 := q, returned := s.returned ++ [(powerMessage k, sOk)] } ∧
      q.read = s.msgqInput1.read ∧ q.write = wrapped (s.msgqInput1.read + smMsgSize) ∧
      q.readTotal = bytes j ∧ q.writeTotal = bytes (j + 1) ∧ (q.queue q.read).moduleId = 5 := by
  obtain ⟨queue, hid, hrun⟩ := wholeCall_run powerModule k h.sender h.indices
    (h.readTotal.trans h.writeTotal.symm)
  refine ⟨_, hrun, rfl, ?_, h.readTotal, ?_, hid⟩
  · rw [h.indices]
  · rw [h.writeTotal, bytes_succ]

theorem Rest.round {j : Nat} {s : State} (h : Rest j s) (hlt : bytes j < bytes (j + 1)) (k : Nat) :
    Rest (j + 1) (run (step powerModule) s (wholeCall k ++ List.replicate 6 .comm)) := by
  obtain ⟨q, hrun, hread, hwrite, hrt, hwt, hid⟩ := h.call k
  rw [run_append, hrun]
  obtain ⟨handled, x, hpass⟩ := commPass_run
    (s := { s with msgqInput1 := q, returned := s.returned ++ [(powerMessage k, sOk)] })
    h.input0 h.receiver (by rw [hrt, hwt]; exact hlt) hid
  rw [hpass]
  refine ⟨h.input0, h.sender, h.receiver, ?_, ?_, hwt, ?_, ?_⟩
  · dsimp only
    rw [hread, hwrite]
  · dsimp only
    rw [hrt, bytes_succ]
  · have hsent := sent_append s (powerMessage k) sOk
    rw [if_pos rfl] at hsent
    change (State.sent { s with returned := s.returned ++ [(powerMessage k, sOk)] }).length = _
    rw [hsent, List.length_append, h.sent, List.length_singleton]
  · rw [List.length_append, h.dispatched, List.length_singleton]

theorem rest_rounds (n : Nat) (hn : n < 2 ^ 26) :
    Rest n (run (step powerModule) .start (rounds n)) := by
  induction n with
  | zero => exact ⟨rfl, rfl, rfl, rfl, bytes_zero.symm, bytes_zero.symm, rfl, rfl⟩
  | succ n ih =>
    rw [rounds, run_append]
    refine (ih (by omega)).round ?_ n
    rw [bytes_lt_iff]
    omega

theorem Rest.blocks {j : Nat} {s : State} (h : Rest j s) (hno : ¬bytes j < bytes (j + 1)) :
    let t := run (step powerModule) s (wholeCall 0 ++ [.comm])
    t.sender = .idle ∧ t.receiver = .scan 1 ∧ t.sent.length = j + 1 ∧ t.dispatched.length = j ∧
      ∀ n, (run (step powerModule) t (List.replicate n .comm)).dispatched = t.dispatched := by
  obtain ⟨q, hrun, -, -, hrt, hwt, -⟩ := h.call 0
  rw [← hrt, ← hwt] at hno
  rw [run_append, hrun]
  let u : State := { s with msgqInput1 := q, returned := s.returned ++ [(powerMessage 0, sOk)] }
  have hscan : run (step powerModule) u [.comm] = { u with receiver := .scan 1 } := by
    have hpc : u.receiver = .scan 0 := h.receiver
    have hempty : ¬(u.getMsgqInput 0).readTotal < (u.getMsgqInput 0).writeTotal := by
      have hq : u.getMsgqInput 0 = s.msgqInput0 := rfl
      rw [hq, h.input0]
      decide
    change commStep powerModule u = _
    rw [commStep_scan hpc, if_neg hempty]
    rfl
  have hsent : u.sent = s.sent ++ [powerMessage 0] := sent_append s (powerMessage 0) sOk
  have hdeaf : Deaf u { u with receiver := .scan 1 } := ⟨h.input0, hno, ⟨1, rfl⟩, rfl⟩
  rw [hscan]
  refine ⟨h.sender, rfl, ?_, h.dispatched, fun n => (hdeaf.run powerModule n).dispatched⟩
  change u.sent.length = _
  rw [hsent, List.length_append, h.sent, List.length_singleton]

def untilWrap : List Action := rounds (2 ^ 26 - 1) ++ (wholeCall 0 ++ [.comm])

theorem wrapped_total_blocks :
    let s := run (step powerModule) .start untilWrap
    s.sender = .idle ∧ s.receiver = .scan 1 ∧ s.sent.length = 2 ^ 26 - 1 + 1 ∧
      s.dispatched.length = 2 ^ 26 - 1 ∧
      ∀ n, (run (step powerModule) s (List.replicate n .comm)).dispatched = s.dispatched := by
  have hno : ¬bytes (2 ^ 26 - 1) < bytes (2 ^ 26 - 1 + 1) := by
    rw [bytes_lt_iff]
    decide
  unfold untilWrap
  rw [run_append]
  exact (rest_rounds (2 ^ 26 - 1) (by decide)).blocks hno

end SynaBoot.MailboxTotals
