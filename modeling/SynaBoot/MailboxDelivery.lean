import SynaBoot.MailboxFifo

namespace SynaBoot.MailboxDelivery

open SynaBoot.Schedules SynaBoot.Mailbox SynaBoot.MailboxFifo

def request : Sender → Option Request
  | .idle => none
  | .testRead r | .testTotals r | .putId r | .putLen r | .putBody r _ | .advance r | .wrap r
  | .total r => some r

instance (r : Request) : Decidable (Fits r) :=
  decidable_of_iff (int16 r.moduleId = r.moduleId ∧ r.body.length ≤ smMsgBodySize)
    ⟨fun h => ⟨h.1, h.2⟩, fun h => ⟨h.1, h.2⟩⟩

/-- `m_iRead` is not read while it is out of range and the queue is full. -/
def Permitted (s : State) : Action → Prop
  | .call r => Fits r
  | .send => readsUnwrapped s.msgqInput1 s.sender = false
  | .comm => True

instance (s : State) : ∀ a, Decidable (Permitted s a)
  | .call r => inferInstanceAs (Decidable (Fits r))
  | .send => inferInstanceAs (Decidable (readsUnwrapped s.msgqInput1 s.sender = false))
  | .comm => isTrue trivial

def isComm : Action → Bool
  | .comm => true
  | _ => false

theorem sendStep_frame (s : State) :
    (sendStep s).receiver = s.receiver ∧ (sendStep s).dispatched = s.dispatched ∧
      ((sendStep s).returned = s.returned ∨ ∃ r code, request s.sender = some r ∧
        (sendStep s).returned = s.returned ++ [(r, code)]) ∧
      ∀ r, request (sendStep s).sender = some r → request s.sender = some r := by
  rw [sendStep]
  cases hpc : s.sender with
  | idle => exact ⟨rfl, rfl, .inl rfl, fun r hr => by rwa [hpc] at hr⟩
  | testRead r =>
    simp only
    split <;> exact ⟨rfl, rfl, .inl rfl, fun _ hr => hr⟩
  | testTotals r =>
    simp only
    split
    · exact ⟨rfl, rfl, .inr ⟨r, -1, rfl, rfl⟩, fun _ hr => by cases hr⟩
    · exact ⟨rfl, rfl, .inl rfl, fun _ hr => hr⟩
  | putBody r i =>
    simp only
    split <;> exact ⟨rfl, rfl, .inl rfl, fun _ hr => hr⟩
  | total r => exact ⟨rfl, rfl, .inr ⟨r, sOk, rfl, rfl⟩, fun _ hr => by cases hr⟩
  | _ => exact ⟨rfl, rfl, .inl rfl, fun _ hr => hr⟩

theorem setMsgqInput_frame (s : State) (i : Nat) (q : MsgQ) :
    (s.setMsgqInput i q).returned = s.returned ∧ (s.setMsgqInput i q).sender = s.sender ∧
      (s.setMsgqInput i q).dispatched = s.dispatched := by
  rw [State.setMsgqInput]
  split <;> exact ⟨rfl, rfl, rfl⟩

theorem dispatchStep_cases (modules : List RtModule) (i k : Nat) (s : State) :
    (dispatchStep modules i k s).returned = s.returned ∧
      (dispatchStep modules i k s).sender = s.sender ∧
      (((dispatchStep modules i k s).receiver = .advance i ∧
          ∃ x, (dispatchStep modules i k s).dispatched = s.dispatched ++ [x]) ∨
        (k < modules.length ∧ (dispatchStep modules i k s).receiver = .dispatch i (k + 1) ∧
          (dispatchStep modules i k s).dispatched = s.dispatched)) := by
  rw [dispatchStep]
  cases hm : modules[k]? with
  | none => exact ⟨rfl, rfl, .inl ⟨rfl, _, rfl⟩⟩
  | some m =>
    have hlt := (List.getElem?_eq_some_iff.mp hm).1
    simp only
    split
    · split
      · exact ⟨rfl, rfl, .inl ⟨rfl, _, rfl⟩⟩
      · exact ⟨rfl, rfl, .inr ⟨hlt, rfl, rfl⟩⟩
    · exact ⟨rfl, rfl, .inr ⟨hlt, rfl, rfl⟩⟩

theorem commStep_frame (modules : List RtModule) (s : State) :
    (commStep modules s).returned = s.returned ∧ (commStep modules s).sender = s.sender ∧
      s.dispatched.length ≤ (commStep modules s).dispatched.length := by
  rw [commStep]
  cases s.receiver with
  | scan i =>
    simp only
    split <;> exact ⟨rfl, rfl, le_rfl⟩
  | dispatch i k =>
    obtain ⟨hret, hsend, ⟨-, x, hd⟩ | ⟨-, -, hd⟩⟩ := dispatchStep_cases modules i k s
    · refine ⟨hret, hsend, ?_⟩
      rw [hd, List.length_append]
      exact Nat.le_add_right _ _
    · exact ⟨hret, hsend, le_of_eq (congrArg List.length hd.symm)⟩
  | _ =>
    obtain ⟨hret, hsend, hd⟩ := setMsgqInput_frame s _ _
    exact ⟨hret, hsend, le_of_eq (congrArg List.length hd.symm)⟩

theorem sent_congr {s s' : State} (h : s'.returned = s.returned) : s'.sent = s.sent := by
  rw [State.sent, State.sent, h]

theorem step_sent (modules : List RtModule) (a : Action) (s : State) :
    s.sent <+: (step modules a s).sent := by
  cases a with
  | call r =>
    rw [step]
    split <;> exact List.prefix_rfl
  | send =>
    obtain ⟨-, -, hret | ⟨r, code, -, hret⟩, -⟩ := sendStep_frame s
    · rw [step, sent_congr hret]
    · have hsent : (sendStep s).sent = _ :=
        (sent_congr (s := { s with returned := s.returned ++ [(r, code)] }) hret).trans
          (sent_append s r code)
      rw [step, hsent]
      split
      · exact List.prefix_append _ _
      · exact List.prefix_rfl
  | comm => rw [step, sent_congr (commStep_frame modules s).1]

structure Orderly (modules : List RtModule) (s : State) : Prop where
  coherent : Coherent modules s
  fits : ∀ x ∈ s.returned, Fits x.1
  pending : ∀ r, request s.sender = some r → Fits r

theorem orderly_start (modules : List RtModule) : Orderly modules .start := by
  refine ⟨⟨rfl, ⟨rfl, ⟨rfl, rfl, Nat.zero_lt_succ 1⟩, Nat.zero_le _, ⟨rfl, nofun, trivial⟩, nofun, rfl,
    rfl⟩⟩, nofun, nofun⟩

variable {modules : List RtModule} {s : State}

theorem Orderly.step (h : Orderly modules s) {a : Action}
    (hok : Permitted s a ∧ (step modules a s).sent.length < 2 ^ 26) :
    Orderly modules (step modules a s) := by
  obtain ⟨hperm, hn⟩ := hok
  have hle := (step_sent modules a s).length_le
  cases a with
  | call r =>
    rw [Mailbox.step] at hn ⊢
    cases hpc : s.sender with
    | idle =>
      refine ⟨h.coherent.call r hpc, h.fits, fun r' hr => ?_⟩
      cases hr
      exact hperm
    | _ => exact h
  | send =>
    obtain ⟨-, -, hret, hreq⟩ := sendStep_frame s
    refine ⟨h.coherent.sendStep hperm hn, fun x hx => ?_, fun r hr => h.pending r (hreq r hr)⟩
    rcases hret with hret | ⟨r, code, hr, hret⟩
    · rw [Mailbox.step, hret] at hx
      exact h.fits x hx
    · rw [Mailbox.step, hret] at hx
      rcases List.mem_append.mp hx with hx | hx
      · exact h.fits x hx
      · rw [List.mem_singleton.mp hx]
        exact h.pending r hr
  | comm =>
    obtain ⟨hret, hsend, -⟩ := commStep_frame modules s
    refine ⟨h.coherent.commStep (lt_of_le_of_lt hle hn), fun x hx => ?_, fun r hr => ?_⟩
    · rw [Mailbox.step, hret] at hx
      exact h.fits x hx
    · rw [Mailbox.step, hsend] at hr
      exact h.pending r hr

theorem Orderly.fits_sent (h : Orderly modules s) {r : Request} (hr : r ∈ s.sent) : Fits r := by
  obtain ⟨x, hx, rfl⟩ := List.mem_map.mp hr
  exact h.fits x (List.mem_filter.mp hx).1

def rankAt (modules : List RtModule) : Receiver → Nat
  | .advance _ => modules.length + 6
  | .wrap _ => modules.length + 5
  | .total _ => modules.length + 4
  | .scan i => if i = 0 then modules.length + 3 else modules.length + 2
  | .dispatch _ k => modules.length + 1 - k

def rank (modules : List RtModule) (n : Nat) (s : State) : Nat :=
  (n - s.dispatched.length) * (modules.length + 6) + rankAt modules s.receiver

theorem rankAt_le (modules : List RtModule) (pc : Receiver) :
    rankAt modules pc ≤ modules.length + 6 := by
  cases pc with
  | scan i =>
    rw [rankAt]
    split <;> omega
  | _ =>
    simp only [rankAt]
    omega

theorem rank_lt {n : Nat} {s s' : State} (hd : s'.dispatched = s.dispatched)
    (hpc : rankAt modules s'.receiver < rankAt modules s.receiver) :
    rank modules n s' < rank modules n s := by
  rw [rank, rank, hd]
  exact Nat.add_lt_add_left hpc _

theorem Coherent.rank_commStep (h : Coherent modules s) {n : Nat} (hn : n ≤ s.sent.length)
    (hlt : s.dispatched.length < n) : rank modules n (commStep modules s) < rank modules n s := by
  have hi := h.input1
  cases hpc : s.receiver with
  | scan i =>
    rw [hpc] at hi
    have hi2 : i < 2 := hi.receiverAt.placed
    rw [commStep_scan hpc]
    rcases Nat.eq_zero_or_pos i with rfl | hpos
    · have hno : ¬ (s.getMsgqInput 0).readTotal < (s.getMsgqInput 0).writeTotal := by
        rw [State.getMsgqInput, if_pos rfl, h.input0]
        decide
      rw [if_neg hno]
      refine rank_lt rfl ?_
      rw [hpc]
      exact Nat.lt_succ_self _
    · have hone : i = 1 := by omega
      subst hone
      have hyes : (s.getMsgqInput 1).readTotal < (s.getMsgqInput 1).writeTotal := by
        have hq : s.getMsgqInput 1 = s.msgqInput1 := rfl
        have hrt : s.msgqInput1.readTotal = smMsgSize * s.dispatched.length := hi.receiverAt.readTotal
        have hsize : smMsgSize = 32 := rfl
        rw [hq, hrt, hi.writeTotal, hsize]
        omega
      rw [if_pos hyes]
      refine rank_lt rfl ?_
      rw [hpc]
      exact Nat.lt_succ_self _
  | dispatch i k =>
    rw [hpc] at hi
    have hk : k ≤ modules.length := hi.receiverAt.placed.2.1
    rw [commStep, hpc]
    obtain ⟨-, -, ⟨hrc, x, hd⟩ | ⟨hlen, hrc, hd⟩⟩ := dispatchStep_cases modules i k s
    · have hlen : (dispatchStep modules i k s).dispatched.length = s.dispatched.length + 1 := by
        rw [hd, List.length_append]
        rfl
      obtain ⟨m, hm⟩ := Nat.exists_eq_add_of_lt hlt
      have h1 : n - (s.dispatched.length + 1) = m := by omega
      have h2 : n - s.dispatched.length = m + 1 := by omega
      simp only [rank, hlen, hrc, hpc, rankAt, h1, h2, Nat.succ_mul]
      omega
    · refine rank_lt hd ?_
      rw [hrc, hpc]
      simp only [rankAt]
      omega
  | advance i =>
    rw [hpc] at hi
    obtain ⟨rfl, -⟩ : i = 1 ∧ 0 < s.dispatched.length := hi.receiverAt.placed
    rw [commStep_advance hpc]
    refine rank_lt rfl ?_
    rw [hpc]
    exact Nat.lt_succ_self _
  | wrap i =>
    rw [hpc] at hi
    obtain ⟨rfl, -⟩ : i = 1 ∧ 0 < s.dispatched.length := hi.receiverAt.placed
    rw [commStep_wrap hpc]
    refine rank_lt rfl ?_
    rw [hpc]
    exact Nat.lt_succ_self _
  | total i =>
    rw [hpc] at hi
    obtain ⟨rfl, -⟩ : i = 1 ∧ 0 < s.dispatched.length := hi.receiverAt.placed
    rw [commStep_total hpc]
    refine rank_lt rfl ?_
    rw [hpc]
    exact Nat.lt_succ_self _

theorem rank_step_other (modules : List RtModule) (n : Nat) (s : State) {a : Action}
    (ha : isComm a = false) : rank modules n (step modules a s) ≤ rank modules n s := by
  cases a with
  | call r =>
    rw [step]
    split <;> exact le_rfl
  | send =>
    obtain ⟨hrc, hd, -, -⟩ := sendStep_frame s
    rw [step, rank, rank, hrc, hd]
  | comm => cases ha

theorem dispatched_step (modules : List RtModule) (s : State) (a : Action) :
    s.dispatched.length ≤ (step modules a s).dispatched.length := by
  cases a with
  | call r =>
    rw [step]
    split <;> exact le_rfl
  | send =>
    rw [step, (sendStep_frame s).2.1]
  | comm => exact (commStep_frame modules s).2.2

variable {as : List Action}

theorem bounded_run (hok : Meets (step modules) Permitted s as)
    (hn : (run (step modules) s as).sent.length < 2 ^ 26) :
    Meets (step modules) (fun s a => Permitted s a ∧ (step modules a s).sent.length < 2 ^ 26) s as := by
  refine (hok.bounded (P := fun s => s.sent.length < 2 ^ 26) (fun s a hs => ?_) hn).2
  exact lt_of_le_of_lt (step_sent modules a s).length_le hs

theorem orderly_run (h : Orderly modules s) (hok : Meets (step modules) Permitted s as)
    (hn : (run (step modules) s as).sent.length < 2 ^ 26) :
    Orderly modules (run (step modules) s as) :=
  run_invariant (fun _ _ hs ha => hs.step ha) h (bounded_run hok hn)

theorem dispatches_all (h : Orderly modules s) (hok : Meets (step modules) Permitted s as)
    (hn : (run (step modules) s as).sent.length < 2 ^ 26)
    (hcount : (s.sent.length + 1) * (modules.length + 6) ≤ as.countP isComm) :
    s.sent.length ≤ (run (step modules) s as).dispatched.length := by
  refine run_progress (fun t => Orderly modules t ∧ s.sent.length ≤ t.sent.length)
    (fun t => s.sent.length ≤ t.dispatched.length) (rank modules s.sent.length) isComm
    ?_ ?_ ?_ ?_ ?_ ⟨h, le_rfl⟩ (bounded_run hok hn) (le_trans ?_ hcount)
  · exact fun t a ht ha => ⟨ht.1.step ha, le_trans ht.2 (step_sent modules a t).length_le⟩
  · exact fun t a _ _ hg => le_trans hg (dispatched_step modules t a)
  · intro t a ht _ hc hg
    cases a with
    | comm => exact .inr (Coherent.rank_commStep ht.1.coherent ht.2 (not_le.mp hg))
    | _ => cases hc
  · exact fun t a _ _ hc => rank_step_other modules _ t hc
  · intro t ht hg
    have hpos : 0 < s.sent.length - t.dispatched.length := by omega
    exact Nat.add_pos_left (Nat.mul_pos hpos (Nat.succ_pos _)) _
  · rw [rank, Nat.succ_mul]
    exact Nat.add_le_add (Nat.mul_le_mul_right _ (Nat.sub_le _ _)) (rankAt_le modules _)

theorem run_sent (hok : Meets (step modules) Permitted s as) :
    s.sent <+: (run (step modules) s as).sent :=
  run_invariant (I := fun t => s.sent <+: t.sent)
    (fun t a ht _ => ht.trans (step_sent modules a t)) List.prefix_rfl hok

theorem Orderly.asStored_eq (h : Orderly modules s) (n : Nat) :
    (s.sent.take n).map asStored = (s.sent.take n).map asSent :=
  List.map_congr_left fun _ hr => asStored_of_fits (h.fits_sent (List.mem_of_mem_take hr))

theorem Orderly.delivered (h : Orderly modules s) :
    s.dispatched = (s.sent.take s.dispatched.length).map asSent := by
  rw [← h.asStored_eq]
  exact h.coherent.input1.delivered

theorem Orderly.handled (h : Orderly modules s) :
    s.handled <+: ((s.sent.map asSent).flatMap fun x => tryToDispatchMsg x 0 modules) := by
  have hi := h.coherent.input1
  have hfirst : ∀ n, ((s.sent.take n).map asSent).flatMap (fun x => tryToDispatchMsg x 0 modules) <+:
      (s.sent.map asSent).flatMap fun x => tryToDispatchMsg x 0 modules :=
    fun n => ((List.take_prefix n s.sent).map asSent).flatMap _
  cases hpc : s.receiver with
  | dispatch i k =>
    rw [hpc] at hi
    obtain ⟨r, hr, -⟩ := hi.dispatch
    have hcalls := hi.handledAt r hr
    have hnext : s.dispatched ++ [asStored r] = (s.sent.take (s.dispatched.length + 1)).map asSent := by
      rw [← h.asStored_eq, List.take_add_one, hr, List.map_append, ← hi.delivered]
      rfl
    rw [hnext] at hcalls
    exact List.IsPrefix.trans ⟨_, hcalls⟩ (hfirst _)
  | _ =>
    rw [hpc] at hi
    have hcalls : s.handled = s.dispatched.flatMap fun x => tryToDispatchMsg x 0 modules :=
      hi.handledAt
    rw [hcalls]
    conv_lhs => rw [h.delivered]
    exact hfirst _

/-- The messages dispatched are the first ones sent, as they were sent, and all get dispatched. -/
theorem lossless_fifo (modules : List RtModule) {as : List Action}
    (hok : Meets (step modules) Permitted .start as)
    (hn : (run (step modules) .start as).sent.length < 2 ^ 26) :
    let s := run (step modules) .start as
    s.dispatched = (s.sent.take s.dispatched.length).map asSent ∧
      s.handled <+: ((s.sent.map asSent).flatMap fun x => tryToDispatchMsg x 0 modules) ∧
      (∀ k r, s.dispatched.length ≤ k → s.sent[k]? = some r →
        seen (s.msgqInput1.queue (place k)) = asSent r) ∧
      ∀ bs, Meets (step modules) Permitted s bs →
        (run (step modules) s bs).sent.length < 2 ^ 26 →
        (s.sent.length + 1) * (modules.length + 6) ≤ bs.countP isComm →
        s.sent.map asSent <+: (run (step modules) s bs).dispatched := by
  intro s
  have hs : Orderly modules s := orderly_run (orderly_start modules) hok hn
  refine ⟨hs.delivered, hs.handled, fun k r hk hr => ?_, fun bs hbs hbn hcount => ?_⟩
  · rw [seen_of_holds (hs.coherent.input1.stored k r hk hr)]
    exact asStored_of_fits (hs.fits_sent (List.mem_of_getElem? hr))
  · have hall := dispatches_all hs hbs hbn hcount
    rw [(orderly_run hs hbs hbn).delivered]
    refine List.IsPrefix.map asSent (List.prefix_take_iff.mpr ⟨run_sent hbs, hall⟩)

theorem window_overwrites (h : Coherent modules s)
    (hwin : readsUnwrapped s.msgqInput1 s.sender = true) :
    ∃ r r', (sendStep s).sender = .putId r ∧ s.sent[s.dispatched.length]? = some r' ∧
      (sendStep s).msgqInput1.write = place s.dispatched.length := by
  have hi := h.input1
  have hr := hi.receiverAt
  cases hpc : s.sender with
  | testRead r =>
    rw [hpc] at hi hwin
    obtain ⟨hread, hdiff⟩ := of_decide_eq_true hwin
    have hlt : ∀ k, place k ≠ smMsgqSize := fun k => by
      have := place_le k
      have := size_pos
      omega
    have hwrite : s.msgqInput1.write = place s.sent.length := hi.senderAt.write
    have hne : s.msgqInput1.read ≠ s.msgqInput1.write := by
      rw [hread, hwrite]
      exact (hlt _).symm
    obtain ⟨i, hrc⟩ : ∃ i, s.receiver = .wrap i := by
      cases hrc : s.receiver with
      | wrap i => exact ⟨i, rfl⟩
      | _ =>
        rw [hrc] at hr
        exact absurd (hr.read.symm.trans hread) (hlt _)
    rw [hrc] at hr
    have hpos : 0 < s.dispatched.length := hr.placed.2
    have hn : s.sent.length = s.dispatched.length + smMsgqMsgCount := by
      have hrt : s.msgqInput1.readTotal = smMsgSize * (s.dispatched.length - 1 : Nat) := hr.readTotal
      have hsize : smMsgSize = 32 := rfl
      have hq : smMsgqSize = 480 := rfl
      have hcount : smMsgqMsgCount = 15 := by decide
      rw [hi.writeTotal, hrt, hsize, hq] at hdiff
      omega
    have hstep : sendStep s = { s with sender := .putId r } := by
      rw [sendStep, hpc]
      exact if_neg hne
    refine ⟨r, _, ?_, List.getElem?_eq_getElem (by have := count_pos; omega), ?_⟩
    · rw [hstep]
    · rw [hstep, hwrite, hn]
      exact Ring.offset_add_count _
  | _ =>
    rw [hpc] at hwin
    cases hwin

def powerModule : List RtModule := [⟨5, true⟩]

def powerMessage (k : Nat) : Request := ⟨5, [UInt8.ofNat k]⟩

def wholeCall (k : Nat) : List Action := .call (powerMessage k) :: List.replicate 9 .send

theorem lossless_fifo_first :
    (run (step powerModule) .start (wholeCall 1)).sent = [powerMessage 1] ∧
      [asSent (powerMessage 1)] <+: (run (step powerModule)
        (run (step powerModule) .start (wholeCall 1)) (List.replicate 14 .comm)).dispatched := by
  have hok : Meets (step powerModule) Permitted .start (wholeCall 1) := by decide +kernel
  have hsent : (run (step powerModule) .start (wholeCall 1)).sent = [powerMessage 1] := by
    decide +kernel
  obtain ⟨-, -, -, hall⟩ := lossless_fifo powerModule hok (by rw [hsent]; decide)
  have hlast := hall (List.replicate 14 .comm) (by decide +kernel) (by decide +kernel)
    (by rw [hsent]; decide)
  rw [hsent] at hlast
  exact ⟨hsent, hlast⟩

def overrun : List Action :=
  (List.range 15).flatMap wholeCall ++ List.replicate 88 .comm ++
    (List.range 16).flatMap (fun k => wholeCall (15 + k)) ++ List.replicate 8 .comm

theorem overrun_loses_message :
    let s := run (step powerModule) .start overrun
    s.sent = (List.range 31).map powerMessage ∧ (∀ r ∈ s.sent, Fits r) ∧
      s.dispatched.length = 16 ∧ s.sent[15]? = some (powerMessage 15) ∧
      s.dispatched[15]? = some (asSent (powerMessage 30)) := by
  decide +kernel

end SynaBoot.MailboxDelivery
