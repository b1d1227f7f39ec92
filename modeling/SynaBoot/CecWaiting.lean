import SynaBoot.CecTask

namespace SynaBoot.CecWaiting

open SynaBoot.CecSrv
open SynaBoot.CecTask
open SynaBoot.Schedules

def IsResult (c : Cmd) : Prop := c = .txDone ∨ c = .txFailed

def Reports (s : State) (d : TaskData) : Prop :=
  IsResult d.cmd ∧ d.msg = s.txData.msg ∧ d.txtime = s.txData.txtime

def Reported (s : State) : Prop := ∃ d ∈ s.isr ++ s.app, Reports s d

def Awaited (s : State) : Prop := s.taskState = .sending → s.busy = true ∨ Reported s

def Ends (reg : UInt16) : Prop := reg &&& intrTxFail ≠ 0 ∨ reg &&& intrTxComplete ≠ 0

/-- The only result of a transmission finds its FIFO full. -/
def Loses (s : State) : Act → Prop
  | .isr reg _ => s.taskState = .sending ∧ Ends reg ∧ s.isr.length = 2 ∧ ¬ Reported s
  | .task env => s.taskState = .sending ∧ s.busy = false ∧ env.line = false ∧ retries env s ∧
      s.app.length = 2 ∧
      ∃ d ds, s.isr = d :: ds ∧ d.cmd = .txFailed ∧ ∀ d ∈ ds ++ s.app, ¬ Reports s d
  | .srvTxMsg _ _ _ => False

section Interrupts

variable {s s' : State} {reg : UInt16} {bytes : Bytes}

structure Interrupted (s s' : State) : Prop where
  taskExit : s'.taskExit = s.taskExit
  taskState : s'.taskState = s.taskState
  app : s'.app = s.app
  msg : s'.txData.msg = s.txData.msg
  txtime : s'.txData.txtime = s.txData.txtime
  queue : s.isr <+: s'.isr
  new : ∀ d ∈ s'.isr, d ∈ s.isr ∨ d.cmd ≠ .txMsg

theorem Interrupted.refl (s : State) : Interrupted s s :=
  ⟨rfl, rfl, rfl, rfl, rfl, List.prefix_rfl, fun _ h => .inl h⟩

theorem Interrupted.trans {s'' : State} (h : Interrupted s s') (h' : Interrupted s' s'') :
    Interrupted s s'' := by
  refine ⟨h'.taskExit.trans h.taskExit, h'.taskState.trans h.taskState, h'.app.trans h.app,
    h'.msg.trans h.msg, h'.txtime.trans h.txtime, h.queue.trans h'.queue, fun d hd => ?_⟩
  rcases h'.new d hd with hd | hd
  · exact h.new d hd
  · exact .inr hd

theorem sendTxStatus_interrupted {cmd : Cmd} (h : cmd ≠ .txMsg) (status : UInt8) (s : State) :
    Interrupted s (sendTxStatus cmd status s) := by
  refine ⟨rfl, rfl, rfl, rfl, rfl, prefix_writeFifo, fun d hd => ?_⟩
  rcases mem_writeFifo hd with hd | rfl
  · exact .inl hd
  · exact .inr h

theorem sendRxStatus_interrupted {cmd : Cmd} (h : cmd ≠ .txMsg) (status : UInt8) (s : State) :
    Interrupted s (sendRxStatus cmd status s) := by
  refine ⟨rfl, rfl, rfl, rfl, rfl, prefix_writeFifo, fun d hd => ?_⟩
  rcases mem_writeFifo hd with hd | rfl
  · exact .inl hd
  · exact .inr h

theorem isrTx_interrupted (reg : UInt16) (s : State) : Interrupted s (isrTx reg s) := by
  have hfail := sendTxStatus_interrupted (by decide : Cmd.txFailed ≠ .txMsg) (failReason reg) s
  have hdone (s : State) := sendTxStatus_interrupted (by decide : Cmd.txDone ≠ .txMsg) failNone s
  unfold isrTx
  split_ifs
  · exact hfail.trans (hdone _)
  · exact hfail
  · exact hdone s
  · exact .refl s

theorem isrRx_interrupted (reg : UInt16) (bytes : Bytes) (s : State) :
    Interrupted s (isrRx reg bytes s) := by
  have hfail := sendRxStatus_interrupted (by decide : Cmd.rxFailed ≠ .txMsg) reg.toUInt8 s
  have hread (s : State) (d : TaskData) : Interrupted s { s with rxData := d } :=
    ⟨rfl, rfl, rfl, rfl, rfl, List.prefix_rfl, fun _ h => .inl h⟩
  have hmsg (s : State) := (hread s { clearData s.rxData with msg := bytes }).trans
    (sendRxStatus_interrupted (by decide : Cmd.rxMsg ≠ .txMsg) reg.toUInt8 _)
  unfold isrRx
  split_ifs
  · exact hfail.trans (hmsg _)
  · exact hfail
  · exact hmsg s
  · exact .refl s

theorem isr_interrupted (reg : UInt16) (bytes : Bytes) (s : State) :
    Interrupted s (isr reg bytes s) :=
  (isrTx_interrupted reg s).trans (isrRx_interrupted reg bytes _)

theorem isrRx_tx (reg : UInt16) (bytes : Bytes) (s : State) :
    (isrRx reg bytes s).txData = s.txData ∧ (isrRx reg bytes s).busy = s.busy := by
  unfold isrRx
  split_ifs <;> exact ⟨rfl, rfl⟩

theorem isr_quiet (s : State) (bytes : Bytes) (h : ¬ Ends reg) :
    (isr reg bytes s).txData = s.txData ∧ (isr reg bytes s).busy = s.busy := by
  obtain ⟨hfail, hdone⟩ := not_or.mp h
  have htx : isrTx reg s = s := by
    unfold isrTx
    rw [if_neg hfail, if_neg hdone]
  rw [isr, htx]
  exact isrRx_tx reg bytes s

theorem isr_ends (h : Ends reg) :
    (isr reg bytes s).busy = false ∧ IsResult (isr reg bytes s).txData.cmd := by
  have htx : (isrTx reg s).busy = false ∧ IsResult (isrTx reg s).txData.cmd := by
    unfold isrTx
    by_cases hdone : reg &&& intrTxComplete ≠ 0
    · rw [if_pos hdone]
      exact ⟨rfl, .inl rfl⟩
    · rw [if_neg hdone, if_pos (h.resolve_right hdone)]
      exact ⟨rfl, .inr rfl⟩
  obtain ⟨hdata, hbusy⟩ := isrRx_tx reg bytes (isrTx reg s)
  rw [isr, hdata, hbusy]
  exact htx

theorem sendTxStatus_reports {cmd : Cmd} (hcmd : IsResult cmd) (status : UInt8)
    (h : s.isr.length < 2) : ∃ d ∈ (sendTxStatus cmd status s).isr, Reports s d := by
  refine ⟨{ s.txData with cmd := cmd, status := status }, ?_, hcmd, rfl, rfl⟩
  have hcontents : (sendTxStatus cmd status s).isr = s.isr ++ [_] := writeFifo_room h
  rw [hcontents]
  exact List.mem_append_right _ (List.mem_singleton_self _)

theorem isr_reports (bytes : Bytes) (h : Ends reg) (hroom : s.isr.length < 2) :
    ∃ d ∈ (isr reg bytes s).isr, Reports s d := by
  have htx : ∃ d ∈ (isrTx reg s).isr, Reports s d := by
    unfold isrTx
    by_cases hfail : reg &&& intrTxFail ≠ 0
    · rw [if_pos hfail]
      obtain ⟨d, hd, hreports⟩ :=
        sendTxStatus_reports (.inr rfl : IsResult .txFailed) (failReason reg) hroom
      refine ⟨d, ?_, hreports⟩
      split
      · exact (sendTxStatus_interrupted (by decide) failNone _).queue.subset hd
      · exact hd
    · rw [if_neg hfail, if_pos (h.resolve_left hfail)]
      exact sendTxStatus_reports (.inl rfl) failNone hroom
  obtain ⟨d, hd, hreports⟩ := htx
  exact ⟨d, (isrRx_interrupted reg bytes _).queue.subset hd, hreports⟩

end Interrupts

structure Inv (s : State) : Prop where
  exit : s.taskState = .sending → s.taskExit = false
  isr : ∀ d ∈ s.isr, d.cmd ≠ .txMsg
  app : ∀ d ∈ s.app, d.cmd = .txMsg → d.msg.length ≤ 16
  short : s.taskState = .sending → s.txData.msg.length ≤ 16
  started : s.taskState = .sending → s.busy = true ∨ IsResult s.txData.cmd

section Invariant

variable {s s' : State} {d : TaskData} {env : Env}

theorem Inv.taken (h : Inv s) (ht : Taken s d s') :
    Inv s' ∧ (d.cmd = .txMsg → d.msg.length ≤ 16 ∧ s.isr = []) := by
  obtain ⟨hqueues, hexit, hstate, htx, -, hbusy⟩ := ht
  refine ⟨⟨?_, ?_, ?_, ?_, ?_⟩, fun hcmd => ?_⟩
  · rw [hstate, hexit]
    exact h.exit
  · intro x hx
    rcases hqueues with ⟨hisr, -⟩ | ⟨-, hisr, -⟩
    · exact h.isr x (hisr ▸ List.mem_cons_of_mem d hx)
    · rw [hisr] at hx
      cases hx
  · intro x hx
    rcases hqueues with ⟨-, happ⟩ | ⟨-, -, happ⟩
    · exact h.app x (happ ▸ hx)
    · exact h.app x (happ ▸ List.mem_cons_of_mem d hx)
  · rw [hstate, htx]
    exact h.short
  · rw [hstate, htx, hbusy]
    exact h.started
  · rcases hqueues with ⟨hisr, -⟩ | ⟨hnil, -, happ⟩
    · exact absurd hcmd (h.isr d (hisr ▸ List.mem_cons_self))
    · exact ⟨h.app d (happ ▸ List.mem_cons_self) hcmd, hnil⟩

theorem Inv.of_app (h : Inv s) {b : Fifo}
    (hb : ∀ d ∈ b.contents, d ∈ s.app ∨ d.msg.length ≤ 16) : Inv { s with appFifo := b } := by
  refine ⟨h.exit, h.isr, fun d hd hcmd => ?_, h.short, h.started⟩
  rcases hb d hd with hd | hlen
  · exact h.app d hd hcmd
  · exact hlen

theorem Inv.writeApp (h : Inv s) (hlen : d.msg.length ≤ 16) :
    Inv { s with appFifo := writeFifo d s.appFifo } := by
  refine h.of_app fun x hx => ?_
  rcases mem_writeFifo hx with hx | rfl
  · exact .inl hx
  · exact .inr hlen

theorem Inv.srvRxMsg (h : Inv s) : Inv (srvRxMsg env d s) := by
  refine h.of_app fun x hx => ?_
  rw [foldl_writeFifo] at hx
  rcases List.mem_append.mp hx with hx | hx
  · exact .inl hx
  · obtain ⟨m, rfl⟩ := mem_replies (List.mem_of_mem_take hx)
    exact .inr (length_frameOf _ m)

theorem Inv.of_queues (hstate : s.taskState ≠ .sending) (hisr : ∀ d ∈ s.isr, d.cmd ≠ .txMsg)
    (happ : ∀ d ∈ s.app, d.cmd = .txMsg → d.msg.length ≤ 16) : Inv s :=
  ⟨fun h => absurd h hstate, hisr, happ, fun h => absurd h hstate, fun h => absurd h hstate⟩

theorem Inv.disable (logicAddr : UInt8) (s : State) : Inv (enable logicAddr false s) := by
  have hisr : (enable logicAddr false s).isr = [] := contents_clearFifo s.isrFifo
  have happ : (enable logicAddr false s).app = [] := contents_clearFifo s.appFifo
  refine .of_queues (by decide : TaskState.idle ≠ .sending) ?_ ?_
  · rw [hisr]
    intro d hd
    cases hd
  · rw [happ]
    intro d hd
    cases hd

theorem Inv.endMessage (h : Inv s) : Inv (endMessage s) :=
  .of_queues (by decide : TaskState.listening ≠ .sending) h.isr h.app

theorem Inv.retransmit (h : Inv s) (hstate : s.taskState = .sending) : Inv (retransmit env s) := by
  have hlen := h.short hstate
  cases hline : env.line with
  | true =>
    rw [retransmit_started hline hlen]
    exact ⟨h.exit, h.isr, h.app, h.short, fun _ => .inl rfl⟩
  | false =>
    rw [retransmit_refused hline]
    have happ := h.writeApp (d := { s.txData with retry := true }) hlen
    exact ⟨h.exit, h.isr, happ.app, h.short, h.started⟩

theorem Inv.takeUp (h : Inv s) (hexit : s.taskExit = false) (hcmd : d.cmd = .txMsg)
    (hlen : d.msg.length ≤ 16) : Inv (listening env d s) := by
  cases hline : env.line with
  | true =>
    rw [listening_started hcmd hline hlen]
    exact ⟨fun _ => hexit, h.isr, h.app, fun _ => hlen, fun _ => .inl rfl⟩
  | false =>
    rw [listening_refused hcmd hline]
    have happ := h.writeApp (d := { d with cmd := .txFailed, status := txFailLineBusy }) hlen
    exact ⟨fun _ => hexit, h.isr, happ.app, fun _ => hlen, fun _ => .inr (.inr rfl)⟩

theorem Inv.listening (h : Inv s) (hexit : s.taskExit = false)
    (hlen : d.cmd = .txMsg → d.msg.length ≤ 16) : Inv (listening env d s) := by
  cases hcmd : d.cmd with
  | txMsg => exact h.takeUp hexit hcmd (hlen hcmd)
  | exit =>
    rw [CecTask.listening, hcmd]
    exact .disable _ s
  | rxMsg =>
    rw [CecTask.listening, hcmd]
    exact h.srvRxMsg
  | rxFailed | txDone | txFailed =>
    rw [CecTask.listening, hcmd]
    exact h

theorem Inv.sending (h : Inv s) (hstate : s.taskState = .sending)
    (hlen : d.cmd = .txMsg → d.msg.length ≤ 16) : Inv (sending env d s) := by
  cases hcmd : d.cmd with
  | txDone =>
    rw [CecTask.sending, hcmd]
    exact h.endMessage
  | txFailed =>
    rw [CecTask.sending, hcmd]
    dsimp only
    split
    · exact h.retransmit hstate
    · exact h.endMessage
  | rxMsg =>
    rw [CecTask.sending, hcmd]
    exact h.srvRxMsg
  | txMsg =>
    rw [CecTask.sending, hcmd]
    exact h.writeApp (hlen hcmd)
  | rxFailed | exit =>
    rw [CecTask.sending, hcmd]
    exact h

theorem Inv.task (h : Inv s) : Inv (task env s) := by
  cases hexit : s.taskExit with
  | true =>
    rw [CecTask.task, hexit]
    exact h
  | false =>
    rcases next_cases s with ⟨hnone, -⟩ | ⟨d, s', hnext, ht⟩
    · rw [CecTask.task, hexit, hnone]
      exact h
    · obtain ⟨h', hlen⟩ := h.taken ht
      rw [task_taken hexit hnext]
      cases hstate : s'.taskState with
      | idle =>
        dsimp only
        split
        · exact .disable _ s'
        · exact h'
      | listening => exact h'.listening (ht.taskExit.trans hexit) fun hcmd => (hlen hcmd).1
      | sending => exact h'.sending hstate fun hcmd => (hlen hcmd).1

theorem Inv.isr_interrupt (h : Inv s) (reg : UInt16) (bytes : Bytes) : Inv (CecTask.isr reg bytes s) := by
  have hi := isr_interrupted reg bytes s
  refine ⟨?_, fun d hd => ?_, ?_, ?_, fun hstate => ?_⟩
  · rw [hi.taskState, hi.taskExit]
    exact h.exit
  · rcases hi.new d hd with hd | hd
    · exact h.isr d hd
    · exact hd
  · rw [hi.app]
    exact h.app
  · rw [hi.taskState, hi.msg]
    exact h.short
  · by_cases hends : Ends reg
    · exact .inr (isr_ends hends).2
    · obtain ⟨htx, hbusy⟩ := isr_quiet s bytes hends
      rw [htx, hbusy]
      exact h.started (hi.taskState ▸ hstate)

theorem Inv.step (h : Inv s) (a : Act) : Inv (step a s) := by
  cases a with
  | isr reg bytes => exact h.isr_interrupt reg bytes
  | task env => exact h.task
  | srvTxMsg sys now m => exact h.writeApp (length_frameOf _ m)

end Invariant

section Waiting

variable {s s' : State} {d : TaskData} {env : Env}

theorem Reported.mono (h : Reported s) (hisr : s.isr <+: s'.isr) (happ : s.app <+: s'.app)
    (hmsg : s'.txData.msg = s.txData.msg) (htime : s'.txData.txtime = s.txData.txtime) :
    Reported s' := by
  obtain ⟨d, hd, hcmd, hm, ht⟩ := h
  refine ⟨d, ?_, hcmd, hm.trans hmsg.symm, ht.trans htime.symm⟩
  rcases List.mem_append.mp hd with hd | hd
  · exact List.mem_append_left _ (hisr.subset hd)
  · exact List.mem_append_right _ (happ.subset hd)

theorem awaited_of_ne (h : s.taskState ≠ .sending) : Awaited s := fun hs => absurd hs h

theorem Awaited.taken (h : Awaited s) (ht : Taken s d s') (hd : ¬ IsResult d.cmd) : Awaited s' := by
  intro hstate
  rw [ht.taskState] at hstate
  rw [ht.busy]
  rcases h hstate with hbusy | ⟨x, hx, hreports⟩
  · exact .inl hbusy
  · have hne : x ≠ d := by
      rintro rfl
      exact hd hreports.1
    refine .inr ⟨x, ?_, by rwa [Reports, ht.txData]⟩
    rcases ht.queues with ⟨hisr, happ⟩ | ⟨hnil, hnil', happ⟩
    · rw [hisr] at hx
      rw [happ]
      exact (List.mem_cons.mp hx).resolve_left hne
    · rw [hnil, happ] at hx
      rw [hnil']
      exact (List.mem_cons.mp hx).resolve_left hne

theorem Awaited.of_app (h : Awaited s) {b : Fifo} (hb : s.app <+: b.contents) :
    Awaited { s with appFifo := b } := by
  intro hstate
  rcases h hstate with hbusy | hreported
  · exact .inl hbusy
  · exact .inr (hreported.mono List.prefix_rfl hb rfl rfl)

theorem Awaited.srvRxMsg (h : Awaited s) : Awaited (srvRxMsg env d s) := by
  refine h.of_app ?_
  rw [foldl_writeFifo]
  exact List.prefix_append _ _

theorem awaited_takeUp (hcmd : d.cmd = .txMsg) (hlen : d.msg.length ≤ 16) (hroom : s.app.length < 2) :
    Awaited (listening env d s) := by
  intro _
  cases hline : env.line with
  | true =>
    rw [listening_started hcmd hline hlen]
    exact .inl rfl
  | false =>
    rw [listening_refused hcmd hline]
    refine .inr ⟨{ d with cmd := .txFailed, status := txFailLineBusy }, ?_, .inr rfl, rfl, rfl⟩
    refine List.mem_append_right _ ?_
    change _ ∈ (writeFifo _ s.appFifo).contents
    rw [writeFifo_room hroom]
    exact List.mem_append_right _ (List.mem_singleton_self _)

theorem Awaited.listening (h : Awaited s) (hlen : d.cmd = .txMsg → d.msg.length ≤ 16)
    (hroom : d.cmd = .txMsg → s.app.length < 2) : Awaited (listening env d s) := by
  cases hcmd : d.cmd with
  | txMsg => exact awaited_takeUp hcmd (hlen hcmd) (hroom hcmd)
  | exit =>
    rw [CecTask.listening, hcmd]
    exact awaited_of_ne (by decide : TaskState.idle ≠ .sending)
  | rxMsg =>
    rw [CecTask.listening, hcmd]
    exact h.srvRxMsg
  | rxFailed | txDone | txFailed =>
    rw [CecTask.listening, hcmd]
    exact h

theorem awaited_retransmit_iff (h : Inv s) (hstate : s.taskState = .sending) :
    Awaited (retransmit env s) ↔
      ¬ (s.busy = false ∧ env.line = false ∧ s.app.length = 2 ∧ ¬ Reported s) := by
  cases hline : env.line with
  | true =>
    rw [retransmit_started hline (h.short hstate)]
    exact ⟨fun _ hl => absurd hl.2.1 (by decide), fun _ _ => .inl rfl⟩
  | false =>
    rw [retransmit_refused hline]
    rcases Nat.lt_or_ge s.app.length 2 with hroom | hfull
    · refine ⟨fun _ hl => absurd hl.2.2.1 hroom.ne, fun _ _ => ?_⟩
      rcases h.started hstate with hbusy | hcmd
      · exact .inl hbusy
      · refine .inr ⟨{ s.txData with retry := true }, ?_, hcmd, rfl, rfl⟩
        refine List.mem_append_right _ ?_
        change _ ∈ (writeFifo _ s.appFifo).contents
        rw [writeFifo_room hroom]
        exact List.mem_append_right _ (List.mem_singleton_self _)
    · have htwo : s.app.length = 2 := le_antisymm (length_app_le s) hfull
      rw [writeFifo_full htwo]
      constructor
      · rintro haw ⟨hbusy, -, -, hnot⟩
        rcases haw hstate with hb | hr
        · exact absurd (hbusy.symm.trans hb) (by decide)
        · exact hnot (hr.mono List.prefix_rfl List.prefix_rfl rfl rfl)
      · intro hnot _
        by_contra hno
        obtain ⟨hb, hr⟩ := not_or.mp hno
        refine hnot ⟨Bool.eq_false_of_not_eq_true hb, rfl, htwo, fun hrep => hr ?_⟩
        exact hrep.mono List.prefix_rfl List.prefix_rfl rfl rfl

theorem loses_task_iff (ht : Taken s d s') (hstate : s.taskState = .sending)
    (hcmd : d.cmd = .txFailed) :
    Loses s (.task env) ↔ retries env s' ∧
      (s'.busy = false ∧ env.line = false ∧ s'.app.length = 2 ∧ ¬ Reported s') := by
  have hretries : retries env s' ↔ retries env s := by
    rw [retries, retries, ht.retransTime, ht.txData]
  have hreports (x : TaskData) : Reports s' x ↔ Reports s x := by
    rw [Reports, Reports, ht.txData]
  rw [hretries, ht.busy]
  constructor
  · rintro ⟨-, hbusy, hline, hretry, hfull, d', ds, hisr, -, hnone⟩
    rcases ht.queues with ⟨hisr', happ⟩ | ⟨hnil, -⟩
    · obtain ⟨-, rfl⟩ := List.cons.inj (hisr.symm.trans hisr')
      rw [happ]
      refine ⟨hretry, hbusy, hline, hfull, ?_⟩
      rintro ⟨x, hx, hrep⟩
      rw [happ] at hx
      exact hnone x hx ((hreports x).mp hrep)
    · rw [hnil] at hisr
      cases hisr
  · rintro ⟨hretry, hbusy, hline, hfull, hnone⟩
    rcases ht.queues with ⟨hisr, happ⟩ | ⟨-, -, happ⟩
    · refine ⟨hstate, hbusy, hline, hretry, happ ▸ hfull, d, s'.isr, hisr, hcmd, fun x hx hrep => ?_⟩
      rw [← happ] at hx
      exact hnone ⟨x, hx, (hreports x).mpr hrep⟩
    · have hle := length_app_le s
      rw [happ, List.length_cons, hfull] at hle
      exact absurd hle (by decide)

theorem not_loses_task (ht : Taken s d s') (hcmd : d.cmd ≠ .txFailed) : ¬ Loses s (.task env) := by
  rintro ⟨-, -, -, -, -, d', ds, hisr, hfailed, -⟩
  rcases ht.queues with ⟨hisr', -⟩ | ⟨hnil, -⟩
  · obtain ⟨rfl, -⟩ := List.cons.inj (hisr.symm.trans hisr')
    exact hcmd hfailed
  · rw [hnil] at hisr
    cases hisr

theorem awaited_sending_iff (h : Inv s) (hw : Awaited s) (ht : Taken s d s')
    (hstate : s.taskState = .sending) :
    Awaited (sending env d s') ↔ ¬ Loses s (.task env) := by
  have hstate' : s'.taskState = .sending := ht.taskState.trans hstate
  have hquiet (hd : ¬ IsResult d.cmd) : Awaited s' := hw.taken ht hd
  cases hcmd : d.cmd with
  | txFailed =>
    rw [loses_task_iff ht hstate hcmd, CecTask.sending, hcmd]
    dsimp only
    by_cases hretry : retries env s'
    · rw [if_pos hretry, awaited_retransmit_iff (h.taken ht).1 hstate']
      exact ⟨fun hn hl => hn hl.2, fun hn hl => hn ⟨hretry, hl⟩⟩
    · rw [if_neg hretry]
      exact ⟨fun _ hl => hretry hl.1,
        fun _ => awaited_of_ne (by decide : TaskState.listening ≠ .sending)⟩
  | txDone =>
    rw [CecTask.sending, hcmd]
    exact ⟨fun _ => not_loses_task ht (by rw [hcmd]; decide),
      fun _ => awaited_of_ne (by decide : TaskState.listening ≠ .sending)⟩
  | rxMsg =>
    have haw := hquiet (by rw [hcmd]; rintro (hc | hc) <;> cases hc)
    rw [CecTask.sending, hcmd]
    exact ⟨fun _ => not_loses_task ht (by rw [hcmd]; decide), fun _ => haw.srvRxMsg⟩
  | txMsg =>
    have haw := hquiet (by rw [hcmd]; rintro (hc | hc) <;> cases hc)
    rw [CecTask.sending, hcmd]
    exact ⟨fun _ => not_loses_task ht (by rw [hcmd]; decide), fun _ => haw.of_app prefix_writeFifo⟩
  | rxFailed | exit =>
    have haw := hquiet (by rw [hcmd]; rintro (hc | hc) <;> cases hc)
    rw [CecTask.sending, hcmd]
    exact ⟨fun _ => not_loses_task ht (by rw [hcmd]; decide), fun _ => haw⟩

theorem awaited_task_iff (h : Inv s) (hw : Awaited s) :
    Awaited (task env s) ↔ ¬ Loses s (.task env) := by
  cases hexit : s.taskExit with
  | true =>
    have hne : s.taskState ≠ .sending := by
      intro hs
      rw [h.exit hs] at hexit
      cases hexit
    rw [task, hexit]
    exact ⟨fun _ hl => hne hl.1, fun _ => hw⟩
  | false =>
    rcases next_cases s with ⟨hnone, hisr, -⟩ | ⟨d, s', hnext, ht⟩
    · rw [task, hexit, hnone]
      refine ⟨fun _ => ?_, fun _ => hw⟩
      rintro ⟨-, -, -, -, -, d, ds, hcons, -⟩
      rw [hisr] at hcons
      cases hcons
    · rw [task_taken hexit hnext]
      cases hstate : s'.taskState with
      | sending => exact awaited_sending_iff h hw ht (ht.taskState.symm.trans hstate)
      | idle =>
        have hne : s.taskState ≠ .sending := by
          rw [← ht.taskState, hstate]
          decide
        refine ⟨fun _ hl => hne hl.1, fun _ => ?_⟩
        dsimp only
        split
        · exact awaited_of_ne (by decide : TaskState.idle ≠ .sending)
        · exact awaited_of_ne (by rw [hstate]; decide)
      | listening =>
        have hne : s.taskState ≠ .sending := by
          rw [← ht.taskState, hstate]
          decide
        refine ⟨fun _ hl => hne hl.1, fun _ => ?_⟩
        refine (awaited_of_ne (by rw [hstate]; decide)).listening
          (fun hcmd => ((h.taken ht).2 hcmd).1) fun hcmd => ?_
        -- a request comes from the FIFO of the requests, which has room then
        rcases ht.queues with ⟨hisr, -⟩ | ⟨-, -, happ⟩
        · rw [((h.taken ht).2 hcmd).2] at hisr
          cases hisr
        · have hle := length_app_le s
          rw [happ, List.length_cons] at hle
          omega

theorem awaited_isr_iff (hw : Awaited s) {reg : UInt16} {bytes : Bytes} :
    Awaited (isr reg bytes s) ↔ ¬ Loses s (.isr reg bytes) := by
  have hi := isr_interrupted reg bytes s
  have happ : s.app <+: (isr reg bytes s).app := by rw [hi.app]
  by_cases hrep : Reported s
  · exact ⟨fun _ hl => hl.2.2.2 hrep,
      fun _ _ => .inr (hrep.mono hi.queue happ hi.msg hi.txtime)⟩
  · by_cases hends : Ends reg
    · rcases Nat.lt_or_ge s.isr.length 2 with hroom | hfull
      · refine ⟨fun _ hl => absurd hl.2.2.1 hroom.ne, fun _ _ => .inr ?_⟩
        obtain ⟨d, hd, hcmd, hmsg, htime⟩ := isr_reports bytes hends hroom
        exact ⟨d, List.mem_append_left _ hd, hcmd, hmsg.trans hi.msg.symm, htime.trans hi.txtime.symm⟩
      · have htwo : s.isr.length = 2 := le_antisymm (length_isr_le s) hfull
        have hsame : (isr reg bytes s).isr = s.isr := by
          refine (hi.queue.eq_of_length_le ?_).symm
          rw [htwo]
          exact length_isr_le _
        constructor
        · rintro haw ⟨hstate, -⟩
          rcases haw (hi.taskState.trans hstate) with hbusy | ⟨d, hd, hcmd, hmsg, htime⟩
          · rw [(isr_ends hends).1] at hbusy
            cases hbusy
          · rw [hsame, hi.app] at hd
            exact hrep ⟨d, hd, hcmd, hmsg.trans hi.msg, htime.trans hi.txtime⟩
        · intro hnot hstate
          exact absurd ⟨hi.taskState ▸ hstate, hends, htwo, hrep⟩ hnot
    · refine ⟨fun _ hl => hends hl.2.1, fun _ hstate => ?_⟩
      rw [(isr_quiet s bytes hends).2]
      exact .inl ((hw (hi.taskState ▸ hstate)).resolve_right hrep)

theorem awaited_step_iff (h : Inv s) (hw : Awaited s) (a : Act) :
    Awaited (step a s) ↔ ¬ Loses s a := by
  cases a with
  | isr reg bytes => exact awaited_isr_iff hw
  | task env => exact awaited_task_iff h hw
  | srvTxMsg sys now m => exact ⟨fun _ hl => hl, fun _ => hw.of_app prefix_writeFifo⟩

end Waiting

theorem inv_enable {logicAddr : UInt8} (h : logicAddr ≠ 0x0f) (s : State) :
    Inv (enable logicAddr true s) ∧ Awaited (enable logicAddr true s) := by
  have heq := enable_true h s
  have hne : (enable logicAddr true s).taskState ≠ .sending := by
    rw [heq]
    exact (by decide : TaskState.listening ≠ .sending)
  have hisr : (enable logicAddr true s).isr = [] := by
    rw [heq]
    exact contents_clearFifo s.isrFifo
  have happ : (enable logicAddr true s).app = [] := by
    rw [heq]
    exact contents_clearFifo s.appFifo
  refine ⟨.of_queues hne ?_ ?_, awaited_of_ne hne⟩
  · rw [hisr]
    intro d hd
    cases hd
  · rw [happ]
    intro d hd
    cases hd

/-- From the time it is enabled on, the task waits for nothing only after one of the losses. -/
theorem awaited_iff_nothing_lost {logicAddr : UInt8} (h : logicAddr ≠ 0x0f) (s : State)
    (acts : List Act) :
    (∀ n, Awaited (run step (enable logicAddr true s) (acts.take n))) ↔
      Meets step (fun s a => ¬ Loses s a) (enable logicAddr true s) acts := by
  obtain ⟨hinv, hw⟩ := inv_enable h s
  have hcongr : Meets step (fun s a => Awaited (step a s)) (enable logicAddr true s) acts ↔
      Meets step (fun s a => ¬ Loses s a) (enable logicAddr true s) acts :=
    meets_congr (I := fun s => Inv s ∧ Awaited s) (fun s a hs ha => ⟨hs.1.step a, ha⟩)
      (fun s a hs => awaited_step_iff hs.1 hs.2 a) ⟨hinv, hw⟩
  rw [always_iff, hcongr]
  exact and_iff_right hw

theorem message_awaited :
    let sys : System := ⟨.active, 1, 4, 0x1000, 4, []⟩
    let env : Env := ⟨.box, sys, 0, true⟩
    let acts : List Act := [.srvTxMsg sys 0 ⟨0, 0x90, [0]⟩, .task env, .isr 0x0010 [], .task env]
    (run step (enable 4 true reset) (acts.take 2)).taskState = .sending ∧
      ∀ n, Awaited (run step (enable 4 true reset) (acts.take n)) := by
  refine ⟨by decide, (awaited_iff_nothing_lost (by decide) reset _).mpr ?_⟩
  refine ⟨id, fun h => ?_, fun h => ?_, fun h => ?_, trivial⟩
  · exact absurd h.1 (by decide)
  · exact absurd h.2.2.1 (by decide)
  · exact absurd h.2.2.2.2.1 (by decide)

theorem done_lost :
    let sys : System := ⟨.active, 1, 4, 0x1000, 4, []⟩
    let env : Env := ⟨.box, sys, 0, true⟩
    let acts : List Act := [.srvTxMsg sys 0 ⟨0, 0x90, [0]⟩, .task env, .isr 0x0020 [0x04, 0x45],
      .isr 0x0020 [0x04, 0x45], .isr 0x0010 []]
    let s := run step (enable 4 true reset) acts
    let s' := run step s [.task env, .task env]
    s.taskState = .sending ∧ s.busy = false ∧ (s.isr ++ s.app).map TaskData.cmd = [.rxMsg, .rxMsg] ∧
      s'.taskState = .sending ∧ s'.busy = false ∧ s'.isr ++ s'.app = [] ∧ ¬ Awaited s' := by
  refine ⟨by decide, by decide, by decide, by decide, by decide, by decide, fun h => ?_⟩
  rcases h (by decide) with hbusy | ⟨d, hd, -⟩
  · exact absurd hbusy (by decide)
  · have hnil : d ∈ ([] : List TaskData) := hd
    cases hnil

end SynaBoot.CecWaiting
