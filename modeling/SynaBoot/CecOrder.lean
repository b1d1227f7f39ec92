import SynaBoot.CecWaiting

namespace SynaBoot.CecOrder

open SynaBoot.CecSrv
open SynaBoot.CecTask
open SynaBoot.CecWaiting
open SynaBoot.Schedules

def requests (s : State) : List TaskData := s.app.filter fun d => d.cmd = .txMsg

def command (s : State) : Option (TaskData × State) := if s.taskExit then none else next s

def arrivals : Act → State → List TaskData
  | .isr _ _, _ => []
  | .srvTxMsg sys now m, s => [request sys now m].take (2 - s.app.length)
  | .task env, s =>
    match command s with
    | none => []
    | some (d, s') =>
      if s.taskState ≠ .idle ∧ d.cmd = .rxMsg then (replies env d.msg).take (2 - s'.app.length) else []

def begins : Act → State → List TaskData
  | .isr _ _, _ => []
  | .srvTxMsg _ _ _, _ => []
  | .task _, s =>
    match command s with
    | none => []
    | some (d, _) => if s.taskState = .listening ∧ d.cmd = .txMsg then [d] else []

def turns : Act → State → Bool
  | .isr _ _, _ => false
  | .srvTxMsg _ _ _, _ => false
  | .task _, s =>
    match command s with
    | none => false
    | some (d, s') => decide (s.taskState = .sending ∧ d.cmd = .txMsg ∧ requests s' ≠ [])

structure Trace where
  state : State
  queued : List TaskData
  begun : List TaskData
  turned : ℕ

def Trace.step (a : Act) (t : Trace) : Trace where
  state := CecTask.step a t.state
  queued := t.queued ++ arrivals a t.state
  begun := t.begun ++ begins a t.state
  turned :=
    if begins a t.state ≠ [] then 0 else if turns a t.state then t.turned + 1 else t.turned

def Trace.start (logicAddr : UInt8) (s : State) : Trace := ⟨enable logicAddr true s, [], [], 0⟩

def InOrder (t : Trace) : Prop := t.begun <+: t.queued

def Genuine (s : State) : Act → Prop
  | .isr reg _ => Ends reg → s.busy = true ∧ ¬ (reg &&& intrTxFail ≠ 0 ∧ reg &&& intrTxComplete ≠ 0)
  | .task _ => True
  | .srvTxMsg _ _ _ => True

/-- The two have changed places an odd number of times. -/
def Overtakes (t : Trace) (a : Act) : Prop :=
  t.turned % 2 = 1 ∧ ∃ d e, begins a t.state = [d] ∧ requests t.state = [d, e] ∧ d ≠ e

section Results

variable {s s' : State} {d : TaskData} {b : Fifo} {env : Env}

def isEnd (d : TaskData) : Bool := d.cmd = .txDone || d.cmd = .txFailed || d.cmd = .exit

def results (s : State) : ℕ := (if s.busy then 1 else 0) + (s.isr.countP isEnd + s.app.countP isEnd)

theorem countP_writeFifo_le : (writeFifo d b).contents.countP isEnd ≤ b.contents.countP isEnd + 1 := by
  rcases Nat.lt_or_ge b.contents.length 2 with h | h
  · rw [writeFifo_room h, List.countP_append]
    exact Nat.add_le_add_left List.countP_le_length _
  · rw [writeFifo_full (le_antisymm (length_contents_le b) h)]
    exact Nat.le_succ _

theorem countP_writeFifo (h : isEnd d = false) :
    (writeFifo d b).contents.countP isEnd = b.contents.countP isEnd := by
  rcases Nat.lt_or_ge b.contents.length 2 with hlt | hge
  · rw [writeFifo_room hlt, List.countP_append, List.countP_singleton, h]
    rfl
  · rw [writeFifo_full (le_antisymm (length_contents_le b) hge)]

theorem results_sendTxStatus (h : s.busy = true) (cmd : Cmd) (status : UInt8) :
    results (sendTxStatus cmd status s) ≤ results s := by
  have hle : (sendTxStatus cmd status s).isr.countP isEnd ≤ s.isr.countP isEnd + 1 :=
    countP_writeFifo_le
  have happ : (sendTxStatus cmd status s).app = s.app := rfl
  unfold results
  rw [h, happ, if_pos rfl]
  change 0 + _ ≤ _
  omega

theorem results_sendRxStatus {cmd : Cmd} (h : ∀ d : TaskData, d.cmd = cmd → isEnd d = false)
    (status : UInt8) (s : State) : results (sendRxStatus cmd status s) = results s := by
  have heq : (sendRxStatus cmd status s).isr.countP isEnd = s.isr.countP isEnd :=
    countP_writeFifo (h _ rfl)
  unfold results
  rw [heq]
  rfl

theorem results_isr {reg : UInt16} {bytes : Bytes} (h : Genuine s (.isr reg bytes)) :
    results (isr reg bytes s) ≤ results s := by
  have hfailed (d : TaskData) (hd : d.cmd = .rxFailed) : isEnd d = false := by
    rw [isEnd, hd]
    rfl
  have hmsg (d : TaskData) (hd : d.cmd = .rxMsg) : isEnd d = false := by
    rw [isEnd, hd]
    rfl
  have hread (s : State) (d : TaskData) : results { s with rxData := d } = results s := rfl
  have hrx (s : State) : results (isrRx reg bytes s) = results s := by
    unfold isrRx
    dsimp only
    by_cases hfail : reg &&& intrRxFail ≠ 0
    · rw [if_pos hfail]
      split
      · rw [results_sendRxStatus hmsg, hread, results_sendRxStatus hfailed]
      · rw [results_sendRxStatus hfailed]
    · rw [if_neg hfail]
      split
      · rw [results_sendRxStatus hmsg, hread]
      · rfl
  rw [isr, hrx]
  unfold isrTx
  split_ifs with hfail hdone hdone
  · exact absurd ⟨hfail, hdone⟩ (h (.inl hfail)).2
  · exact results_sendTxStatus (h (.inl hfail)).1 _ _
  · exact results_sendTxStatus (h (.inr hdone)).1 _ _
  · exact le_rfl

theorem results_taken (ht : Taken s d s') :
    results s = results s' + if isEnd d then 1 else 0 := by
  unfold results
  rw [ht.busy]
  rcases ht.queues with ⟨hisr, happ⟩ | ⟨hnil, hnil', happ⟩
  · rw [hisr, happ, List.countP_cons]
    omega
  · rw [hnil, hnil', happ, List.countP_cons]
    omega

theorem isEnd_request {d : TaskData} (h : d.cmd = .txMsg) : isEnd d = false := by
  rw [isEnd, h]
  rfl

theorem replies_txMsg {bytes : Bytes} {n : ℕ} :
    ∀ r ∈ (replies env bytes).take n, r.cmd = .txMsg := by
  intro r hr
  obtain ⟨m, rfl⟩ := mem_replies (List.mem_of_mem_take hr)
  rfl

theorem results_srvRxMsg : results (srvRxMsg env d s) = results s := by
  have happ : (srvRxMsg env d s).app.countP isEnd = s.app.countP isEnd := by
    have hzero : ((replies env d.msg).take (2 - s.app.length)).countP isEnd = 0 := by
      refine List.countP_eq_zero.mpr fun r hr => ?_
      rw [isEnd_request (replies_txMsg r hr)]
      exact Bool.false_ne_true
    rw [srvRxMsg_app, List.countP_append, hzero, Nat.add_zero]
  unfold results
  rw [happ]
  rfl

end Results

structure Calm (s : State) : Prop where
  inv : Inv s
  awake : s.taskState ≠ .idle ∧ s.taskExit = false
  few : results s ≤ if s.taskState = .sending then 1 else 0

section Calm

variable {s s' : State} {d : TaskData} {env : Env}

theorem task_eq (h : Calm s) (hnext : next s = some (d, s')) (ht : Taken s d s') :
    task env s = if s.taskState = .listening then listening env d s' else sending env d s' := by
  rw [task_taken h.awake.2 hnext, ht.taskState]
  cases hstate : s.taskState with
  | idle => exact absurd hstate h.awake.1
  | listening => rfl
  | sending => rfl

theorem Calm.isEnd_listening (h : Calm s) (hstate : s.taskState = .listening) (ht : Taken s d s') :
    results s' = 0 ∧ isEnd d = false := by
  have hzero : results s = 0 := by
    have hle := h.few
    rw [hstate] at hle
    exact Nat.le_zero.mp hle
  have htaken := results_taken ht
  rw [hzero] at htaken
  cases hend : isEnd d with
  | false =>
    rw [hend] at htaken
    exact ⟨htaken.symm, rfl⟩
  | true =>
    rw [hend, if_pos rfl] at htaken
    omega

theorem Calm.results_sending (h : Calm s) (hstate : s.taskState = .sending) (ht : Taken s d s') :
    results s' ≤ 1 ∧ (isEnd d = true → results s' = 0) := by
  have hle := h.few
  rw [hstate, if_pos rfl, results_taken ht] at hle
  refine ⟨by omega, fun hend => ?_⟩
  rw [hend, if_pos rfl] at hle
  omega

theorem not_busy (h : results s = 0) : s.busy = false ∧ s.isr.countP isEnd = 0 ∧
    s.app.countP isEnd = 0 := by
  unfold results at h
  cases hbusy : s.busy with
  | false =>
    rw [hbusy] at h
    exact ⟨rfl, by omega, by omega⟩
  | true =>
    rw [hbusy, if_pos rfl] at h
    omega

theorem results_started {s' : State} (h : results s = 0) (hisr : s'.isr = s.isr)
    (happ : s'.app = s.app) : results s' ≤ 1 := by
  obtain ⟨-, hisr0, happ0⟩ := not_busy h
  unfold results
  rw [hisr, happ, hisr0, happ0]
  split <;> omega

theorem results_refused {s' : State} (h : results s = 0) (hisr : s'.isr = s.isr)
    (happ : s'.app.countP isEnd ≤ s.app.countP isEnd + 1) (hbusy : s'.busy = s.busy) :
    results s' ≤ 1 := by
  obtain ⟨hfree, hisr0, happ0⟩ := not_busy h
  have hne : ¬ s'.busy = true := by
    rw [hbusy, hfree]
    exact Bool.false_ne_true
  unfold results
  rw [hisr, hisr0, if_neg hne]
  omega

theorem Calm.listening (h : Calm s) (hstate : s.taskState = .listening) (ht : Taken s d s') :
    (CecTask.listening env d s').taskState ≠ .idle ∧
      (CecTask.listening env d s').taskExit = false ∧
      results (CecTask.listening env d s') ≤
        if (CecTask.listening env d s').taskState = .sending then 1 else 0 := by
  obtain ⟨hzero, hend⟩ := h.isEnd_listening hstate ht
  have hawake : s'.taskState ≠ .idle ∧ s'.taskExit = false := by
    rw [ht.taskState, ht.taskExit]
    exact h.awake
  have hsame : results s' ≤ if s'.taskState = .sending then 1 else 0 := by
    rw [hzero]
    exact Nat.zero_le _
  cases hcmd : d.cmd with
  | txMsg =>
    have hlen := ((h.inv.taken ht).2 hcmd).1
    cases hline : env.line with
    | true =>
      rw [listening_started hcmd hline hlen]
      exact ⟨(by decide : TaskState.sending ≠ .idle), hawake.2, results_started hzero rfl rfl⟩
    | false =>
      rw [listening_refused hcmd hline]
      exact ⟨(by decide : TaskState.sending ≠ .idle), hawake.2,
        results_refused hzero rfl countP_writeFifo_le rfl⟩
  | rxMsg =>
    rw [CecTask.listening, hcmd]
    refine ⟨hawake.1, hawake.2, ?_⟩
    rw [results_srvRxMsg]
    exact hsame
  | rxFailed =>
    rw [CecTask.listening, hcmd]
    exact ⟨hawake.1, hawake.2, hsame⟩
  | txDone | txFailed | exit =>
    rw [isEnd, hcmd] at hend
    exact absurd hend (by decide)

theorem Calm.sending (h : Calm s) (hstate : s.taskState = .sending) (ht : Taken s d s') :
    (CecTask.sending env d s').taskState ≠ .idle ∧
      (CecTask.sending env d s').taskExit = false ∧
      results (CecTask.sending env d s') ≤
        if (CecTask.sending env d s').taskState = .sending then 1 else 0 := by
  obtain ⟨hone, hzero⟩ := h.results_sending hstate ht
  have hstate' : s'.taskState = .sending := ht.taskState.trans hstate
  have hexit : s'.taskExit = false := ht.taskExit.trans h.awake.2
  have hawake : s'.taskState ≠ .idle := by
    rw [hstate']
    decide
  have hsame : results s' ≤ if s'.taskState = .sending then 1 else 0 := by
    rw [hstate', if_pos rfl]
    exact hone
  have hgiveUp (hend : isEnd d = true) : (endMessage s').taskState ≠ .idle ∧
      (endMessage s').taskExit = false ∧ results (endMessage s') ≤
        if (endMessage s').taskState = .sending then 1 else 0 :=
    ⟨(by decide : TaskState.listening ≠ .idle), hexit, (hzero hend).le⟩
  cases hcmd : d.cmd with
  | txDone =>
    rw [CecTask.sending, hcmd]
    exact hgiveUp (by rw [isEnd, hcmd]; rfl)
  | txFailed =>
    have hend : isEnd d = true := by
      rw [isEnd, hcmd]
      rfl
    rw [CecTask.sending, hcmd]
    dsimp only
    split
    · have hlen := (h.inv.taken ht).1.short hstate'
      cases hline : env.line with
      | true =>
        rw [retransmit_started hline hlen]
        refine ⟨hawake, hexit, ?_⟩
        rw [if_pos hstate']
        exact results_started (hzero hend) rfl rfl
      | false =>
        rw [retransmit_refused hline]
        refine ⟨hawake, hexit, ?_⟩
        rw [if_pos hstate']
        exact results_refused (hzero hend) rfl countP_writeFifo_le rfl
    · exact hgiveUp hend
  | rxMsg =>
    rw [CecTask.sending, hcmd]
    refine ⟨hawake, hexit, ?_⟩
    rw [results_srvRxMsg]
    exact hsame
  | txMsg =>
    rw [CecTask.sending, hcmd]
    refine ⟨hawake, hexit, ?_⟩
    have happ : (writeFifo d s'.appFifo).contents.countP isEnd = s'.app.countP isEnd :=
      countP_writeFifo (isEnd_request hcmd)
    unfold results at hsame ⊢
    change _ + (_ + (writeFifo d s'.appFifo).contents.countP isEnd) ≤ _
    rw [happ]
    exact hsame
  | rxFailed | exit =>
    rw [CecTask.sending, hcmd]
    exact ⟨hawake, hexit, hsame⟩

theorem Calm.task (h : Calm s) : Calm (task env s) := by
  rcases next_cases s with ⟨hnone, -⟩ | ⟨d, s', hnext, ht⟩
  · have hsame : CecTask.task env s = s := by
      rw [CecTask.task, h.awake.2, hnone]
      rfl
    rw [hsame]
    exact h
  · have hinv : Inv (CecTask.task env s) := h.inv.task
    rw [task_eq h hnext ht] at hinv ⊢
    by_cases hstate : s.taskState = .listening
    · rw [if_pos hstate] at hinv ⊢
      obtain ⟨hidle, hexit, hresults⟩ := h.listening hstate ht
      exact ⟨hinv, ⟨hidle, hexit⟩, hresults⟩
    · have hsending : s.taskState = .sending := by
        cases hs : s.taskState with
        | idle => exact absurd hs h.awake.1
        | listening => exact absurd hs hstate
        | sending => rfl
      rw [if_neg hstate] at hinv ⊢
      obtain ⟨hidle, hexit, hresults⟩ := h.sending hsending ht
      exact ⟨hinv, ⟨hidle, hexit⟩, hresults⟩

theorem Calm.step {a : Act} (h : Calm s) (hg : Genuine s a) : Calm (step a s) := by
  have hinv := h.inv.step a
  cases a with
  | isr reg bytes =>
    have hi := isr_interrupted reg bytes s
    refine ⟨hinv, ?_, ?_⟩
    · change (isr reg bytes s).taskState ≠ .idle ∧ (isr reg bytes s).taskExit = false
      rw [hi.taskState, hi.taskExit]
      exact h.awake
    · change results (isr reg bytes s) ≤ if (isr reg bytes s).taskState = .sending then 1 else 0
      rw [hi.taskState]
      exact (results_isr hg).trans h.few
  | task env => exact h.task
  | srvTxMsg sys now m =>
    refine ⟨hinv, h.awake, ?_⟩
    have happ : (writeFifo (request sys now m) s.appFifo).contents.countP isEnd =
        s.app.countP isEnd := countP_writeFifo rfl
    have hresults := h.few
    unfold results at hresults ⊢
    change _ + (_ + (writeFifo (request sys now m) s.appFifo).contents.countP isEnd) ≤ _
    rw [happ]
    exact hresults

end Calm

inductive Flow (a : Act) (s s' : State) : Prop
  | adds : begins a s = [] → turns a s = false → requests s' = requests s ++ arrivals a s → Flow a s s'
  | takesUp {d : TaskData} : begins a s = [d] → arrivals a s = [] → requests s = d :: requests s' →
      Flow a s s'
  | turns {d e : TaskData} : begins a s = [] → turns a s = true → arrivals a s = [] →
      requests s = [d, e] → requests s' = [e, d] → Flow a s s'

section Flow

variable {s s' : State} {d : TaskData} {b : Fifo} {env : Env}

theorem filter_writeFifo (h : d.cmd ≠ .txMsg) :
    (writeFifo d b).contents.filter (fun d => d.cmd = .txMsg) =
      b.contents.filter fun d => d.cmd = .txMsg := by
  rcases Nat.lt_or_ge b.contents.length 2 with hlt | hge
  · have hnil : [d].filter (fun d => d.cmd = .txMsg) = [] :=
      List.filter_eq_nil_iff.mpr fun x hx => by
        rw [List.mem_singleton.mp hx, decide_eq_true_iff]
        exact h
    rw [writeFifo_room hlt, List.filter_append, hnil, List.append_nil]
  · rw [writeFifo_full (le_antisymm (length_contents_le b) hge)]

theorem filter_requests {ds : List TaskData} (h : ∀ d ∈ ds, d.cmd = .txMsg) :
    ds.filter (fun d => d.cmd = .txMsg) = ds :=
  List.filter_eq_self.mpr fun d hd => decide_eq_true (h d hd)

theorem length_requests_le (s : State) : (requests s).length ≤ 2 :=
  (List.length_filter_le _ _).trans (length_app_le s)

theorem requests_taken (h : Inv s) (ht : Taken s d s') (hcmd : d.cmd = .txMsg) :
    requests s = d :: requests s' ∧ s'.app.length < 2 := by
  obtain ⟨-, hreq⟩ := h.taken ht
  rcases ht.queues with ⟨hisr, -⟩ | ⟨-, -, happ⟩
  · rw [(hreq hcmd).2] at hisr
    cases hisr
  · have hle := length_app_le s
    rw [happ, List.length_cons] at hle
    refine ⟨?_, by omega⟩
    unfold requests
    rw [happ]
    exact List.filter_cons_of_pos (decide_eq_true hcmd)

theorem requests_taken_ne (ht : Taken s d s') (hcmd : d.cmd ≠ .txMsg) : requests s' = requests s := by
  unfold requests
  rcases ht.queues with ⟨-, happ⟩ | ⟨-, -, happ⟩
  · rw [happ]
  · rw [happ, List.filter_cons_of_neg (by rw [decide_eq_true_iff]; exact hcmd)]

theorem requests_srvRxMsg : requests (srvRxMsg env d s) =
    requests s ++ (replies env d.msg).take (2 - s.app.length) := by
  unfold requests
  rw [srvRxMsg_app, List.filter_append, filter_requests replies_txMsg]

theorem command_eq (h : Calm s) : command s = next s := by
  rw [command, h.awake.2]
  rfl

theorem begins_task (h : Calm s) (hnext : next s = some (d, s')) :
    begins (.task env) s = if s.taskState = .listening ∧ d.cmd = .txMsg then [d] else [] := by
  rw [begins, command_eq h, hnext]

theorem turns_task (h : Calm s) (hnext : next s = some (d, s')) :
    turns (.task env) s =
      decide (s.taskState = .sending ∧ d.cmd = .txMsg ∧ requests s' ≠ []) := by
  rw [turns, command_eq h, hnext]

theorem arrivals_task (h : Calm s) (hnext : next s = some (d, s')) :
    arrivals (.task env) s =
      if d.cmd = .rxMsg then (replies env d.msg).take (2 - s'.app.length) else [] := by
  rw [arrivals, command_eq h, hnext]
  dsimp only
  by_cases hcmd : d.cmd = .rxMsg
  · rw [if_pos ⟨h.awake.1, hcmd⟩, if_pos hcmd]
  · rw [if_neg fun hc => hcmd hc.2, if_neg hcmd]

theorem flow_other {s'' : State} (h : Calm s) (hnext : next s = some (d, s')) (ht : Taken s d s')
    (hcmd : d.cmd ≠ .txMsg)
    (hs : requests s'' = requests s' ++
      if d.cmd = .rxMsg then (replies env d.msg).take (2 - s'.app.length) else []) :
    Flow (.task env) s s'' := by
  refine .adds ?_ ?_ ?_
  · rw [begins_task h hnext, if_neg fun hc => hcmd hc.2]
  · rw [turns_task h hnext]
    exact decide_eq_false fun hc => hcmd hc.2.1
  · rw [arrivals_task h hnext, hs, requests_taken_ne ht hcmd]

theorem flow_quiet {s'' : State} (h : Calm s) (hnext : next s = some (d, s')) (ht : Taken s d s')
    (htx : d.cmd ≠ .txMsg) (hrx : d.cmd ≠ .rxMsg) (hs : requests s'' = requests s') :
    Flow (.task env) s s'' := by
  refine flow_other h hnext ht htx ?_
  rw [if_neg hrx, List.append_nil]
  exact hs

theorem flow_listening (h : Calm s) (hnext : next s = some (d, s')) (ht : Taken s d s')
    (hstate : s.taskState = .listening) : Flow (.task env) s (listening env d s') := by
  obtain ⟨-, hend⟩ := h.isEnd_listening hstate ht
  cases hcmd : d.cmd with
  | txMsg =>
    have hrequests : requests (listening env d s') = requests s' := by
      cases hline : env.line with
      | true =>
        rw [listening_started hcmd hline ((h.inv.taken ht).2 hcmd).1]
        rfl
      | false =>
        rw [listening_refused hcmd hline]
        exact filter_writeFifo (by decide : Cmd.txFailed ≠ .txMsg)
    refine .takesUp (d := d) ?_ ?_ ?_
    · rw [begins_task h hnext, if_pos ⟨hstate, hcmd⟩]
    · rw [arrivals_task h hnext, hcmd]
      rfl
    · rw [hrequests]
      exact (requests_taken h.inv ht hcmd).1
  | rxMsg =>
    refine flow_other h hnext ht (by rw [hcmd]; decide) ?_
    rw [CecTask.listening, hcmd, if_pos rfl]
    exact requests_srvRxMsg
  | rxFailed =>
    refine flow_quiet h hnext ht (by rw [hcmd]; decide) (by rw [hcmd]; decide) ?_
    rw [CecTask.listening, hcmd]
  | txDone | txFailed | exit =>
    rw [isEnd, hcmd] at hend
    exact absurd hend (by decide)

theorem flow_putBack (h : Calm s) (hnext : next s = some (d, s')) (ht : Taken s d s')
    (hstate : s.taskState = .sending) (hcmd : d.cmd = .txMsg) :
    Flow (.task env) s { s' with appFifo := writeFifo d s'.appFifo } := by
  obtain ⟨hrequests, hroom⟩ := requests_taken h.inv ht hcmd
  have hback : requests { s' with appFifo := writeFifo d s'.appFifo } = requests s' ++ [d] := by
    change (writeFifo d s'.appFifo).contents.filter _ = _
    rw [writeFifo_room hroom, List.filter_append,
      filter_requests fun x hx => List.mem_singleton.mp hx ▸ hcmd]
    rfl
  have hbegins : begins (.task env) s = [] := by
    rw [begins_task h hnext, if_neg fun hc => absurd (hstate.symm.trans hc.1) (by decide)]
  have harrivals : arrivals (.task env) s = [] := by
    rw [arrivals_task h hnext, hcmd]
    rfl
  cases hrest : requests s' with
  | nil =>
    refine .adds hbegins ?_ ?_
    · rw [turns_task h hnext]
      exact decide_eq_false fun hc => hc.2.2 hrest
    · rw [hback, hrest, hrequests, hrest, harrivals]
      rfl
  | cons e rest =>
    have hone : rest = [] := by
      have hle := length_requests_le s
      rw [hrequests, hrest] at hle
      exact List.length_eq_zero_iff.mp (Nat.le_zero.mp (Nat.le_of_succ_le_succ
        (Nat.le_of_succ_le_succ hle)))
    refine .turns (d := d) (e := e) hbegins ?_ harrivals ?_ ?_
    · rw [turns_task h hnext]
      refine decide_eq_true ⟨hstate, hcmd, ?_⟩
      rw [hrest]
      exact List.cons_ne_nil e rest
    · rw [hrequests, hrest, hone]
    · rw [hback, hrest, hone]
      rfl

theorem flow_sending (h : Calm s) (hnext : next s = some (d, s')) (ht : Taken s d s')
    (hstate : s.taskState = .sending) : Flow (.task env) s (sending env d s') := by
  have hstate' : s'.taskState = .sending := ht.taskState.trans hstate
  cases hcmd : d.cmd with
  | txMsg =>
    rw [CecTask.sending, hcmd]
    exact flow_putBack h hnext ht hstate hcmd
  | txFailed =>
    have hend : isEnd d = true := by
      rw [isEnd, hcmd]
      rfl
    refine flow_quiet h hnext ht (by rw [hcmd]; decide) (by rw [hcmd]; decide) ?_
    rw [CecTask.sending, hcmd]
    dsimp only
    split
    · obtain ⟨hinv, -⟩ := h.inv.taken ht
      cases hline : env.line with
      | true =>
        rw [retransmit_started hline (hinv.short hstate')]
        rfl
      | false =>
        -- nothing is in the air, so the data holds the result and not the request
        have hbusy := (not_busy ((h.results_sending hstate ht).2 hend)).1
        have hresult := (hinv.started hstate').resolve_left (by rw [hbusy]; exact Bool.false_ne_true)
        have hne : s'.txData.cmd ≠ .txMsg := by
          rcases hresult with hc | hc <;> rw [hc] <;> decide
        rw [retransmit_refused hline]
        exact filter_writeFifo hne
    · rfl
  | rxMsg =>
    refine flow_other h hnext ht (by rw [hcmd]; decide) ?_
    rw [CecTask.sending, hcmd, if_pos rfl]
    exact requests_srvRxMsg
  | txDone =>
    refine flow_quiet h hnext ht (by rw [hcmd]; decide) (by rw [hcmd]; decide) ?_
    rw [CecTask.sending, hcmd]
    rfl
  | rxFailed | exit =>
    refine flow_quiet h hnext ht (by rw [hcmd]; decide) (by rw [hcmd]; decide) ?_
    rw [CecTask.sending, hcmd]

theorem flow_task (h : Calm s) : Flow (.task env) s (task env s) := by
  rcases next_cases s with ⟨hnone, -⟩ | ⟨d, s', hnext, ht⟩
  · have hcommand : command s = none := (command_eq h).trans hnone
    have hsame : task env s = s := by
      rw [CecTask.task, h.awake.2, hnone]
      rfl
    rw [hsame]
    refine .adds ?_ ?_ ?_
    · rw [begins, hcommand]
    · rw [turns, hcommand]
    · rw [arrivals, hcommand, List.append_nil]
  · rw [task_eq h hnext ht]
    by_cases hstate : s.taskState = .listening
    · rw [if_pos hstate]
      exact flow_listening h hnext ht hstate
    · have hsending : s.taskState = .sending := by
        cases hs : s.taskState with
        | idle => exact absurd hs h.awake.1
        | listening => exact absurd hs hstate
        | sending => rfl
      rw [if_neg hstate]
      exact flow_sending h hnext ht hsending

theorem flow_step (h : Calm s) (a : Act) : Flow a s (step a s) := by
  cases a with
  | isr reg bytes =>
    have happ : (isr reg bytes s).app = s.app := (isr_interrupted reg bytes s).app
    refine .adds rfl rfl ?_
    change requests (isr reg bytes s) = requests s ++ []
    rw [requests, happ, List.append_nil]
    rfl
  | task env => exact flow_task h
  | srvTxMsg sys now m =>
    have hone : (writeFifo (request sys now m) s.appFifo).contents =
        s.app ++ [request sys now m].take (2 - s.app.length) :=
      foldl_writeFifo s.appFifo [request sys now m]
    have hall : ∀ d ∈ [request sys now m].take (2 - s.app.length), d.cmd = .txMsg := by
      intro d hd
      rw [List.mem_singleton.mp (List.mem_of_mem_take hd)]
      rfl
    refine .adds rfl rfl ?_
    change (writeFifo (request sys now m) s.appFifo).contents.filter _ = _
    rw [hone, List.filter_append, filter_requests hall]
    rfl

end Flow

structure Ordered (t : Trace) : Prop where
  calm : Calm t.state
  order : t.turned % 2 = 0 ∧ t.queued = t.begun ++ requests t.state ∨
    t.turned % 2 = 1 ∧ ∃ d e, requests t.state = [d, e] ∧ t.queued = t.begun ++ [e, d]
  pair : t.turned ≠ 0 → (requests t.state).length = 2

theorem Ordered.inOrder {t : Trace} (h : Ordered t) : InOrder t := by
  rcases h.order with ⟨-, hq⟩ | ⟨-, d, e, -, hq⟩
  · rw [InOrder, hq]
    exact List.prefix_append _ _
  · rw [InOrder, hq]
    exact List.prefix_append _ _

section Steps

variable {t : Trace} {a : Act}

theorem Ordered.adds (h : Ordered t) (hcalm : Calm (step a t.state)) (hb : begins a t.state = [])
    (ht : CecOrder.turns a t.state = false)
    (hreq : requests (step a t.state) = requests t.state ++ arrivals a t.state) :
    Ordered (t.step a) := by
  have hbegun : (t.step a).begun = t.begun := by
    rw [Trace.step, hb]
    exact List.append_nil _
  have hturned : (t.step a).turned = t.turned := by
    rw [Trace.step, hb, ht]
    rfl
  have hnone (hpair : (requests t.state).length = 2) : arrivals a t.state = [] := by
    have hle := length_requests_le (step a t.state)
    rw [hreq, List.length_append, hpair] at hle
    exact List.length_eq_zero_iff.mp (by omega)
  have hqueued : (t.step a).queued = t.queued ++ arrivals a t.state := rfl
  have hstate : requests (t.step a).state = requests t.state ++ arrivals a t.state := hreq
  refine ⟨hcalm, ?_, fun hne => ?_⟩
  · rw [hbegun, hturned, hqueued, hstate]
    rcases h.order with ⟨heven, hq⟩ | ⟨hodd, d, e, hr, hq⟩
    · exact .inl ⟨heven, by rw [hq, List.append_assoc]⟩
    · have hnil := hnone (by rw [hr]; rfl)
      rw [hnil, List.append_nil, List.append_nil]
      exact .inr ⟨hodd, d, e, hr, hq⟩
  · rw [hturned] at hne
    rw [hstate, hnone (h.pair hne), List.append_nil]
    exact h.pair hne

theorem Ordered.turns (h : Ordered t) (hcalm : Calm (step a t.state)) (hb : begins a t.state = [])
    (ht : CecOrder.turns a t.state = true) (harr : arrivals a t.state = []) {d e : TaskData}
    (hreq : requests t.state = [d, e]) (hreq' : requests (step a t.state) = [e, d]) :
    Ordered (t.step a) := by
  have hbegun : (t.step a).begun = t.begun := by
    rw [Trace.step, hb]
    exact List.append_nil _
  have hqueued : (t.step a).queued = t.queued := by
    rw [Trace.step, harr]
    exact List.append_nil _
  have hturned : (t.step a).turned = t.turned + 1 := by
    rw [Trace.step, hb, ht]
    rfl
  have hstate : requests (t.step a).state = [e, d] := hreq'
  refine ⟨hcalm, ?_, fun _ => by rw [hstate]; rfl⟩
  rw [hbegun, hqueued, hturned, hstate]
  rcases h.order with ⟨heven, hq⟩ | ⟨hodd, x, y, hr, hq⟩
  · exact .inr ⟨by omega, e, d, rfl, by rw [hq, hreq]⟩
  · rw [hreq] at hr
    obtain ⟨rfl, hr'⟩ := List.cons.inj hr
    obtain ⟨rfl, -⟩ := List.cons.inj hr'
    exact .inl ⟨by omega, hq⟩

theorem Ordered.takesUp (h : Ordered t) (hcalm : Calm (step a t.state)) {d : TaskData}
    (hb : begins a t.state = [d]) (harr : arrivals a t.state = [])
    (hreq : requests t.state = d :: requests (step a t.state)) :
    (InOrder (t.step a) ↔ ¬ Overtakes t a) ∧ (InOrder (t.step a) → Ordered (t.step a)) := by
  have hbegun : (t.step a).begun = t.begun ++ [d] := by
    rw [Trace.step, hb]
  have hqueued : (t.step a).queued = t.queued := by
    rw [Trace.step, harr]
    exact List.append_nil _
  have hturned : (t.step a).turned = 0 := by
    rw [Trace.step, hb]
    rfl
  have hstate : requests (t.step a).state = requests (step a t.state) := rfl
  have hordered (hq : t.queued = t.begun ++ [d] ++ requests (step a t.state)) :
      Ordered (t.step a) := by
    refine ⟨hcalm, .inl ⟨by rw [hturned], ?_⟩, fun hne => absurd hturned hne⟩
    rw [hbegun, hqueued, hstate]
    exact hq
  rcases h.order with ⟨heven, hq⟩ | ⟨hodd, x, e, hr, hq⟩
  · have hnext := hordered (by rw [hq, hreq, List.append_assoc]; rfl)
    refine ⟨⟨fun _ hover => ?_, fun _ => hnext.inOrder⟩, fun _ => hnext⟩
    have hodd := hover.1
    omega
  · rw [hreq] at hr
    obtain ⟨rfl, hrest⟩ := List.cons.inj hr
    have hiff : InOrder (t.step a) ↔ d = e := by
      rw [InOrder, hbegun, hqueued, hq, List.prefix_append_right_inj, List.cons_prefix_cons]
      exact and_iff_left (List.nil_prefix)
    refine ⟨hiff.trans ⟨?_, fun hnot => ?_⟩, fun hin => hordered ?_⟩
    · rintro rfl ⟨-, x, y, hx, hxy, hne⟩
      obtain ⟨rfl, -⟩ := List.cons.inj (hb.symm.trans hx)
      rw [hreq, hrest] at hxy
      obtain ⟨rfl, -⟩ := List.cons.inj (List.cons.inj hxy).2
      exact hne rfl
    · by_contra hne
      exact hnot ⟨hodd, d, e, hb, by rw [hreq, hrest], hne⟩
    · rw [hq, hrest, hiff.mp hin, List.append_assoc]
      rfl

theorem Ordered.step (h : Ordered t) (hg : Genuine t.state a) :
    (InOrder (t.step a) ↔ ¬ Overtakes t a) ∧ (InOrder (t.step a) → Ordered (t.step a)) := by
  have hcalm := h.calm.step hg
  have hkeeps (hb : begins a t.state = []) (hnext : Ordered (t.step a)) :
      (InOrder (t.step a) ↔ ¬ Overtakes t a) ∧ (InOrder (t.step a) → Ordered (t.step a)) := by
    refine ⟨⟨fun _ => ?_, fun _ => hnext.inOrder⟩, fun _ => hnext⟩
    rintro ⟨-, d, e, hd, -⟩
    rw [hb] at hd
    cases hd
  cases flow_step h.calm a with
  | adds hb ht hreq => exact hkeeps hb (h.adds hcalm hb ht hreq)
  | takesUp hb harr hreq => exact h.takesUp hcalm hb harr hreq
  | turns hb ht harr hreq hreq' => exact hkeeps hb (h.turns hcalm hb ht harr hreq hreq')

theorem ordered_start {logicAddr : UInt8} (h : logicAddr ≠ 0x0f) (s : State) :
    Ordered (Trace.start logicAddr s) := by
  have heq := enable_true h s
  have hinv := (inv_enable h s).1
  rw [heq] at hinv
  have hisr := contents_clearFifo s.isrFifo
  have happ := contents_clearFifo s.appFifo
  unfold Trace.start
  rw [heq]
  refine ⟨⟨hinv, ⟨(by decide : TaskState.listening ≠ .idle), rfl⟩, ?_⟩, .inl ⟨rfl, ?_⟩,
    fun hne => absurd rfl hne⟩
  · change 0 + ((clearFifo s.isrFifo).contents.countP isEnd +
      (clearFifo s.appFifo).contents.countP isEnd) ≤ 0
    rw [hisr, happ]
    exact le_rfl
  · change [] = [] ++ (clearFifo s.appFifo).contents.filter _
    rw [happ]
    rfl

end Steps

/-- The messages go out in order exactly if none is taken up out of its place. -/
theorem in_order_iff {logicAddr : UInt8} (h : logicAddr ≠ 0x0f) (s : State) (acts : List Act)
    (hg : Meets Trace.step (fun t a => Genuine t.state a) (Trace.start logicAddr s) acts) :
    (∀ n, InOrder (run Trace.step (Trace.start logicAddr s) (acts.take n))) ↔
      Meets Trace.step (fun t a => ¬ Overtakes t a) (Trace.start logicAddr s) acts := by
  have hstart := ordered_start h s
  have hcongr : Meets Trace.step (fun t a => Genuine t.state a ∧ InOrder (Trace.step a t))
        (Trace.start logicAddr s) acts ↔
      Meets Trace.step (fun t a => Genuine t.state a ∧ ¬ Overtakes t a)
        (Trace.start logicAddr s) acts := by
    refine meets_congr (I := Ordered) (fun t a ht ha => (ht.step ha.1).2 ha.2) (fun t a ht => ?_) hstart
    exact and_congr_right fun hga => (ht.step hga).1
  rw [always_iff]
  constructor
  · intro hin
    exact (hcongr.mp (hg.and hin.2)).mono fun _ _ ha => ha.2
  · intro hnot
    exact ⟨hstart.inOrder, (hcongr.mpr (hg.and hnot)).mono fun _ _ ha => ha.2⟩

theorem waiting_message_in_order :
    let sys : System := ⟨.active, 1, 4, 0x1000, 4, []⟩
    let env : Env := ⟨.box, sys, 0, true⟩
    let acts : List Act := [.srvTxMsg sys 0 ⟨0, 0x90, [0]⟩, .task env, .srvTxMsg sys 1 ⟨0, 0x9e, [4]⟩,
      .task env, .isr 0x0010 [], .task env, .task env]
    (run Trace.step (Trace.start 4 reset) acts).begun.length = 2 ∧
      ∀ n, InOrder (run Trace.step (Trace.start 4 reset) (acts.take n)) := by
  refine ⟨by decide, (in_order_iff (by decide) reset _ ?_).mpr ?_⟩
  · refine ⟨trivial, trivial, trivial, trivial, fun _ => ⟨by decide, ?_⟩, trivial, trivial, trivial⟩
    decide
  · refine ⟨?_, ?_, ?_, ?_, ?_, ?_, ?_, trivial⟩ <;> exact fun h => absurd h.1 (by decide)

theorem third_before_second :
    let sys : System := ⟨.active, 1, 4, 0x1000, 4, []⟩
    let env : Env := ⟨.box, sys, 0, true⟩
    let acts : List Act := [.srvTxMsg sys 0 ⟨0, 0x90, [0]⟩, .task env, .srvTxMsg sys 1 ⟨0, 0x9e, [4]⟩,
      .srvTxMsg sys 2 ⟨0, 0x00, [0x91, 1]⟩, .task env, .isr 0x0010 [], .task env, .task env]
    let t := run Trace.step (Trace.start 4 reset) acts
    Meets Trace.step (fun t a => Genuine t.state a) (Trace.start 4 reset) acts ∧
      t.queued.map TaskData.txtime = [0, 1, 2] ∧ t.begun.map TaskData.txtime = [0, 2] ∧
      ¬ InOrder t := by
  refine ⟨⟨trivial, trivial, trivial, trivial, trivial, fun _ => ⟨by decide, by decide⟩, trivial,
    trivial, trivial⟩, by decide, by decide, fun h => ?_⟩
  exact absurd (List.IsPrefix.map TaskData.txtime h) (by decide)

end SynaBoot.CecOrder
