import SynaBoot.PowerCoherence

namespace SynaBoot.PowerTimer

open SynaBoot.PowerFlow SynaBoot.PowerPhases SynaBoot.PowerCoherence
open SynaBoot.Schedules (after after_invariant after_leads Often often_cycle cycle cycle_mem preceded)

def warmupTime : Int := 12

structure Timer where
  start : Nat
  interval : Nat
  deriving DecidableEq, Repr

def Timer.due (a : Timer) (now : Nat) : Prop := a.start + a.interval ≤ now

instance (a : Timer) (now : Nat) : Decidable (a.due now) := inferInstanceAs (Decidable (_ ≤ _))

structure Timed where
  sm : Sm
  wmupTimer : Option Timer := none

structure Input where
  event : Event
  queued : Bool := true

/-- `sm_setup_power_up_timer`; a timer that runs is not set again. -/
def setupPowerUpTimer (queued : Bool) (msg : Int) (t : Timed) : Option Timer :=
  if msg = 0 then
    if queued then none else t.wmupTimer
  else
    match t.wmupTimer with
    | some a => some a
    | none =>
      -- the period is an `int` that becomes an unsigned number of ticks
      if queued then some ⟨t.sm.now, (msg * 1000 % 2 ^ 32).toNat⟩ else none

/-- The timer fires once; its request is not made again. -/
def timedStep (i : Input) (t : Timed) : Timed :=
  match i.event with
  | .msg type content suspendType =>
    { sm := step (.msg type content suspendType) t.sm
      wmupTimer :=
        if t.sm.sysState = .active ∧ type = warmupTime then setupPowerUpTimer i.queued content t
        else t.wmupTimer }
  | .wakeupTimer =>
    match t.wmupTimer with
    | some a => if a.due t.sm.now then { sm := step .wakeupTimer t.sm, wmupTimer := none } else t
    | none => t
  | e => { t with sm := step e t.sm }

abbrev timedRun (t : Timed) (is : List Input) : Timed := Schedules.run timedStep t is

def start (bootFlag : SocState) (now : Nat) : Timed := { sm := init bootFlag now }

def Expires (t : Timed) : Prop := ∃ a ∈ t.wmupTimer, a.due t.sm.now

def stateGoesDown : SysState → Bool
  | .active2Lowpowerstandby | .active2Normalstandby | .active2Suspend => true
  | _ => false

def isWakeupEvent : Event → Bool
  | .wakeup _ _ | .wakeupOnLan | .wakeupTimer | .cecLaunchApp | .wifibt _ | .geth | .fpbutton => true
  | _ => false

def IsResponse (type : Int) : Prop := type = active2SuspendResp ∨ isWarmupResp type = true

/-- The SoC responds, time passes and the task runs, again and again. -/
structure Fair (acts : ℕ → Input) : Prop where
  no_wakeup : ∀ n, isWakeupEvent (acts n).event = false
  responses : ∀ type, IsResponse type →
    Often (fun i => ∃ content suspendType, i.event = .msg type content suspendType) acts
  ticks : Often (fun i => i.event = .tick true) acts
  time : Often (fun i => ∃ ms, 0 < ms ∧ i.event = .elapse ms) acts

def WarmsUp (t : Timed) : Prop :=
  ∀ queued acts, Fair acts →
    ∃ n, (after timedStep acts (timedStep ⟨.wakeupTimer, queued⟩ t) n).sm.sysState = .standby2Active

section Steps

variable {t : Timed}

theorem timedStep_sm (i : Input) (t : Timed) :
    (timedStep i t).sm = step i.event t.sm ∨ (timedStep i t).sm = t.sm := by
  unfold timedStep
  split
  case h_1 type content suspendType he => exact .inl (by rw [he])
  case h_2 he =>
    split
    · split
      · exact .inl (by rw [he])
      · exact .inr rfl
    · exact .inr rfl
  case h_3 => exact .inl rfl

theorem timedStep_of_not_timer {i : Input} (hi : i.event ≠ .wakeupTimer) (t : Timed) :
    (timedStep i t).sm = step i.event t.sm := by
  unfold timedStep
  split
  case h_1 type content suspendType he => rw [he]
  case h_2 he => exact absurd he hi
  case h_3 => rfl

theorem timedStep_fires (h : Expires t) (queued : Bool) :
    (timedStep ⟨.wakeupTimer, queued⟩ t).sm = step .wakeupTimer t.sm := by
  obtain ⟨a, ha, hdue⟩ := h
  rw [Option.mem_def] at ha
  simp only [timedStep, ha, if_pos hdue]

theorem timedStep_inPhase (h : InPhase (core t.sm)) (i : Input) :
    InPhase (core (timedStep i t).sm) := by
  obtain hs | hs := timedStep_sm i t
  · rw [hs]
    exact h.move (step_move i.event h)
  · rw [hs]
    exact h

theorem timedRun_inPhase (h : InPhase (core t.sm)) (is : List Input) :
    InPhase (core (timedRun t is).sm) :=
  Schedules.run_invariant (I := fun t => InPhase (core t.sm))
    (fun _ i ht _ => timedStep_inPhase ht i) h (.of_forall (fun _ _ => trivial) t is)

end Steps

section Kept

structure Ready (c : Core) : Prop where
  phase : InPhase c
  standby : ∃ x, c.sys = .standby x ∧ c.way = .up x

theorem Ready.status {c : Core} (h : Ready c) : c.status = .enterflow := by
  obtain ⟨hp, x, hy, hw⟩ := h
  unfold InPhase at hp
  rw [hy, hw] at hp
  generalize c.status = st at hp
  cases hp with
  | upEnter => rfl

theorem Ready.move {e : Event} {c d : Core} (h : Ready c) (hm : Move e c d) :
    Ready d ∨ d.sys = .rising := by
  have hst := h.status
  have hd : InPhase d := h.phase.move hm
  obtain ⟨hp, x, hy, hw⟩ := h
  cases hm with
  | stay qs hq => exact .inl ⟨hd, x, hy, hw⟩
  | beginUp qs hq => exact .inr rfl
  | enter | beginDown | beginReset | takeDown | cut => cases hw
  | advance qs hq hr hn =>
    dsimp only at hst
    subst hst
    cases hn
  | takeUp | skip | leave => cases hst
  | respond qs hq he hl =>
    dsimp only at hy
    subst hy
    cases hl

theorem Ready.tick {s : Sm} (h : Ready (core s)) (g : Bool) :
    (step (.tick g) s).sysState = .standby2Active := by
  have hst : s.status = .enterflow := h.status
  obtain ⟨hp, x, hy, hw⟩ := h
  have hflow : s.flow = flowOf (.up x) := flow_of_way hw Way.noConfusion
  cases x with
  | lowpower | normal | suspend =>
    simp only [step, powerTask, inFlow, hflow, flowOf, flowWarmup, hst, beginWarmup,
      broadcastPowerState, emit, ne_eq, not_true_eq_false, if_false]

theorem ready_of_bysmstate {s : Sm} (hp : InPhase (core s))
    (hy : stateToWaitWakeup s.sysState = true) (hf : s.flow ≠ .sysreset2Active) :
    Ready (core (enterflowBysmstate s).2) := by
  obtain ⟨x, hx, hup⟩ := waits_standby hy
  have hphase : Phase (system s.sysState) (way s.flow) s.status := hp
  rw [hx] at hphase
  generalize hw : way s.flow = w at hphase
  generalize hs : s.status = st at hphase
  have hreset : w ≠ .reset := by
    rintro rfl
    exact hf (flow_of_way hw Way.noConfusion)
  cases hphase with
  | idle =>
    rw [enterflowBysmstate, core_enterflow_idle hw hs, hx, hup]
    exact ⟨.upEnter, x, rfl, rfl⟩
  | upEnter =>
    have hbusy : way s.flow ≠ .idle := by
      rw [hw]
      exact Way.noConfusion
    rw [enterflowBysmstate, enterflow_busy hbusy]
    exact ⟨hp, x, hx, hw⟩
  | resetEnter | resetRun | resetWait | resetLeave => exact absurd rfl hreset

theorem ready_of_timer {s : Sm} (hp : InPhase (core s)) (hy : stateToWaitWakeup s.sysState = true)
    (hf : s.flow ≠ .sysreset2Active) : Ready (core (step .wakeupTimer s)) := by
  have ha : s.sysState ≠ .active := by
    intro ha
    rw [ha] at hy
    cases hy
  simp only [step, wakeupTimer, if_neg ha]
  exact ready_of_bysmstate (s := { s with wakeupSource := .timer }) hp hy hf

theorem warmsUp_of_standby {t : Timed} (hp : InPhase (core t.sm)) (ht : Expires t)
    (hy : stateToWaitWakeup t.sm.sysState = true) (hf : t.sm.flow ≠ .sysreset2Active) : WarmsUp t := by
  intro queued acts hfair
  have hready : Ready (core (timedStep ⟨.wakeupTimer, queued⟩ t).sm) := by
    rw [timedStep_fires ht]
    exact ready_of_timer hp hy hf
  obtain ⟨n, -, htick⟩ := hfair.ticks 0
  refine after_leads (P := fun t : Timed => Ready (core t.sm))
    (Q := fun t : Timed => t.sm.sysState = .standby2Active) ?_ (n := n) ?_ hready
  · intro m t h
    obtain hs | hs := timedStep_sm (acts m) t
    · rw [hs]
      exact (h.move (step_move (acts m).event h.phase)).imp_right fun hr => system_injective hr
    · rw [hs]
      exact .inl h
  · intro t h
    rw [timedStep_of_not_timer (by rw [htick]; exact Event.noConfusion), htick]
    exact h.tick true

end Kept

section Lost

structure Sleeps (c : Core) : Prop where
  phase : InPhase c
  sys : (∃ x, c.sys = .leaving x ∧ c.way = .down x) ∨
    (∃ x, c.sys = .standby x) ∧ (c.way = .idle ∨ c.way = .reset)

theorem Sleeps.not_rising {s : Sm} (h : Sleeps (core s)) : s.sysState ≠ .standby2Active := by
  intro hy
  have hr : (core s).sys = .rising := congrArg system hy
  obtain ⟨-, ⟨x, hx, -⟩ | ⟨⟨x, hx⟩, -⟩⟩ := h
  · cases hx.symm.trans hr
  · cases hx.symm.trans hr

theorem Sleeps.move {e : Event} {c d : Core} (h : Sleeps c) (hw : c.way ≠ .idle) (hm : Move e c d) :
    Sleeps d := by
  have hd : InPhase d := h.phase.move hm
  obtain ⟨hp, hsys⟩ := h
  cases hm with
  | stay | beginReset | takeDown | cut | respond | advance | takeUp => exact ⟨hd, hsys⟩
  | enter => exact absurd rfl hw
  | beginDown =>
    obtain ⟨x, hx, -⟩ | ⟨⟨x, hx⟩, -⟩ := hsys
    · cases hx
    · cases hx
  | beginUp | skip =>
    obtain ⟨x, -, hx⟩ | ⟨-, hx | hx⟩ := hsys
    · cases hx
    · cases hx
    · cases hx
  | leave qs hq hl =>
    refine ⟨hd, .inr ⟨?_, .inl rfl⟩⟩
    cases hl with
    | down x => exact ⟨x, rfl⟩
    | up x =>
      obtain ⟨x, hx, -⟩ | ⟨⟨x, hx⟩, -⟩ := hsys
      · cases hx
      · cases hx
    | reset sys =>
      obtain ⟨x, -, hx⟩ | ⟨hx, -⟩ := hsys
      · cases hx
      · exact hx

theorem Sleeps.watchdog {s : Sm} (h : Sleeps (core s)) :
    Sleeps (core (step .watchdog s)) ∧ way (step .watchdog s).flow ≠ .idle := by
  have hnext : InPhase (core (step .watchdog s)) := h.phase.move (step_move .watchdog h.phase)
  have hstep : step .watchdog s = (enterflow .sysreset2Active s).2 := rfl
  rw [hstep] at hnext ⊢
  by_cases hw : way s.flow = .idle
  · obtain ⟨y, st, -, hs, hp⟩ := h.phase.at_way hw
    have hcore := core_enterflow_idle (f := .sysreset2Active) hw (hs.trans hp.of_idle)
    have hway : way (enterflow .sysreset2Active s).2.flow = .reset := congrArg Core.way hcore
    have hsys : ∃ x, system s.sysState = .standby x := by
      obtain ⟨x, -, hx⟩ | ⟨hx, -⟩ := h.sys
      · cases hx.symm.trans hw
      · exact hx
    refine ⟨⟨hnext, .inr ⟨?_, .inr hway⟩⟩, ?_⟩
    · rw [hcore]
      exact hsys
    · rw [hway]
      exact Way.noConfusion
  · rw [enterflow_busy hw]
    exact ⟨h, hw⟩

theorem sleeps_of_busy {s : Sm} (h : Sleeps (core s)) (hw : way s.flow ≠ .idle) :
    Sleeps (core (step .wakeupTimer s)) := h.move hw (step_move .wakeupTimer h.phase)

def inputs : List Input :=
  [⟨.msg active2SuspendResp 0 0, true⟩, ⟨.msg lowpowerstandby2ActiveResp 0 0, true⟩,
    ⟨.msg normalstandby2ActiveResp 0 0, true⟩, ⟨.msg suspend2ActiveResp 0 0, true⟩,
    ⟨.msg cold2ActiveResp 0 0, true⟩, ⟨.elapse 1000, true⟩]

def rounds : ℕ → Input := cycle ⟨.tick true, true⟩ inputs

theorem no_wakeup_rounds (n : ℕ) : isWakeupEvent (rounds n).event = false := by
  have hall : ∀ i ∈ (⟨.tick true, true⟩ :: inputs : List Input), isWakeupEvent i.event = false := by
    simp [inputs, isWakeupEvent]
  exact hall _ (cycle_mem _ _ n)

theorem often_response {type : Int} (h : IsResponse type) :
    Often (fun i => ∃ content suspendType, i.event = .msg type content suspendType) rounds := by
  have hmem : (⟨.msg type 0 0, true⟩ : Input) ∈ (⟨.tick true, true⟩ :: inputs : List Input) := by
    unfold IsResponse isWarmupResp at h
    simp only [Bool.or_eq_true, decide_eq_true_eq] at h
    obtain rfl | ((rfl | rfl) | rfl) | rfl := h
    all_goals simp [inputs]
  exact often_cycle hmem ⟨0, 0, rfl⟩

theorem fair_rounds : Fair rounds where
  no_wakeup := no_wakeup_rounds
  responses := fun _ h => often_response h
  ticks := often_cycle (List.mem_cons_self) rfl
  time := often_cycle (b := ⟨.elapse 1000, true⟩) (by simp [inputs]) ⟨1000, by decide, rfl⟩

theorem fair_watchdog : Fair (preceded ⟨.watchdog, true⟩ rounds) where
  no_wakeup := by
    intro n
    unfold preceded
    split
    · rfl
    · exact no_wakeup_rounds (n / 2)
  responses := fun _ h => (often_response h).preceded _
  ticks := fair_rounds.ticks.preceded _
  time := fair_rounds.time.preceded _

theorem not_warmsUp_of_busy {t : Timed} (h : Sleeps (core t.sm)) (ht : Expires t)
    (hw : way t.sm.flow ≠ .idle) : ¬WarmsUp t := by
  intro hwarm
  obtain ⟨n, hn⟩ := hwarm true _ fair_watchdog
  have hstart : Sleeps (core (timedStep ⟨.wakeupTimer, true⟩ t).sm) := by
    rw [timedStep_fires ht]
    exact sleeps_of_busy h hw
  -- a reset has just begun before every input but the resets
  have hinv := @after_invariant _ _ timedStep (preceded ⟨.watchdog, true⟩ rounds)
    (fun n t => Sleeps (core t.sm) ∧ (n % 2 ≠ 0 → way t.sm.flow ≠ .idle)) _ (fun m t hm => ?_)
    ⟨hstart, fun h0 => absurd rfl h0⟩ n
  · exact hinv.1.not_rising hn
  · have hact := fair_watchdog.no_wakeup m
    have htimer : (preceded ⟨.watchdog, true⟩ rounds m).event ≠ .wakeupTimer := by
      intro he
      rw [he] at hact
      cases hact
    rw [timedStep_of_not_timer htimer]
    by_cases hm2 : m % 2 = 0
    · have hwd : preceded ⟨.watchdog, true⟩ rounds m = ⟨.watchdog, true⟩ := if_pos hm2
      rw [hwd]
      exact ⟨hm.1.watchdog.1, fun _ => hm.1.watchdog.2⟩
    · refine ⟨hm.1.move (hm.2 hm2) (step_move _ hm.1.phase), fun hodd => ?_⟩
      exact absurd (by omega) hodd

end Lost

/-- A timer that fires brings a warm-up exactly if no warm-down and no reset is running. -/
theorem timer_warms_up_iff (flag : SocState) (now : Nat) (is : List Input)
    (hexp : Expires (timedRun (start flag now) is))
    (hstate : stateToWaitWakeup (timedRun (start flag now) is).sm.sysState = true ∨
      stateGoesDown (timedRun (start flag now) is).sm.sysState = true) :
    WarmsUp (timedRun (start flag now) is) ↔
      stateToWaitWakeup (timedRun (start flag now) is).sm.sysState = true ∧
        (timedRun (start flag now) is).sm.flow ≠ .sysreset2Active := by
  have hp : InPhase (core (timedRun (start flag now) is).sm) :=
    timedRun_inPhase (init_inPhase flag now) is
  generalize timedRun (start flag now) is = t at hexp hstate hp ⊢
  constructor
  · intro hwarm
    by_contra hno
    have hbusy : Sleeps (core t.sm) ∧ way t.sm.flow ≠ .idle := by
      obtain hy | hy := hstate
      · have hflow : t.sm.flow = .sysreset2Active := by
          by_contra hf
          exact hno ⟨hy, hf⟩
        obtain ⟨x, hx, -⟩ := waits_standby hy
        have hway : way t.sm.flow = .reset := congrArg way hflow
        exact ⟨⟨hp, .inr ⟨⟨x, hx⟩, .inr hway⟩⟩, by rw [hway]; exact Way.noConfusion⟩
      · have hx : ∃ x, system t.sm.sysState = .leaving x := by
          cases hs : t.sm.sysState <;> rw [hs] at hy
          case active2Lowpowerstandby => exact ⟨.lowpower, rfl⟩
          case active2Normalstandby => exact ⟨.normal, rfl⟩
          case active2Suspend => exact ⟨.suspend, rfl⟩
          all_goals cases hy
        obtain ⟨x, hx⟩ := hx
        have hphase : Phase (system t.sm.sysState) (way t.sm.flow) t.sm.status := hp
        rw [hx] at hphase
        have hway := hphase.of_leaving
        exact ⟨⟨hp, .inl ⟨x, hx, hway⟩⟩, by rw [hway]; exact Way.noConfusion⟩
    exact not_warmsUp_of_busy hbusy.1 hexp hbusy.2 hwarm
  · intro h
    exact warmsUp_of_standby hp hexp h.1 h.2

def suspendInputs : List Input :=
  [⟨.msg warmupTime 1 0, true⟩, ⟨.msg suspendRequest 0 suspendTypePwroff, true⟩, ⟨.tick true, true⟩]

def answeredInputs : List Input :=
  suspendInputs ++ [⟨.msg active2SuspendResp 0 0, true⟩, ⟨.tick true, true⟩, ⟨.tick true, true⟩,
    ⟨.tick true, true⟩, ⟨.elapse 1000, true⟩]

theorem timer_warms_up_suspend :
    (timedRun (start .poweron 0) answeredInputs).sm.sysState = .suspend ∧
      WarmsUp (timedRun (start .poweron 0) answeredInputs) :=
  ⟨by decide +kernel, (timer_warms_up_iff .poweron 0 answeredInputs
    ⟨⟨0, 1000⟩, by decide +kernel, by decide +kernel⟩ (.inl (by decide +kernel))).mpr
      ⟨by decide +kernel, by decide +kernel⟩⟩

structure Asleep (s : Sm) : Prop where
  sysState : s.sysState = .suspend
  flow : s.flow = .idle
  isWakeup : s.isWakeup = false
  gethWakeup : s.gethWakeup = false
  fpbuttonWakeup : s.fpbuttonWakeup = false

theorem Asleep.tick {s : Sm} (h : Asleep s) (g : Bool) : step (.tick g) s = s := by
  simp only [step, powerTask, h.flow, flowIdle, h.sysState, stateToWaitWakeup, if_true,
    ethWifibtWakeupHandler, wifibtWakeupHandler, h.isWakeup, gethWakeupHandler, h.gethWakeup,
    fpbuttonWakeupHandler, h.fpbuttonWakeup, Bool.false_eq_true, if_false]

theorem Asleep.msg {s : Sm} (h : Asleep s) {type : Int} (ht : type ≠ irLinuxready)
    (content suspendType : Int) : Asleep (step (.msg type content suspendType) s) := by
  simp only [step, processPowerMsg, emit, h.sysState, if_neg ht]
  exact ⟨rfl, h.flow, h.isWakeup, h.gethWakeup, h.fpbuttonWakeup⟩

theorem Asleep.rounds {t : Timed} (h : Asleep t.sm) (n : ℕ) :
    Asleep (timedStep (rounds n) t).sm := by
  have hmem := cycle_mem ⟨.tick true, true⟩ inputs n
  unfold PowerTimer.rounds
  generalize cycle ⟨.tick true, true⟩ inputs n = i at hmem ⊢
  simp only [inputs, List.mem_cons, List.not_mem_nil, or_false] at hmem
  obtain rfl | rfl | rfl | rfl | rfl | rfl | rfl := hmem
  · have htick : (timedStep ⟨.tick true, true⟩ t).sm = t.sm := h.tick true
    rw [htick]
    exact h
  · exact h.msg (by decide) 0 0
  · exact h.msg (by decide) 0 0
  · exact h.msg (by decide) 0 0
  · exact h.msg (by decide) 0 0
  · exact h.msg (by decide) 0 0
  · exact ⟨h.sysState, h.flow, h.isWakeup, h.gethWakeup, h.fpbuttonWakeup⟩

def lostWarmup : Timed :=
  timedStep ⟨.wakeupTimer, true⟩
    (timedRun (start .poweron 0) (suspendInputs ++ [⟨.elapse 1000, true⟩]))

theorem lostWarmup_asleep (n : ℕ) (hn : 22 ≤ n) : Asleep (after timedStep rounds lostWarmup n).sm := by
  induction n, hn using Nat.le_induction with
  | base => exact ⟨by decide +kernel, by decide +kernel, by decide +kernel, by decide +kernel,
      by decide +kernel⟩
  | succ n hn ih => exact ih.rounds n

theorem suspend_loses_warmup :
    Expires (timedRun (start .poweron 0) (suspendInputs ++ [⟨.elapse 1000, true⟩])) ∧
      (timedRun (start .poweron 0) (suspendInputs ++ [⟨.elapse 1000, true⟩])).sm.sysState =
        .active2Suspend ∧
      Fair rounds ∧ ∀ n, (after timedStep rounds lostWarmup n).sm.sysState ≠ .standby2Active := by
  refine ⟨⟨⟨0, 1000⟩, by decide +kernel, by decide +kernel⟩, by decide +kernel, fair_rounds, ?_⟩
  intro n
  obtain hn | hn := Nat.lt_or_ge n 22
  · have hfirst : ∀ n < 22, (after timedStep rounds lostWarmup n).sm.sysState ≠ .standby2Active := by
      decide +kernel
    exact hfirst n hn
  · rw [(lostWarmup_asleep n hn).sysState]
    exact SysState.noConfusion

end SynaBoot.PowerTimer
