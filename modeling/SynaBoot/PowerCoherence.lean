import SynaBoot.PowerPhases

namespace SynaBoot.PowerCoherence

open SynaBoot.PowerFlow SynaBoot.PowerPhases

section Steps

variable {e : Event} {s t : Sm} {x : Standby} {y : System} {w : Way} {st : Status}

theorem enterflow_move (f : Flow) (qs : List Output) (hq : qs.all quiet)
    (ht : core t = { core s with log := qs ++ s.log })
    (hf : way t.flow = .idle → t.status = .invalid → StartsIn (way f) (system t.sysState)) :
    Move e (core s) (core (enterflow f t).2) := by
  unfold enterflow
  split
  case isTrue =>
    rw [ht]
    exact .stay qs hq
  case isFalse h =>
    rw [not_or, not_not, not_not] at h
    have hw : way t.flow = .idle := by rw [h.1]; rfl
    have hc : core s = ⟨system t.sysState, .idle, .invalid, t.isGetRsp, s.log⟩ := by
      have ht' := core_eq rfl hw h.2
      rw [ht'] at ht
      simp only [Core.mk.injEq] at ht
      obtain ⟨hy, hw', hs, hr, -⟩ := ht
      rw [hy, hw', hs, hr]
      rfl
    have hl : t.log = qs ++ s.log := congrArg Core.log ht
    rw [hc]
    simp only [core, emit, hl]
    exact .enter qs hq (hf hw h.2)

theorem warmdown_move (hw : way s.flow = .down x) (h : InPhase (core s)) :
    Move e (core s) (core (flowWarmdown s)) := by
  have hflow := flow_of_way hw Way.noConfusion
  obtain ⟨y, st, hy, hs, hp⟩ := h.at_way hw
  rw [core_eq hy hw hs]
  cases hp with
  | downEnter =>
    simp only [flowWarmdown, hs, beginWarmdown, broadcastPowerState, emit, hflow]
    cases x with
    | lowpower => exact .beginDown [_] rfl .lowpower
    | normal => exact .beginDown [_] rfl .normal
    | suspend =>
      by_cases hwfi : s.suspendType = suspendTypeWfi
      · simp only [flowOf, hwfi, if_true]
        exact .beginDown [_] rfl .wfi
      · simp only [flowOf, hwfi, if_false]
        exact .beginDown [_] rfl .wait
  | downWait =>
    simp only [flowWarmdown, hs, socAssert2Deassert]
    cases hr : s.isGetRsp with
    | true =>
      simp only [if_true, core, hy, hw]
      exact .takeDown [] rfl
    | false =>
      simp only [Bool.false_eq_true, if_false]
      rw [core_eq hy hw hs, hr]
      exact .stay [] rfl
  | downCut =>
    simp only [flowWarmdown, hs, core, emit, hy, hw]
    exact .cut [] rfl hw
  | downLeave =>
    simp only [flowWarmdown, hs, leaveflow, broadcastPowerState, emit, hflow]
    cases x with
    | lowpower => exact .leave [_, _] rfl (.down .lowpower)
    | normal => exact .leave [_, _] rfl (.down .normal)
    | suspend => exact .leave [_, _] rfl (.down .suspend)

theorem poweron_move {g : Bool} (hw : way s.flow = w) (hr : Rises w) (hs : s.status = .poweron) :
    Move e (core s) (core (socPoweron2Powerok g s)) := by
  simp only [socPoweron2Powerok, hs, waittime]
  rw [core_eq rfl hw hs]
  split
  · simp only [core, emit, broadcastPowerState, hw]
    exact .advance [_, _] rfl hr .poweron
  · rw [core_eq rfl hw hs]
    exact .stay [] rfl

theorem powerok_move {g : Bool} (hw : way s.flow = w) (hr : Rises w) (hs : s.status = .powerok) :
    Move e (core s) (core (socPoweron2Powerok g s)) := by
  simp only [socPoweron2Powerok, hs, waittime]
  rw [core_eq rfl hw hs]
  split
  · cases g with
    | true =>
      simp only [if_true, core, emit, broadcastPowerState, hw]
      exact .advance [_, _] rfl hr .powerok
    | false =>
      simp only [Bool.false_eq_true, if_false, core, hw]
      exact .stay [] rfl
  · rw [core_eq rfl hw hs]
    exact .stay [] rfl

theorem deassert_move (hw : way s.flow = w) (hr : Rises w) (hs : s.status = .deassert) :
    Move e (core s) (core (socAssert2Deassert s).2) := by
  simp only [socAssert2Deassert, hs, waittime]
  rw [core_eq rfl hw hs]
  split
  · simp only [core, emit, broadcastPowerState, hw]
    exact .advance [_, _] rfl hr .deassert
  · rw [core_eq rfl hw hs]
    exact .stay [] rfl

def awaitRsp (s : Sm) : Sm :=
  match socAssert2Deassert s with
  | (true, s) => { s with status := .leaveflow }
  | (false, s) => s

theorem awaitRsp_move (hw : way s.flow = w) (hr : Rises w) (hs : s.status = .waitrsp) :
    Move e (core s) (core (awaitRsp s)) := by
  simp only [awaitRsp, socAssert2Deassert, hs]
  rw [core_eq rfl hw hs]
  cases h : s.isGetRsp with
  | true =>
    simp only [if_true, core, hw]
    exact .takeUp [] rfl hr
  | false =>
    simp only [Bool.false_eq_true, if_false]
    rw [core_eq rfl hw hs, h]
    exact .stay [] rfl

theorem warmup_move {g : Bool} (hw : way s.flow = .up x) (h : InPhase (core s)) :
    Move e (core s) (core (flowWarmup g s)) := by
  have hflow := flow_of_way hw Way.noConfusion
  obtain ⟨y, st, hy, hs, hp⟩ := h.at_way hw
  cases hp with
  | upEnter =>
    rw [core_eq hy hw hs]
    simp only [flowWarmup, hs, beginWarmup, broadcastPowerState, emit, hflow]
    cases x with
    | lowpower | normal | suspend => exact .beginUp [_] rfl
  | upRun hst =>
    cases hst with
    | assert =>
      rw [core_eq hy hw hs]
      simp only [flowWarmup, hs, core, hy, hw]
      exact .advance [] rfl (.up x) .assert
    | deassert =>
      have hm := deassert_move (e := e) hw (.up x) hs
      simp only [socAssert2Deassert, hs] at hm
      simpa only [flowWarmup, socAssert2Deassert, hs] using hm
    | poweron =>
      simp only [flowWarmup, hs]
      split
      · rw [core_eq hy hw hs]
        simp only [core, emit, hy, hw]
        exact .skip [_] rfl
      · exact poweron_move hw (.up x) hs
    | powerok =>
      simp only [flowWarmup, hs]
      exact powerok_move hw (.up x) hs
  | upWait =>
    simp only [flowWarmup, hs]
    exact awaitRsp_move hw (.up x) hs
  | upLeave =>
    rw [core_eq hy hw hs]
    simp only [flowWarmup, hs, leaveflow, broadcastPowerState, emit, core]
    exact .leave [_, _] rfl (.up x)

theorem sysreset_move {g : Bool} (hw : way s.flow = .reset) (h : InPhase (core s)) :
    Move e (core s) (core (flowSysreset g s)) := by
  -- every step of a reset broadcasts first
  apply Move.after_quiet (q := [.broadcast s.flow s.status]) rfl
  change Move e (core (broadcastPowerState s)) _
  have h' : InPhase (core (broadcastPowerState s)) := h
  unfold flowSysreset
  generalize hb : broadcastPowerState s = b at h'
  have hwb : way b.flow = .reset := hb ▸ hw
  obtain ⟨y, st, hy, hs, hp⟩ := h'.at_way hwb
  cases hp with
  | resetEnter hset =>
    rw [core_eq rfl hwb hs]
    simp only [hs, core, hwb]
    exact .beginReset [] rfl
  | resetRun hset hst =>
    cases hst with
    | assert =>
      rw [core_eq rfl hwb hs]
      simp only [hs, core, emit, hwb]
      exact .advance [_] rfl .reset .assert
    | deassert =>
      simp only [hs]
      exact deassert_move hwb .reset hs
    | poweron =>
      simp only [hs]
      exact poweron_move hwb .reset hs
    | powerok =>
      simp only [hs]
      exact powerok_move hwb .reset hs
  | resetWait hset =>
    simp only [hs]
    exact awaitRsp_move hwb .reset hs
  | resetLeave hset =>
    rw [core_eq rfl hwb hs]
    simp only [hs, leaveflow, broadcastPowerState, emit, core]
    exact .leave [_, _] rfl (.reset _)

theorem waits_standby {y : SysState} (h : stateToWaitWakeup y = true) :
    ∃ x, system y = .standby x ∧ way (flowOfState y) = .up x := by
  cases y with
  | lowpowerstandby => exact ⟨.lowpower, rfl, rfl⟩
  | normalstandby => exact ⟨.normal, rfl, rfl⟩
  | suspend => exact ⟨.suspend, rfl, rfl⟩
  | active | active2Lowpowerstandby | active2Normalstandby | active2Suspend | standby2Active | cold =>
    cases h

theorem bysmstate_move (qs : List Output) (hq : qs.all quiet)
    (ht : core t = { core s with log := qs ++ s.log })
    (hy : way t.flow = .idle → t.status = .invalid → stateToWaitWakeup t.sysState = true) :
    Move e (core s) (core (enterflowBysmstate t).2) := by
  refine enterflow_move _ qs hq ht fun hw hs => ?_
  obtain ⟨x, hx, hf⟩ := waits_standby (hy hw hs)
  rw [hx, hf]
  exact .up x

theorem idle_standby (h : InPhase (core s)) (hw : way s.flow = .idle) (ha : s.sysState ≠ .active) :
    stateToWaitWakeup s.sysState = true := by
  obtain ⟨y, st, hy, hs, hp⟩ := h.at_way hw
  cases hp with
  | idle hset =>
    cases hf : s.sysState <;> rw [hf] at hy ha <;> subst hy
    all_goals first | rfl | exact absurd rfl ha | cases hset

theorem core_enterflow_idle {f : Flow} (hw : way s.flow = .idle) (hs : s.status = .invalid) :
    core (enterflow f s).2 =
      ⟨system s.sysState, way f, .enterflow, s.isGetRsp, .entered f s.sysState :: s.log⟩ := by
  have hflow := flow_of_way hw Way.noConfusion
  unfold enterflow
  rw [if_neg (by rw [hflow, hs]; simp [flowOf])]
  rfl

theorem enterflow_busy {f : Flow} (hw : way s.flow ≠ .idle) : (enterflow f s).2 = s := by
  unfold enterflow
  rw [if_pos (.inl fun hf => hw (hf ▸ rfl))]

theorem enterflow_sysState (f : Flow) (s : Sm) : (enterflow f s).2.sysState = s.sysState := by
  unfold enterflow
  split <;> rfl

def Woken (s t : Sm) : Prop :=
  t.sysState = s.sysState ∧ (core t = core s ∨
    core t = ⟨system s.sysState, way (flowOfState s.sysState), .enterflow, s.isGetRsp,
      .entered (flowOfState s.sysState) s.sysState :: s.log⟩)

theorem Woken.bysmstate (hy : stateToWaitWakeup s.sysState = true) (hw : way s.flow = .idle)
    (hs : s.status = .invalid) (h : Woken s t) : Woken s (enterflowBysmstate t).2 := by
  obtain ⟨x, hx, hf⟩ := waits_standby hy
  obtain ⟨hsys, hc | hc⟩ := h
  · have hwt : way t.flow = .idle := (congrArg Core.way hc).trans hw
    have hst : t.status = .invalid := (congrArg Core.status hc).trans hs
    have hrsp : t.isGetRsp = s.isGetRsp := congrArg Core.rsp hc
    have hlog : t.log = s.log := congrArg Core.log hc
    refine ⟨?_, .inr ?_⟩
    · rw [enterflowBysmstate, enterflow_sysState, hsys]
    · rw [enterflowBysmstate, core_enterflow_idle hwt hst, hsys, hrsp, hlog]
  · have hwt : way t.flow ≠ .idle := by
      rw [show way t.flow = _ from congrArg Core.way hc, hf]
      exact Way.noConfusion
    rw [enterflowBysmstate, enterflow_busy hwt]
    exact ⟨hsys, .inr hc⟩

theorem Woken.move (hy : stateToWaitWakeup s.sysState = true) (hw : way s.flow = .idle)
    (hs : s.status = .invalid) (h : Woken s t) : Move e (core s) (core t) := by
  obtain ⟨x, hx, hf⟩ := waits_standby hy
  obtain ⟨-, hc | hc⟩ := h
  · rw [hc]
    exact .stay [] rfl
  · rw [hc, core_eq rfl hw hs]
    refine .enter [] rfl ?_
    rw [hx, hf]
    exact .up x

theorem idle_move (hw : way s.flow = .idle) (h : InPhase (core s)) :
    Move e (core s) (core (flowIdle s)) := by
  have hs : s.status = .invalid := by
    obtain ⟨y, st, hy, hs, hp⟩ := h.at_way hw
    cases hp with
    | idle => exact hs
  unfold flowIdle
  split
  case isFalse => exact .stay [] rfl
  case isTrue hy =>
    have hself : Woken s s := ⟨rfl, .inl rfl⟩
    have hwifi : Woken s (wifibtWakeupHandler s) := by
      unfold wifibtWakeupHandler
      split
      · exact hself.bysmstate hy hw hs
      · exact hself
    have heth : Woken s (ethWifibtWakeupHandler s) := by
      unfold ethWifibtWakeupHandler gethWakeupHandler
      split
      · exact Woken.bysmstate hy hw hs
          (t := { wifibtWakeupHandler s with wakeupSource := .wol }) hwifi
      · exact hwifi
    refine Woken.move hy hw hs ?_
    unfold fpbuttonWakeupHandler
    split
    · exact Woken.bysmstate hy hw hs
        (t := { ethWifibtWakeupHandler s with wakeupSource := .button }) heth
    · exact heth

theorem powerTask_move {g : Bool} (h : InPhase (core s)) :
    Move e (core s) (core (powerTask g s)) := by
  have hin (body : Sm → Sm) : inFlow s.flow body s = body s := if_neg (not_not.mpr rfl)
  unfold powerTask
  simp only [hin]
  cases hf : s.flow with
  | active2Lowpowerstandby | active2Normalstandby | active2Suspend =>
    exact warmdown_move (congrArg way hf) h
  | lowpowerstandby2Active | normalstandby2Active | suspend2Active =>
    exact warmup_move (congrArg way hf) h
  | sysreset2Active => exact sysreset_move (hf ▸ rfl) h
  | idle => exact idle_move (hf ▸ rfl) h
  | sysreset2Lowpowerstandby | sysreset2Normalstandby => exact .stay [] rfl
  | cold2Lowpowerstandby =>
    obtain ⟨y, st, -, -, hp⟩ := h.at_way (w := .other) (hf ▸ rfl)
    cases hp

theorem move_ite {c : Core} {a b : Sm} {p : Prop} [Decidable p] (ha : Move e c (core a))
    (hb : Move e c (core b)) : Move e c (core (if p then a else b)) := by
  split
  · exact ha
  · exact hb

theorem processActive_move (type content suspendType : Int) (hy : s.sysState = .active) :
    Move e (core s) (core (processActive type content suspendType (emit (.received type) s))) := by
  have hdown (t : Sm) (x : Standby) (ht : t.sysState = .active) (f : Flow) (hf : way f = .down x) :
      way t.flow = .idle → t.status = .invalid → StartsIn (way f) (system t.sysState) := by
    intro _ _
    rw [ht, hf]
    exact .down x
  unfold processActive
  -- `split` would simplify all the branches left at each type of message
  refine move_ite ?_ ?_
  · refine move_ite ?_ ?_
    · exact .stay [_, _] rfl
    · exact .stay [_] rfl
  refine move_ite ?_ ?_
  · exact .stay [_] rfl
  refine move_ite ?_ ?_
  · exact .stay [_] rfl
  refine move_ite ?_ ?_
  · refine move_ite ?_ ?_
    · exact enterflow_move _ [_] rfl rfl (hdown _ .lowpower hy _ rfl)
    · exact enterflow_move _ [_] rfl rfl (hdown _ .normal hy _ rfl)
  refine move_ite ?_ ?_
  · exact enterflow_move _ [_] rfl rfl (hdown _ .suspend hy _ rfl)
  refine move_ite ?_ ?_
  · refine move_ite ?_ ?_
    · exact .stay [_, _] rfl
    · exact .stay [_, _] rfl
  refine move_ite ?_ ?_
  · exact .stay [_, _] rfl
  refine move_ite ?_ ?_
  · exact .stay [_, _] rfl
  refine move_ite ?_ ?_
  · exact enterflow_move _ [_] rfl rfl fun _ _ => .reset _
  · exact .stay [_] rfl

theorem not_cold (h : InPhase (core s)) : s.sysState ≠ .cold := by
  intro hy
  have hc : Phase .cold (way s.flow) s.status := by
    have hp : Phase (system s.sysState) (way s.flow) s.status := h
    rwa [hy] at hp
  generalize way s.flow = w at hc
  generalize s.status = st at hc
  cases hc with
  | idle hset | resetEnter hset | resetRun hset | resetWait hset | resetLeave hset => cases hset

theorem processPowerMsg_move (type content suspendType : Int) (h : InPhase (core s)) :
    Move (.msg type content suspendType) (core s)
      (core (processPowerMsg type content suspendType s)) := by
  have hsys : (emit (.received type) s).sysState = s.sysState := rfl
  unfold processPowerMsg
  dsimp only
  cases hy : s.sysState with
  | cold => exact absurd hy (not_cold h)
  | active =>
    rw [hsys, hy]
    exact processActive_move type content suspendType hy
  | active2Suspend =>
    rw [hsys, hy]
    dsimp only
    split
    case isTrue ht =>
      subst ht
      have hc := core_eq (s := s) (congrArg system hy) rfl rfl
      rw [hc]
      simp only [core, emit, hy]
      exact .respond [] rfl rfl .down
    case isFalse => exact .stay [_] rfl
  | standby2Active =>
    rw [hsys, hy]
    dsimp only
    split
    case isTrue ht =>
      have hc := core_eq (s := s) (congrArg system hy) rfl rfl
      rw [hc]
      simp only [core, emit, hy]
      exact .respond [] rfl rfl (.up ht)
    case isFalse => exact .stay [_] rfl
  | suspend =>
    rw [hsys, hy]
    dsimp only
    split
    · refine bysmstate_move [.received type] rfl ?_ fun _ _ => rfl
      simp only [core, hy]
      rfl
    · exact .stay [_] rfl
  | lowpowerstandby | normalstandby | active2Lowpowerstandby | active2Normalstandby =>
    rw [hsys, hy]
    exact .stay [_] rfl

theorem step_move (e : Event) (h : InPhase (core s)) : Move e (core s) (core (step e s)) := by
  cases e with
  | msg type content suspendType => exact processPowerMsg_move type content suspendType h
  | tick g => exact powerTask_move h
  | elapse ms => exact .stay [] rfl
  | wakeup source payload =>
    simp only [step, wakeup]
    split
    case isTrue hy => exact bysmstate_move [] rfl rfl fun _ _ => hy
    case isFalse => exact .stay [] rfl
  | wakeupOnLan =>
    simp only [step, wakeupOnLan]
    split
    case isTrue hy =>
      have hm := bysmstate_move (e := .wakeupOnLan) (s := s) (t := s) [] rfl rfl fun _ _ => hy
      rcases hr : enterflowBysmstate s with ⟨b, t⟩
      rw [hr] at hm
      cases b with
      | true => exact hm
      | false => exact hm
    case isFalse => exact .stay [] rfl
  | wakeupTimer =>
    simp only [step, wakeupTimer]
    split
    case isTrue => exact .stay [] rfl
    case isFalse hy => exact bysmstate_move [] rfl rfl fun hw _ => idle_standby h hw hy
  | cecLaunchApp =>
    simp only [step, cecLaunchApp]
    rw [if_neg (not_cold h)]
    exact .stay [] rfl
  | wifibt source => exact .stay [] rfl
  | geth =>
    simp only [step]
    split
    · exact .stay [] rfl
    · exact .stay [] rfl
  | fpbutton =>
    simp only [step]
    split
    · exact .stay [] rfl
    · exact .stay [] rfl
  | watchdog => exact enterflow_move _ [] rfl rfl fun _ _ => .reset _
  | overheat =>
    simp only [step, overheat]
    split
    case isTrue hy =>
      refine enterflow_move _ [] rfl rfl fun _ _ => ?_
      rw [hy]
      exact .down .lowpower
    case isFalse => exact .stay [] rfl

theorem run_core {P : Core → Prop} (hP : ∀ e c d, InPhase c → P c → Move e c d → P d)
    (es : List Event) (h : InPhase (core s)) (hs : P (core s)) : P (core (run s es)) := by
  induction es generalizing s with
  | nil => exact hs
  | cons e es ih =>
    have hm := step_move e h
    exact ih (h.move hm) (hP e _ _ h hs hm)

theorem run_inPhase (es : List Event) (h : InPhase (core s)) : InPhase (core (run s es)) :=
  run_core (fun _ _ _ hc _ hm => hc.move hm) es h h

theorem init_inPhase (flag : SocState) (now : Nat) : InPhase (core (init flag now)) :=
  .idle .active

end Steps

def Started (log : List Output) : Prop :=
  ∀ f y, .entered f y ∈ log → StartsIn (way f) (system y)

theorem Started.move {e : Event} {c d : Core} (hc : Started c.log) (h : Move e c d) :
    Started d.log := by
  have hquiet {qs : List Output} {log : List Output} (hq : qs.all quiet) (hl : Started log) :
      Started (qs ++ log) := by
    intro f y hm
    cases List.mem_append.mp hm with
    | inl hm => exact absurd (List.all_eq_true.mp hq _ hm) Bool.false_ne_true
    | inr hm => exact hl f y hm
  have hcons {o : Output} {log : List Output} (ho : ∀ f y, o ≠ .entered f y) (hl : Started log) :
      Started (o :: log) := by
    intro f y hm
    cases List.mem_cons.mp hm with
    | inl hm => exact absurd hm.symm (ho f y)
    | inr hm => exact hl f y hm
  cases h with
  | stay qs hq | beginDown qs hq | beginUp qs hq | beginReset qs hq | advance qs hq
  | takeDown qs hq | takeUp qs hq | skip qs hq | leave qs hq => exact hquiet hq hc
  | enter qs hq hf =>
    intro f y hm
    cases List.mem_cons.mp hm with
    | inl hm =>
      obtain ⟨rfl, rfl⟩ := Output.entered.inj hm
      exact hf
    | inr hm => exact hquiet hq hc f y hm
  | cut qs hq | respond qs hq => exact hcons (fun _ _ => Output.noConfusion) (hquiet hq hc)

structure Coherent (s : Sm) : Prop where
  idle : s.flow = .idle ↔ s.status = .invalid
  lowpower : s.sysState = .active2Lowpowerstandby → s.flow = .active2Lowpowerstandby
  normal : s.sysState = .active2Normalstandby → s.flow = .active2Normalstandby
  suspend : s.sysState = .active2Suspend → s.flow = .active2Suspend
  rising : s.sysState = .standby2Active →
    s.flow = .lowpowerstandby2Active ∨ s.flow = .normalstandby2Active ∨ s.flow = .suspend2Active
  startedDown : ∀ f y, .entered f y ∈ s.log → f = .active2Lowpowerstandby ∨
    f = .active2Normalstandby ∨ f = .active2Suspend → y = .active
  startedLowpower : ∀ y, .entered .lowpowerstandby2Active y ∈ s.log → y = .lowpowerstandby
  startedNormal : ∀ y, .entered .normalstandby2Active y ∈ s.log → y = .normalstandby
  startedSuspend : ∀ y, .entered .suspend2Active y ∈ s.log → y = .suspend

theorem coherent_of_inPhase {s : Sm} (h : InPhase (core s)) (hl : Started s.log) : Coherent s := by
  have hp : Phase (system s.sysState) (way s.flow) s.status := h
  have hleave (x : Standby) (hy : system s.sysState = .leaving x) : s.flow = flowOf (.down x) :=
    flow_of_way (hy ▸ hp).of_leaving Way.noConfusion
  have hdown (f : Flow) (y : SysState) (x : Standby) (hf : way f = .down x)
      (hm : .entered f y ∈ s.log) : y = .active := by
    have hs := hl f y hm
    rw [hf] at hs
    generalize hy : system y = z at hs
    cases hs with
    | down => exact system_injective hy
  have hup (f : Flow) (y : SysState) (x : Standby) (hf : way f = .up x)
      (hm : .entered f y ∈ s.log) : system y = .standby x := by
    have hs := hl f y hm
    rw [hf] at hs
    generalize hy : system y = z at hs ⊢
    cases hs with
    | up => rfl
  constructor
  · constructor
    · intro hf
      have hi : Phase (system s.sysState) .idle s.status := by rwa [hf] at hp
      exact hi.of_idle
    · intro hs
      rw [hs] at hp
      exact flow_of_way hp.of_invalid Way.noConfusion
  · exact fun hy => hleave .lowpower (congrArg system hy)
  · exact fun hy => hleave .normal (congrArg system hy)
  · exact fun hy => hleave .suspend (congrArg system hy)
  · intro hy
    rw [hy] at hp
    obtain ⟨x, hx⟩ := hp.of_rising
    rw [flow_of_way hx Way.noConfusion]
    cases x with
    | lowpower => exact .inl rfl
    | normal => exact .inr (.inl rfl)
    | suspend => exact .inr (.inr rfl)
  · rintro f y hm (rfl | rfl | rfl)
    · exact hdown _ y .lowpower rfl hm
    · exact hdown _ y .normal rfl hm
    · exact hdown _ y .suspend rfl hm
  · exact fun y hm => system_injective (hup _ y .lowpower rfl hm)
  · exact fun y hm => system_injective (hup _ y .normal rfl hm)
  · exact fun y hm => system_injective (hup _ y .suspend rfl hm)

theorem run_started {s : Sm} (es : List Event) (h : InPhase (core s)) (hl : Started s.log) :
    Started (run s es).log :=
  run_core (P := fun c => Started c.log) (fun _ _ _ _ hc hm => hc.move hm) es h hl

/-- Every interleaving keeps the power manager coherent, and a rejected entry changes nothing. -/
theorem power_flow_coherent (flag : SocState) (now : Nat) (es : List Event) :
    Coherent (run (init flag now) es) ∧
      ∀ f, (enterflow f (run (init flag now) es)).1 = false →
        (enterflow f (run (init flag now) es)).2 = run (init flag now) es := by
  have h := init_inPhase flag now
  refine ⟨coherent_of_inPhase (run_inPhase es h) (run_started es h ?_), ?_⟩
  · intro f y hm
    cases hm
  · intro f hf
    unfold enterflow at hf ⊢
    split
    · rfl
    · rw [if_neg ‹_›] at hf
      cases hf

end SynaBoot.PowerCoherence
