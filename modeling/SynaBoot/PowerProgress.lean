import SynaBoot.PowerCoherence

namespace SynaBoot.PowerProgress

open SynaBoot.PowerFlow SynaBoot.PowerPhases SynaBoot.PowerCoherence

variable {s : Sm}

def helps : Event → Bool
  | .msg _ _ _ | .elapse _ | .tick true => true
  | _ => false

def Finishes (s : Sm) : Prop :=
  ∃ es : List Event, es.all helps ∧ (run s es).flow = .idle ∧ (run s es).status = .invalid

def Answerable (c : Core) : Prop := c.way = .reset → c.rsp = true ∨ c.status = .leaveflow

def rank : Status → Nat
  | .invalid => 0
  | .leaveflow => 1
  | .poweroff => 2
  | .waitrsp => 3
  | .powerok => 4
  | .poweron => 5
  | .deassert => 6
  | .assert => 7
  | .enterflow => 8

theorem rank_move {g : Bool} {c d : Core} (h : Move (.tick g) c d) (hw : c.way ≠ .idle) :
    d.status = c.status ∨ rank d.status < rank c.status := by
  cases h with
  | stay => exact .inl rfl
  | enter => exact absurd rfl hw
  | beginDown qs hq hst => cases hst <;> exact .inr (by simp [rank])
  | beginUp | beginReset | takeDown | takeUp | skip | cut | leave => exact .inr (by simp [rank])
  | advance qs hq hw hst => cases hst <;> exact .inr (by simp [rank])
  | respond qs hq he => cases he

theorem Answerable.move {g : Bool} {c d : Core} (ha : Answerable c) (h : Move (.tick g) c d)
    (hw : c.way ≠ .idle) : Answerable d := by
  cases h with
  | stay => exact ha
  | enter => exact absurd rfl hw
  | beginDown | beginUp | takeDown | skip | cut | leave => exact fun h => Way.noConfusion h
  | beginReset => exact fun h => (ha h).imp_right Status.noConfusion
  | advance qs hq hw hst =>
    refine fun h => (ha h).imp_right fun hs => ?_
    dsimp only at hs
    subst hs
    cases hst
  | takeUp => exact fun _ => .inr rfl
  | respond qs hq he => cases he

theorem elapsed_elapse (s : Sm) (d : Nat) :
    elapsed (step (.elapse d) s) = (elapsed s + d) % 2 ^ 32 := by
  have h : elapsed (step (.elapse d) s) =
      ((s.now + d) % 2 ^ 32 + 2 ^ 32 - s.lasttime % 2 ^ 32) % 2 ^ 32 := rfl
  rw [h, elapsed, gettimems]
  omega

theorem exists_elapse (s : Sm) : ∃ d, elapsed (step (.elapse d) s) = poweroff2Poweron := by
  have hlt : elapsed s < 2 ^ 32 := Nat.mod_lt _ (by decide)
  refine ⟨2 ^ 32 - elapsed s + poweroff2Poweron, ?_⟩
  rw [elapsed_elapse, ← Nat.add_assoc, Nat.add_sub_cancel' hlt.le, Nat.add_mod_left]
  rfl

theorem in_flow (body : Sm → Sm) : inFlow s.flow body s = body s := if_neg (not_not.mpr rfl)

theorem warmdown_status_ne {x : Standby} (hw : way s.flow = .down x) (h : InPhase (core s))
    (hr : s.status = .waitrsp → s.isGetRsp = true) : (flowWarmdown s).status ≠ s.status := by
  have hflow := flow_of_way hw Way.noConfusion
  obtain ⟨y, st, hy, hs, hp⟩ := h.at_way hw
  cases hp with
  | downEnter =>
    simp only [flowWarmdown, hs, beginWarmdown, broadcastPowerState, emit, hflow]
    cases x with
    | lowpower | normal => exact Status.noConfusion
    | suspend =>
      dsimp only [flowOf]
      split <;> exact Status.noConfusion
  | downWait =>
    simp only [flowWarmdown, hs, socAssert2Deassert, hr hs, if_true]
    exact Status.noConfusion
  | downCut =>
    simp only [flowWarmdown, hs]
    exact Status.noConfusion
  | downLeave =>
    simp only [flowWarmdown, hs, leaveflow, hflow]
    cases x with
    | lowpower | normal | suspend => exact Status.noConfusion

theorem poweron_status (hs : s.status = .poweron) (ht : poweroff2Poweron ≤ elapsed s) :
    (socPoweron2Powerok true s).status = .powerok := by
  simp only [socPoweron2Powerok, hs, waittime, if_pos ht]

theorem powerok_status (hs : s.status = .powerok) (ht : poweron2OkTime ≤ elapsed s) :
    (socPoweron2Powerok true s).status = .waitrsp := by
  simp only [socPoweron2Powerok, hs, waittime, if_pos ht, if_true]

theorem deassert_status (hs : s.status = .deassert) (ht : assert2DeassertTime ≤ elapsed s) :
    (socAssert2Deassert s).2.status = .poweron := by
  simp only [socAssert2Deassert, hs, waittime, if_pos ht]

theorem awaitRsp_status (hs : s.status = .waitrsp) (hr : s.isGetRsp = true) :
    (awaitRsp s).status = .leaveflow := by
  simp only [awaitRsp, socAssert2Deassert, hs, hr, if_true]

theorem warmup_status_ne {x : Standby} (hw : way s.flow = .up x) (h : InPhase (core s))
    (ht : poweroff2Poweron ≤ elapsed s) (hr : s.status = .waitrsp → s.isGetRsp = true) :
    (flowWarmup true s).status ≠ s.status := by
  have hflow := flow_of_way hw Way.noConfusion
  obtain ⟨y, st, hy, hs, hp⟩ := h.at_way hw
  unfold poweroff2Poweron at ht
  cases hp with
  | upEnter =>
    simp only [flowWarmup, hs, beginWarmup, broadcastPowerState, emit, hflow]
    cases x with
    | lowpower | normal | suspend => exact Status.noConfusion
  | upRun hst =>
    cases hst with
    | assert =>
      simp only [flowWarmup, hs]
      exact Status.noConfusion
    | deassert =>
      have hd := deassert_status hs (by unfold assert2DeassertTime; omega)
      simp only [socAssert2Deassert, hs] at hd
      simp only [flowWarmup, socAssert2Deassert, hs, hd]
      exact Status.noConfusion
    | poweron =>
      simp only [flowWarmup, hs]
      split
      · exact Status.noConfusion
      · rw [poweron_status hs ht]
        exact Status.noConfusion
    | powerok =>
      simp only [flowWarmup, hs]
      rw [powerok_status hs (by unfold poweron2OkTime; omega)]
      exact Status.noConfusion
  | upWait =>
    have ha := awaitRsp_status hs (hr hs)
    simp only [flowWarmup, hs]
    exact fun hc => Status.noConfusion (ha.symm.trans hc)
  | upLeave =>
    simp only [flowWarmup, hs]
    exact Status.noConfusion

theorem sysreset_status_ne (hw : way s.flow = .reset) (h : InPhase (core s))
    (ht : poweroff2Poweron ≤ elapsed s) (hr : s.status = .waitrsp → s.isGetRsp = true) :
    (flowSysreset true s).status ≠ s.status := by
  unfold flowSysreset
  dsimp only
  obtain ⟨y, st, hy, hs, hp⟩ := h.at_way hw
  have hsb : (broadcastPowerState s).status = st := hs
  have hte : poweroff2Poweron ≤ elapsed (broadcastPowerState s) := ht
  rw [hs]
  unfold poweroff2Poweron at hte
  cases hp with
  | resetEnter =>
    simp only [hsb]
    exact Status.noConfusion
  | resetRun hset hst =>
    cases hst with
    | assert =>
      simp only [hsb]
      exact Status.noConfusion
    | deassert =>
      simp only [hsb]
      rw [deassert_status hsb (by unfold assert2DeassertTime; omega)]
      exact Status.noConfusion
    | poweron =>
      simp only [hsb]
      rw [poweron_status hsb hte]
      exact Status.noConfusion
    | powerok =>
      simp only [hsb]
      rw [powerok_status hsb (by unfold poweron2OkTime; omega)]
      exact Status.noConfusion
  | resetWait =>
    have ha := awaitRsp_status hsb (hr hs)
    simp only [hsb]
    exact fun hc => Status.noConfusion (ha.symm.trans hc)
  | resetLeave =>
    simp only [hsb]
    exact Status.noConfusion

theorem tick_status_ne (h : InPhase (core s)) (hw : way s.flow ≠ .idle)
    (ht : poweroff2Poweron ≤ elapsed s) (hr : s.status = .waitrsp → s.isGetRsp = true) :
    (powerTask true s).status ≠ s.status := by
  unfold powerTask
  simp only [in_flow]
  cases hf : s.flow with
  | active2Lowpowerstandby | active2Normalstandby | active2Suspend =>
    exact warmdown_status_ne (congrArg way hf) h hr
  | lowpowerstandby2Active | normalstandby2Active | suspend2Active =>
    exact warmup_status_ne (congrArg way hf) h ht hr
  | sysreset2Active => exact sysreset_status_ne (congrArg way hf) h ht hr
  | idle => exact absurd (congrArg way hf) hw
  | sysreset2Lowpowerstandby | sysreset2Normalstandby | cold2Lowpowerstandby =>
    obtain ⟨y, st, -, -, hp⟩ := h.at_way (congrArg way hf)
    cases hp

theorem tick_progress (h : InPhase (core s)) (ha : Answerable (core s)) (hw : way s.flow ≠ .idle)
    (ht : poweroff2Poweron ≤ elapsed s) (hr : s.status = .waitrsp → s.isGetRsp = true) :
    rank (powerTask true s).status < rank s.status ∧ Answerable (core (powerTask true s)) := by
  have hm := step_move (.tick true) h
  exact ⟨(rank_move hm hw).resolve_left (tick_status_ne h hw ht hr), ha.move hm hw⟩

theorem latch_down (hy : s.sysState = .active2Suspend) :
    step (.msg active2SuspendResp 0 0) s = { emit (.received active2SuspendResp) s with
      isGetRsp := true
      bootFlag := .active2Suspend } := by
  simp only [step, processPowerMsg, emit, hy, if_true]

theorem latch_up (hy : s.sysState = .standby2Active) :
    step (.msg suspend2ActiveResp 0 0) s =
      { emit (.received suspend2ActiveResp) s with isGetRsp := true } := by
  have hr : isWarmupResp suspend2ActiveResp = true := by decide
  simp only [step, processPowerMsg, emit, hy, hr, if_true]

theorem exists_latch (h : InPhase (core s)) (ha : Answerable (core s)) (hs : s.status = .waitrsp)
    (hr : s.isGetRsp ≠ true) : ∃ type, (step (.msg type 0 0) s).isGetRsp = true ∧
      (step (.msg type 0 0) s).flow = s.flow ∧ (step (.msg type 0 0) s).status = s.status ∧
      elapsed (step (.msg type 0 0) s) = elapsed s := by
  have hp : Phase (system s.sysState) (way s.flow) .waitrsp := hs ▸ h
  generalize hy : system s.sysState = y at hp
  generalize hw : way s.flow = w at hp
  cases hp with
  | downWait =>
    refine ⟨active2SuspendResp, ?_⟩
    rw [latch_down (system_injective hy)]
    exact ⟨rfl, rfl, rfl, rfl⟩
  | upRun hst => cases hst
  | upWait =>
    refine ⟨suspend2ActiveResp, ?_⟩
    rw [latch_up (system_injective hy)]
    exact ⟨rfl, rfl, rfl, rfl⟩
  | resetRun hset hst => cases hst
  | resetWait hset =>
    cases ha hw with
    | inl hrsp => exact absurd hrsp hr
    | inr hl => exact absurd (hs.symm.trans hl) Status.noConfusion

theorem progress (h : InPhase (core s)) (ha : Answerable (core s)) (hw : way s.flow ≠ .idle) :
    ∃ es : List Event, es.all helps ∧ rank (run s es).status < rank s.status ∧
      Answerable (core (run s es)) := by
  obtain ⟨d, hd⟩ := exists_elapse s
  by_cases hr : s.status = .waitrsp → s.isGetRsp = true
  · refine ⟨[.elapse d, .tick true], rfl, ?_⟩
    exact tick_progress (s := step (.elapse d) s) h ha hw hd.ge hr
  · rw [Classical.not_imp] at hr
    obtain ⟨type, hrsp, hf, hs, he⟩ :=
      exists_latch (s := step (.elapse d) s) h ha hr.1 hr.2
    have hm := h.move (step_move (.elapse d) h)
    refine ⟨[.elapse d, .msg type 0 0, .tick true], rfl, ?_⟩
    have hp := tick_progress (s := step (.msg type 0 0) (step (.elapse d) s))
      (hm.move (step_move (.msg type 0 0) hm)) (fun _ => .inl hrsp) (by rw [hf]; exact hw)
      (by rw [he, hd]) (fun _ => hrsp)
    rw [hs] at hp
    exact hp

theorem finishes_of_answerable (h : InPhase (core s)) (ha : Answerable (core s)) : Finishes s := by
  induction hn : rank s.status using Nat.strong_induction_on generalizing s with
  | _ n ih =>
    by_cases hw : way s.flow = .idle
    · obtain ⟨y, st, -, hs, hp⟩ := h.at_way hw
      refine ⟨[], rfl, flow_of_way hw Way.noConfusion, hs.trans hp.of_idle⟩
    · obtain ⟨es, hes, hlt, hans⟩ := progress h ha hw
      obtain ⟨es', hes', hfin⟩ := ih _ (hn ▸ hlt) (run_inPhase es h) hans rfl
      refine ⟨es ++ es', by rw [List.all_append, hes, hes']; rfl, ?_⟩
      unfold run at hfin ⊢
      rw [Schedules.run_append]
      exact hfin

structure Deaf (c : Core) : Prop where
  way : c.way = .reset
  rsp : c.rsp = false
  status : c.status ≠ .leaveflow

theorem Deaf.move {e : Event} {c d : Core} (hp : InPhase c) (hc : Deaf c) (h : Move e c d) :
    Deaf d := by
  obtain ⟨hw, hr, hs⟩ := hc
  cases h with
  | stay => exact ⟨hw, hr, hs⟩
  | enter | beginDown | beginUp | takeDown | skip | cut => cases hw
  | beginReset => exact ⟨rfl, hr, Status.noConfusion⟩
  | advance qs hq hw' hst =>
    refine ⟨hw, hr, ?_⟩
    cases hst <;> exact Status.noConfusion
  | takeUp => cases hr
  | leave => exact absurd rfl hs
  | respond qs hq he hl =>
    dsimp only at hw
    subst hw
    cases hl with
    | down | up =>
      cases hp with
      | resetEnter hset | resetRun hset | resetWait hset | resetLeave hset => cases hset

theorem run_deaf (es : List Event) (hp : InPhase (core s)) (h : Deaf (core s)) :
    Deaf (core (run s es)) :=
  run_core (fun _ _ _ hc hd hm => hd.move hc hm) es hp h

theorem not_finishes_of_deaf (hp : InPhase (core s)) (h : Deaf (core s)) : ¬Finishes s := by
  rintro ⟨es, -, hf, -⟩
  have hw : way (run s es).flow = .reset := (run_deaf es hp h).way
  rw [hf] at hw
  cases hw

/-- A flow can be brought to its end, unless it is a reset that still needs its response. -/
theorem flow_finishes_iff (flag : SocState) (now : Nat) (es : List Event) :
    Finishes (run (init flag now) es) ↔
      ((run (init flag now) es).flow = .sysreset2Active →
        (run (init flag now) es).isGetRsp = true ∨
          (run (init flag now) es).status = .leaveflow) := by
  have hp := run_inPhase es (init_inPhase flag now)
  generalize run (init flag now) es = s at hp ⊢
  constructor
  · intro hfin hf
    by_contra hno
    rw [not_or, Bool.not_eq_true] at hno
    exact not_finishes_of_deaf hp ⟨congrArg way hf, hno.1, hno.2⟩ hfin
  · intro h
    exact finishes_of_answerable hp fun hw => h (flow_of_way hw Way.noConfusion)

theorem reset_never_finishes : ¬Finishes (run (init .poweron 0) [.msg sysReset 0 0]) := by
  refine not_finishes_of_deaf (run_inPhase _ (init_inPhase .poweron 0)) ⟨?_, ?_, ?_⟩
  · decide +kernel
  · decide +kernel
  · decide +kernel

end SynaBoot.PowerProgress
