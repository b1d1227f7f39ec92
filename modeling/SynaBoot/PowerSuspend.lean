import SynaBoot.PowerCoherence

namespace SynaBoot.PowerSuspend

open SynaBoot.PowerFlow SynaBoot.PowerPhases SynaBoot.PowerCoherence

def notEntered : Output → Bool
  | .entered _ _ => false
  | _ => true

def Answered (log : List Output) : Prop := .received active2SuspendResp ∈ log.takeWhile notEntered

instance (log : List Output) : Decidable (Answered log) := inferInstanceAs (Decidable (_ ∈ _))

def Safe (log : List Output) : Prop :=
  ∀ post, .socPoweroff .active2Suspend :: post <:+ log → Answered post

def NoLateResponse (s : Sm) : Event → Prop
  | .msg type _ _ => isWarmupResp type = true → s.sysState = .standby2Active → s.status ≠ .leaveflow
  | _ => True

instance (s : Sm) (e : Event) : Decidable (NoLateResponse s e) := by
  cases e <;> unfold NoLateResponse <;> infer_instance

theorem answered_cons {o : Output} {log : List Output} (ho : notEntered o = true)
    (h : Answered log) : Answered (o :: log) := by
  unfold Answered
  rw [List.takeWhile_cons_of_pos ho]
  exact List.mem_cons_of_mem o h

theorem answered_append {qs log : List Output} (hq : qs.all quiet) (h : Answered log) :
    Answered (qs ++ log) := by
  induction qs with
  | nil => exact h
  | cons q qs ih =>
    rw [List.all_cons, Bool.and_eq_true] at hq
    refine answered_cons ?_ (ih hq.2)
    cases q <;> first | rfl | exact hq.1

theorem answered_received (log : List Output) : Answered (.received active2SuspendResp :: log) := by
  unfold Answered
  rw [List.takeWhile_cons_of_pos rfl]
  exact List.mem_cons_self

theorem safe_cons {o : Output} {log : List Output} (h : Safe log)
    (ho : o = .socPoweroff .active2Suspend → Answered log) : Safe (o :: log) := by
  intro post hp
  cases List.suffix_cons_iff.mp hp with
  | inl he =>
    obtain ⟨rfl, rfl⟩ := List.cons.inj he
    exact ho rfl
  | inr hs => exact h post hs

theorem safe_append {qs log : List Output} (hq : qs.all quiet) (h : Safe log) :
    Safe (qs ++ log) := by
  induction qs with
  | nil => exact h
  | cons q qs ih =>
    rw [List.all_cons, Bool.and_eq_true] at hq
    refine safe_cons (ih hq.2) fun he => ?_
    subst he
    cases hq.1

structure Guarded (c : Core) : Prop where
  active : c.sys = .active → c.rsp = false
  risen : c.sys = .rising → c.status = .leaveflow → c.rsp = false
  answered : c.way = .down .suspend → c.rsp = true → Answered c.log
  cutting : c.way = .down .suspend → c.status = .poweroff → Answered c.log
  safe : Safe c.log

theorem Guarded.move {e : Event} {c d : Core} (hp : InPhase c) (hc : Guarded c) (h : Move e c d)
    (hlate : ∀ type content suspendType, e = .msg type content suspendType →
      isWarmupResp type = true → c.sys = .rising → c.status ≠ .leaveflow) :
    Guarded d := by
  cases h with
  | stay qs hq =>
    exact ⟨hc.active, hc.risen, fun hw hr => answered_append hq (hc.answered hw hr),
      fun hw hs => answered_append hq (hc.cutting hw hs), safe_append hq hc.safe⟩
  | @enter f y rsp log qs hq hf =>
    refine ⟨hc.active, fun _ hs => Status.noConfusion hs, fun hw hr => ?_,
      fun _ hs => Status.noConfusion hs, safe_cons (safe_append hq hc.safe) Output.noConfusion⟩
    -- a suspend starts in the active state, where no response is left
    have hy : system y = .active := by
      dsimp only at hw
      rw [hw] at hf
      generalize system y = z at hf
      cases hf with
      | down => rfl
    exact absurd ((hc.active hy).symm.trans hr) Bool.false_ne_true
  | beginDown qs hq hst =>
    refine ⟨fun hy => System.noConfusion hy, fun hy => System.noConfusion hy, fun hw hr => ?_,
      fun hw hs => ?_, safe_append hq hc.safe⟩
    · exact answered_append hq (hc.answered hw hr)
    · cases hst with
      | lowpower | normal => cases hw
      | wait | wfi => cases hs
  | beginUp qs hq =>
    exact ⟨fun hy => System.noConfusion hy, fun _ hs => Status.noConfusion hs,
      fun hw => Way.noConfusion hw, fun hw => Way.noConfusion hw, safe_append hq hc.safe⟩
  | beginReset qs hq =>
    exact ⟨hc.active, fun _ hs => Status.noConfusion hs, fun hw => Way.noConfusion hw,
      fun hw => Way.noConfusion hw, safe_append hq hc.safe⟩
  | advance qs hq hw hst =>
    refine ⟨hc.active, fun _ hs => ?_, fun hw' => ?_, fun hw' => ?_, safe_append hq hc.safe⟩
    · cases hst <;> cases hs
    · cases hw <;> cases hw'
    · cases hw <;> cases hw'
  | takeDown qs hq =>
    refine ⟨fun _ => rfl, fun _ _ => rfl, fun _ hr => absurd hr Bool.false_ne_true, fun hw _ => ?_,
      safe_append hq hc.safe⟩
    exact answered_append hq (hc.answered hw rfl)
  | takeUp qs hq hw =>
    exact ⟨fun _ => rfl, fun _ _ => rfl, fun _ hr => absurd hr Bool.false_ne_true,
      fun _ hs => Status.noConfusion hs, safe_append hq hc.safe⟩
  | skip qs hq =>
    exact ⟨fun _ => rfl, fun _ _ => rfl, fun hw => Way.noConfusion hw, fun hw => Way.noConfusion hw,
      safe_append hq hc.safe⟩
  | @cut sys x f rsp log qs hq hf =>
    refine ⟨hc.active, fun hy _ => ?_, fun hw hr => ?_, fun _ hs => Status.noConfusion hs, ?_⟩
    · dsimp only at hy
      subst hy
      cases hp
    · exact answered_cons rfl (answered_append hq (hc.answered hw hr))
    · refine safe_cons (safe_append hq hc.safe) fun he => ?_
      obtain rfl := Output.socPoweroff.inj he
      exact answered_append hq (hc.cutting hf.symm rfl)
  | leave qs hq hw =>
    refine ⟨fun hy => ?_, fun _ hs => Status.noConfusion hs, fun hw => Way.noConfusion hw,
      fun hw => Way.noConfusion hw, safe_append hq hc.safe⟩
    cases hw with
    | down x => cases hy
    | up x => exact hc.risen rfl rfl
    | reset sys => exact hc.active hy
  | respond qs hq he hl =>
    refine ⟨fun hy => ?_, fun hy hs => ?_, fun hw _ => ?_, fun hw hs => ?_,
      safe_cons (safe_append hq hc.safe) Output.noConfusion⟩
    · dsimp only at hy
      subst hy
      cases hl
    · dsimp only at hy hs
      subst hy
      cases hl with
      | up ht => exact absurd hs (hlate _ _ _ he ht rfl)
    · cases hl with
      | down => exact answered_received _
      | up ht =>
        obtain ⟨x, hx⟩ := hp.of_rising
        exact absurd (hx.symm.trans hw) Way.noConfusion
    · exact answered_cons rfl (answered_append hq (hc.cutting hw hs))

theorem run_guarded {s : Sm} {es : List Event} (hp : InPhase (core s)) (hc : Guarded (core s))
    (hok : Schedules.Meets step NoLateResponse s es) : Guarded (core (run s es)) := by
  refine (Schedules.run_invariant (I := fun s => InPhase (core s) ∧ Guarded (core s)) ?_ ⟨hp, hc⟩
    hok).2
  intro s e hs hlate
  have hm := step_move e hs.1
  refine ⟨hs.1.move hm, hs.2.move hs.1 hm fun type content suspendType he ht hy => ?_⟩
  subst he
  exact hlate ht (system_injective hy)

/-- A suspend cuts the power only after its response, if no response to a warm-up comes late. -/
theorem suspend_cut_answered (flag : SocState) (now : Nat) (es : List Event)
    (hok : Schedules.Meets step NoLateResponse (init flag now) es) :
    Safe (run (init flag now) es).log := by
  refine (run_guarded (init_inPhase flag now) ?_ hok).safe
  refine ⟨fun _ => rfl, fun _ _ => rfl, fun hw => Way.noConfusion hw, fun hw => Way.noConfusion hw,
    fun post hp => ?_⟩
  cases List.suffix_nil.mp hp

def suspendEvents : List Event :=
  [.msg suspendRequest 0 suspendTypePwroff, .tick true, .msg active2SuspendResp 0 0, .tick true,
    .tick true, .tick true]

def warmupEvents : List Event :=
  [.wakeup .button 0, .tick true, .tick true, .elapse 100, .tick true, .elapse 300, .tick true,
    .elapse 60, .tick true, .msg suspend2ActiveResp 0 0, .tick true]

theorem suspend_cut_answered_cycle :
    .socPoweroff .active2Suspend ∈ (run (init .poweron 0) (suspendEvents ++ warmupEvents)).log ∧
      Safe (run (init .poweron 0) (suspendEvents ++ warmupEvents)).log :=
  ⟨by decide +kernel, suspend_cut_answered .poweron 0 _ (by decide +kernel)⟩

theorem duplicate_response_cuts_power :
    ¬Safe (run (init .poweron 0) (suspendEvents ++ warmupEvents ++
      [.msg suspend2ActiveResp 0 0, .tick true, .msg suspendRequest 0 suspendTypePwroff, .tick true,
        .tick true, .tick true])).log := by
  generalize hl : (run (init .poweron 0) _).log = log
  have hhead : log.head? = some (.socPoweroff .active2Suspend) := by
    rw [← hl]
    decide +kernel
  have hno : ¬Answered log.tail := by
    rw [← hl]
    decide +kernel
  cases log with
  | nil => cases hhead
  | cons o log =>
    obtain rfl := Option.some.inj hhead
    exact fun hs => hno (hs log (List.suffix_refl _))

end SynaBoot.PowerSuspend
