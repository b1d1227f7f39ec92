import SynaBoot.PowerFlow

namespace SynaBoot.PowerPhases

open SynaBoot.PowerFlow

inductive Standby where
  | lowpower
  | normal
  | suspend
  deriving DecidableEq, Repr

inductive System where
  | active
  | standby (x : Standby)
  | leaving (x : Standby)
  | rising
  | cold
  deriving DecidableEq, Repr

inductive Way where
  | down (x : Standby)
  | up (x : Standby)
  | reset
  | idle
  | other
  deriving DecidableEq, Repr

def system : SysState → System
  | .active => .active
  | .lowpowerstandby => .standby .lowpower
  | .normalstandby => .standby .normal
  | .suspend => .standby .suspend
  | .active2Lowpowerstandby => .leaving .lowpower
  | .active2Normalstandby => .leaving .normal
  | .active2Suspend => .leaving .suspend
  | .standby2Active => .rising
  | .cold => .cold

def way : Flow → Way
  | .active2Lowpowerstandby => .down .lowpower
  | .active2Normalstandby => .down .normal
  | .active2Suspend => .down .suspend
  | .lowpowerstandby2Active => .up .lowpower
  | .normalstandby2Active => .up .normal
  | .suspend2Active => .up .suspend
  | .sysreset2Active => .reset
  | .idle => .idle
  | .sysreset2Lowpowerstandby | .sysreset2Normalstandby | .cold2Lowpowerstandby => .other

structure Core where
  sys : System
  way : Way
  status : Status
  rsp : Bool
  log : List Output

def core (s : Sm) : Core := ⟨system s.sysState, way s.flow, s.status, s.isGetRsp, s.log⟩

def quiet : Output → Bool
  | .entered _ _ | .socPoweroff _ => false
  | _ => true

inductive Settled : System → Prop where
  | active : Settled .active
  | standby (x : Standby) : Settled (.standby x)

inductive StartsIn : Way → System → Prop where
  | down (x : Standby) : StartsIn (.down x) .active
  | up (x : Standby) : StartsIn (.up x) (.standby x)
  | reset (sys : System) : StartsIn .reset sys

/-- A suspend to WFI skips the rest. -/
inductive FirstDown : Standby → Status → Prop where
  | lowpower : FirstDown .lowpower .poweroff
  | normal : FirstDown .normal .poweroff
  | wait : FirstDown .suspend .waitrsp
  | wfi : FirstDown .suspend .leaveflow

inductive Next : Status → Status → Prop where
  | assert : Next .assert .deassert
  | deassert : Next .deassert .poweron
  | poweron : Next .poweron .powerok
  | powerok : Next .powerok .waitrsp

inductive Rises : Way → Prop where
  | up (x : Standby) : Rises (.up x)
  | reset : Rises .reset

inductive Leaves : Way → System → System → Prop where
  | down (x : Standby) : Leaves (.down x) (.leaving x) (.standby x)
  | up (x : Standby) : Leaves (.up x) .rising .active
  | reset (sys : System) : Leaves .reset sys sys

inductive Latches : System → Int → Prop where
  | down : Latches (.leaving .suspend) active2SuspendResp
  | up {type : Int} (h : isWarmupResp type = true) : Latches .rising type

/-- The power manager in the abstract: what an event can do. -/
inductive Move (e : Event) : Core → Core → Prop where
  | stay {c : Core} (qs : List Output) (hq : qs.all quiet) :
      Move e c { c with log := qs ++ c.log }
  | enter {f : Flow} {y : SysState} {rsp : Bool} {log : List Output}
      (qs : List Output) (hq : qs.all quiet) (hf : StartsIn (way f) (system y)) :
      Move e ⟨system y, .idle, .invalid, rsp, log⟩
        ⟨system y, way f, .enterflow, rsp, .entered f y :: (qs ++ log)⟩
  | beginDown {x : Standby} {st : Status} {rsp : Bool} {log : List Output}
      (qs : List Output) (hq : qs.all quiet) (hst : FirstDown x st) :
      Move e ⟨.active, .down x, .enterflow, rsp, log⟩ ⟨.leaving x, .down x, st, rsp, qs ++ log⟩
  | beginUp {x : Standby} {rsp : Bool} {log : List Output}
      (qs : List Output) (hq : qs.all quiet) :
      Move e ⟨.standby x, .up x, .enterflow, rsp, log⟩ ⟨.rising, .up x, .assert, rsp, qs ++ log⟩
  | beginReset {sys : System} {rsp : Bool} {log : List Output}
      (qs : List Output) (hq : qs.all quiet) :
      Move e ⟨sys, .reset, .enterflow, rsp, log⟩ ⟨sys, .reset, .assert, rsp, qs ++ log⟩
  | advance {sys : System} {w : Way} {st st' : Status} {rsp : Bool} {log : List Output}
      (qs : List Output) (hq : qs.all quiet) (hw : Rises w) (hst : Next st st') :
      Move e ⟨sys, w, st, rsp, log⟩ ⟨sys, w, st', rsp, qs ++ log⟩
  | takeDown {sys : System} {log : List Output} (qs : List Output) (hq : qs.all quiet) :
      Move e ⟨sys, .down .suspend, .waitrsp, true, log⟩
        ⟨sys, .down .suspend, .poweroff, false, qs ++ log⟩
  | takeUp {sys : System} {w : Way} {log : List Output}
      (qs : List Output) (hq : qs.all quiet) (hw : Rises w) :
      Move e ⟨sys, w, .waitrsp, true, log⟩ ⟨sys, w, .leaveflow, false, qs ++ log⟩
  | skip {sys : System} {x : Standby} {rsp : Bool} {log : List Output}
      (qs : List Output) (hq : qs.all quiet) :
      Move e ⟨sys, .up x, .poweron, rsp, log⟩ ⟨sys, .up x, .leaveflow, false, qs ++ log⟩
  | cut {sys : System} {x : Standby} {f : Flow} {rsp : Bool} {log : List Output}
      (qs : List Output) (hq : qs.all quiet) (hf : way f = .down x) :
      Move e ⟨sys, .down x, .poweroff, rsp, log⟩
        ⟨sys, .down x, .leaveflow, rsp, .socPoweroff f :: (qs ++ log)⟩
  | leave {sys sys' : System} {w : Way} {rsp : Bool} {log : List Output}
      (qs : List Output) (hq : qs.all quiet) (hw : Leaves w sys sys') :
      Move e ⟨sys, w, .leaveflow, rsp, log⟩ ⟨sys', .idle, .invalid, rsp, qs ++ log⟩
  | respond {sys : System} {w : Way} {st : Status} {rsp : Bool} {log : List Output}
      {type content suspendType : Int} (qs : List Output) (hq : qs.all quiet)
      (he : e = .msg type content suspendType) (hl : Latches sys type) :
      Move e ⟨sys, w, st, rsp, log⟩ ⟨sys, w, st, true, .received type :: (qs ++ log)⟩

inductive Phase : System → Way → Status → Prop where
  | idle {sys : System} (hy : Settled sys) : Phase sys .idle .invalid
  | downEnter {x : Standby} : Phase .active (.down x) .enterflow
  | downWait : Phase (.leaving .suspend) (.down .suspend) .waitrsp
  | downCut {x : Standby} : Phase (.leaving x) (.down x) .poweroff
  | downLeave {x : Standby} : Phase (.leaving x) (.down x) .leaveflow
  | upEnter {x : Standby} : Phase (.standby x) (.up x) .enterflow
  | upRun {x : Standby} {st st' : Status} (hst : Next st st') : Phase .rising (.up x) st
  | upWait {x : Standby} : Phase .rising (.up x) .waitrsp
  | upLeave {x : Standby} : Phase .rising (.up x) .leaveflow
  | resetEnter {sys : System} (hy : Settled sys) : Phase sys .reset .enterflow
  | resetRun {sys : System} {st st' : Status} (hy : Settled sys) (hst : Next st st') :
      Phase sys .reset st
  | resetWait {sys : System} (hy : Settled sys) : Phase sys .reset .waitrsp
  | resetLeave {sys : System} (hy : Settled sys) : Phase sys .reset .leaveflow

def InPhase (c : Core) : Prop := Phase c.sys c.way c.status

theorem Phase.begin_down {x : Standby} {st : Status} (h : FirstDown x st) :
    Phase (.leaving x) (.down x) st := by
  cases h with
  | lowpower | normal => exact .downCut
  | wait => exact .downWait
  | wfi => exact .downLeave

theorem Phase.advance {sys : System} {w : Way} {st st' : Status} (hw : Rises w) (hst : Next st st')
    (h : Phase sys w st) : Phase sys w st' := by
  have hy : (∃ x, w = .up x ∧ sys = .rising) ∨ (w = .reset ∧ Settled sys) := by
    cases hw with
    | up x =>
      cases h with
      | upRun => exact .inl ⟨x, rfl, rfl⟩
      | upEnter | upWait | upLeave => cases hst
    | reset =>
      cases h with
      | resetRun hy => exact .inr ⟨rfl, hy⟩
      | resetEnter | resetWait | resetLeave => cases hst
  obtain ⟨x, rfl, rfl⟩ | ⟨rfl, hy⟩ := hy
  · cases hst with
    | assert => exact .upRun .deassert
    | deassert => exact .upRun .poweron
    | poweron => exact .upRun .powerok
    | powerok => exact .upWait
  · cases hst with
    | assert => exact .resetRun hy .deassert
    | deassert => exact .resetRun hy .poweron
    | poweron => exact .resetRun hy .powerok
    | powerok => exact .resetWait hy

theorem Phase.take {sys : System} {w : Way} (hw : Rises w) (h : Phase sys w .waitrsp) :
    Phase sys w .leaveflow := by
  cases h with
  | downWait => cases hw
  | upRun hst => cases hst
  | upWait => exact .upLeave
  | resetRun hy hst => cases hst
  | resetWait hy => exact .resetLeave hy

theorem Phase.leave {sys sys' : System} {w : Way} (hw : Leaves w sys sys')
    (h : Phase sys w .leaveflow) : Phase sys' .idle .invalid := by
  cases hw with
  | down x => exact .idle (.standby x)
  | up x => exact .idle .active
  | reset sys =>
    cases h with
    | resetRun hy hst => cases hst
    | resetLeave hy => exact .idle hy

theorem Phase.enter {sys : System} {w : Way} (hw : StartsIn w sys) (h : Phase sys .idle .invalid) :
    Phase sys w .enterflow := by
  cases h with
  | idle hy =>
    cases hw with
    | down x => exact .downEnter
    | up x => exact .upEnter
    | reset sys => exact .resetEnter hy

theorem InPhase.move {e : Event} {c d : Core} (hc : InPhase c) (h : Move e c d) : InPhase d := by
  cases h with
  | stay qs hq => exact hc
  | enter qs hq hf => exact Phase.enter hf hc
  | beginDown qs hq hst => exact Phase.begin_down hst
  | beginUp qs hq => exact .upRun .assert
  | beginReset qs hq =>
    cases hc with
    | resetEnter hy => exact .resetRun hy .assert
    | resetRun hy hst => cases hst
  | advance qs hq hw hst => exact Phase.advance hw hst hc
  | takeDown qs hq =>
    cases hc with
    | downWait => exact .downCut
  | takeUp qs hq hw => exact Phase.take hw hc
  | skip qs hq =>
    cases hc with
    | upRun hst => exact .upLeave
  | cut qs hq hf =>
    cases hc with
    | downCut => exact .downLeave
  | leave qs hq hw => exact Phase.leave hw hc
  | respond qs hq he hl => exact hc

theorem Move.after_quiet {e : Event} {c d : Core} {q : List Output} (hqq : q.all quiet)
    (h : Move e { c with log := q ++ c.log } d) : Move e c d := by
  have hall {qs : List Output} (hq : qs.all quiet) : (qs ++ q).all quiet := by
    rw [List.all_append, hq, hqq]
    rfl
  obtain ⟨sys, w, st, rsp, log⟩ := c
  cases h with
  | stay qs hq =>
    dsimp only
    rw [← List.append_assoc]
    exact .stay (qs ++ q) (hall hq)
  | enter qs hq hf =>
    rw [← List.append_assoc]
    exact .enter (qs ++ q) (hall hq) hf
  | beginDown qs hq hst =>
    rw [← List.append_assoc]
    exact .beginDown (qs ++ q) (hall hq) hst
  | beginUp qs hq =>
    rw [← List.append_assoc]
    exact .beginUp (qs ++ q) (hall hq)
  | beginReset qs hq =>
    rw [← List.append_assoc]
    exact .beginReset (qs ++ q) (hall hq)
  | advance qs hq hw hst =>
    rw [← List.append_assoc]
    exact .advance (qs ++ q) (hall hq) hw hst
  | takeDown qs hq =>
    rw [← List.append_assoc]
    exact .takeDown (qs ++ q) (hall hq)
  | takeUp qs hq hw =>
    rw [← List.append_assoc]
    exact .takeUp (qs ++ q) (hall hq) hw
  | skip qs hq =>
    rw [← List.append_assoc]
    exact .skip (qs ++ q) (hall hq)
  | cut qs hq hf =>
    rw [← List.append_assoc]
    exact .cut (qs ++ q) (hall hq) hf
  | leave qs hq hw =>
    rw [← List.append_assoc]
    exact .leave (qs ++ q) (hall hq) hw
  | respond qs hq he hl =>
    rw [← List.append_assoc]
    exact .respond (qs ++ q) (hall hq) he hl

theorem Phase.of_invalid {y : System} {w : Way} (h : Phase y w .invalid) : w = .idle := by
  cases h with
  | idle => rfl
  | upRun hst => cases hst
  | resetRun hy hst => cases hst

theorem Phase.of_idle {y : System} {st : Status} (h : Phase y .idle st) : st = .invalid := by
  cases h with
  | idle => rfl

theorem Phase.of_leaving {x : Standby} {w : Way} {st : Status} (h : Phase (.leaving x) w st) :
    w = .down x := by
  cases h with
  | downWait | downCut | downLeave => rfl
  | idle hset | resetEnter hset | resetRun hset | resetWait hset | resetLeave hset => cases hset

theorem Phase.of_rising {w : Way} {st : Status} (h : Phase .rising w st) : ∃ x, w = .up x := by
  cases h with
  | upRun | upWait | upLeave => exact ⟨_, rfl⟩
  | idle hset | resetEnter hset | resetRun hset | resetWait hset | resetLeave hset => cases hset

theorem system_injective : Function.Injective system := by
  intro y z h
  cases y <;> cases z <;> first | rfl | cases h

variable {s : Sm} {y : System} {w : Way} {st : Status}

def flowOf : Way → Flow
  | .down .lowpower => .active2Lowpowerstandby
  | .down .normal => .active2Normalstandby
  | .down .suspend => .active2Suspend
  | .up .lowpower => .lowpowerstandby2Active
  | .up .normal => .normalstandby2Active
  | .up .suspend => .suspend2Active
  | .reset => .sysreset2Active
  | .idle | .other => .idle

theorem flow_of_way {f : Flow} (h : way f = w) (hw : w ≠ .other) : f = flowOf w := by
  subst h
  cases f <;> first | rfl | exact absurd rfl hw

theorem core_eq (hy : system s.sysState = y) (hw : way s.flow = w) (hs : s.status = st) :
    core s = ⟨y, w, st, s.isGetRsp, s.log⟩ := by
  rw [core, hy, hw, hs]

theorem InPhase.at_way (h : InPhase (core s)) (hw : way s.flow = w) :
    ∃ y st, system s.sysState = y ∧ s.status = st ∧ Phase y w st :=
  ⟨_, _, rfl, rfl, hw ▸ h⟩

end SynaBoot.PowerPhases
