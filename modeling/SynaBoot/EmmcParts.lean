import Mathlib.Data.List.Destutter
import SynaBoot.Schedules

namespace SynaBoot.EmmcParts

open SynaBoot.Schedules

def flashSwitchPartNoexist : Int := -1
def flashOpErr : Int := -2

@[ext]
structure Emmc where
  currentPart : UInt32
  device : UInt32
  deriving DecidableEq, Repr

def poweron (device : UInt32) : Emmc := ⟨0xf, device⟩

/-- After a failure the device stays where it is. -/
def doEmmcSwitchPart (ok : Bool) (part : UInt32) (s : Emmc) : Int × Emmc :=
  if ok then (0, { s with device := part }) else (flashOpErr, s)

def switchEmmcPart (ok : Bool) (part : UInt32) (s : Emmc) : Int × Emmc :=
  if 8 < part then (flashSwitchPartNoexist, s)
  else if s.currentPart ≠ part then
    let (ret, s) := doEmmcSwitchPart ok part { s with currentPart := part }
    if ret ≠ 0 then (flashOpErr, s) else (0, s)
  else (0, s)

variable {s : Emmc} {part : UInt32}

theorem switch_noexist (ok : Bool) (h : 8 < part) :
    switchEmmcPart ok part s = (flashSwitchPartNoexist, s) := if_pos h

theorem switch_current (ok : Bool) (h : ¬ 8 < part) (hc : s.currentPart = part) :
    switchEmmcPart ok part s = (0, s) := by
  unfold switchEmmcPart
  rw [if_neg h, if_neg (not_not.mpr hc)]

theorem switch_moves (h : ¬ 8 < part) (hc : s.currentPart ≠ part) :
    switchEmmcPart true part s = (0, ⟨part, part⟩) := by
  unfold switchEmmcPart
  rw [if_neg h, if_pos hc]
  rfl

theorem switch_fails (h : ¬ 8 < part) (hc : s.currentPart ≠ part) :
    switchEmmcPart false part s = (flashOpErr, ⟨part, s.device⟩) := by
  unfold switchEmmcPart
  rw [if_neg h, if_pos hc]
  rfl

def Honest (s : Emmc) : Prop := s.currentPart ≤ 8 → s.device = s.currentPart

instance (s : Emmc) : Decidable (Honest s) := inferInstanceAs (Decidable (_ → _))

theorem honest_poweron (device : UInt32) : Honest (poweron device) := by
  intro h
  exact absurd (show (0xf : UInt32) ≤ 8 from h) (by decide)

theorem Honest.switch (h : Honest s) (hp : ¬ 8 < part) :
    ∃ s', switchEmmcPart true part s = (0, s') ∧ s'.device = part ∧ Honest s' := by
  by_cases hc : s.currentPart = part
  · subst hc
    exact ⟨s, switch_current true hp rfl, h (UInt32.not_lt.mp hp), h⟩
  · exact ⟨⟨part, part⟩, switch_moves hp hc, rfl, fun _ => rfl⟩

structure Call where
  part : UInt32
  ok : Bool
  deriving DecidableEq, Repr

def call (c : Call) (s : Emmc) : Emmc := (switchEmmcPart c.ok c.part s).2

def other (c d : Call) : Prop := c.part ≠ d.part

instance : DecidableRel other := fun c d => inferInstanceAs (Decidable (c.part ≠ d.part))

/-- The calls in range, but not those that repeat the call before. -/
def attempts (calls : List Call) : List Call :=
  (calls.filter fun c => c.part ≤ 8).destutter other

def reached (device : UInt32) (as : List Call) : UInt32 :=
  ((as.filter Call.ok).getLast?.map Call.part).getD device

def requested (as : List Call) : UInt32 := (as.getLast?.map Call.part).getD 0xf

theorem reached_cons (device : UInt32) (c : Call) (as : List Call) :
    reached device (c :: as) = reached (if c.ok then c.part else device) as := by
  unfold reached
  cases hok : c.ok with
  | false => rw [List.filter_cons_of_neg (by simp [hok]), if_neg Bool.false_ne_true]
  | true =>
    rw [List.filter_cons_of_pos hok, List.getLast?_cons, if_pos rfl]
    cases (as.filter Call.ok).getLast? <;> rfl

theorem requested_cons (c : Call) {as : List Call} (h : as ≠ []) :
    requested (c :: as) = requested as := by
  obtain ⟨d, ds, rfl⟩ := List.exists_cons_of_ne_nil h
  unfold requested
  rw [List.getLast?_cons_cons]

theorem run_range (calls : List Call) :
    run call s calls = run call s (calls.filter fun c => c.part ≤ 8) := by
  induction calls generalizing s with
  | nil => rfl
  | cons c calls ih =>
    by_cases h : 8 < c.part
    · rw [List.filter_cons_of_neg (by simpa using h), ← ih, run, call, switch_noexist _ h]
    · rw [List.filter_cons_of_pos (by simpa using h)]
      exact ih

theorem call_attempt {c : Call} (hc : c.part ≤ 8) (h : s.currentPart ≠ c.part) :
    call c s = ⟨c.part, if c.ok then c.part else s.device⟩ := by
  have hp := UInt32.not_lt.mpr hc
  unfold call
  cases c.ok with
  | false => exact congrArg Prod.snd (switch_fails hp h)
  | true => exact congrArg Prod.snd (switch_moves hp h)

theorem run_destutter (a : Call) (calls : List Call) (hr : ∀ c ∈ calls, c.part ≤ 8)
    (device : UInt32) (hs : s = ⟨a.part, if a.ok then a.part else device⟩) :
    run call s calls =
      ⟨requested (calls.destutter' other a), reached device (calls.destutter' other a)⟩ := by
  induction calls generalizing a s device with
  | nil =>
    subst hs
    rw [List.destutter'_nil, reached_cons]
    rfl
  | cons c calls ih =>
    obtain ⟨hc, hr⟩ := List.forall_mem_cons.mp hr
    by_cases h : a.part = c.part
    · have hcur : call c s = s := by
        have hsc : s.currentPart = c.part := by rw [hs]; exact h
        exact congrArg Prod.snd (switch_current c.ok (UInt32.not_lt.mpr hc) hsc)
      rw [run, hcur, List.destutter'_cons_neg _ (not_not.mpr h)]
      exact ih a hr device hs
    · have hne : s.currentPart ≠ c.part := by rw [hs]; exact h
      have hdev : s.device = if a.ok then a.part else device := by rw [hs]
      rw [run, List.destutter'_cons_pos _ h, ih c hr _ (call_attempt hc hne), reached_cons, hdev,
        requested_cons _ (List.destutter'_ne_nil calls other)]

theorem run_eq (device : UInt32) (calls : List Call) :
    run call (poweron device) calls =
      ⟨requested (attempts calls), reached device (attempts calls)⟩ := by
  have hr : ∀ c ∈ calls.filter fun c => c.part ≤ 8, c.part ≤ 8 := by simp
  rw [run_range]
  unfold attempts
  cases hcs : calls.filter fun c => c.part ≤ 8 with
  | nil => rfl
  | cons c cs =>
    rw [hcs] at hr
    obtain ⟨hc, hr⟩ := List.forall_mem_cons.mp hr
    have hne : (poweron device).currentPart ≠ c.part := by
      intro h
      rw [← h] at hc
      exact absurd (show (0xf : UInt32) ≤ 8 from hc) (by decide)
    exact run_destutter c cs hr device (call_attempt hc hne)

/-- The last attempt failed while the device was elsewhere. -/
def Refused (device : UInt32) (calls : List Call) (part : UInt32) : Prop :=
  ∃ a ∈ (attempts calls).getLast?, a.part = part ∧ a.ok = false ∧
    reached device (attempts calls) ≠ part

theorem attempts_range (calls : List Call) : ∀ a ∈ attempts calls, a.part ≤ 8 := by
  intro a ha
  have hmem := (List.destutter_sublist other _).subset ha
  simpa using (List.mem_filter.mp hmem).2

theorem reached_getLast {device : UInt32} {as : List Call} {a : Call} (ha : a ∈ as.getLast?)
    (hok : a.ok = true) : reached device as = a.part := by
  obtain ⟨as, rfl⟩ := List.getLast?_eq_some_iff.mp ha
  unfold reached
  rw [List.filter_append, List.filter_cons_of_pos hok, List.filter_nil, List.getLast?_concat]
  rfl

theorem refused_iff (device : UInt32) (calls : List Call) (part : UInt32) :
    Refused device calls part ↔ part ≤ 8 ∧ requested (attempts calls) = part ∧
      reached device (attempts calls) ≠ part := by
  constructor
  · rintro ⟨a, ha, rfl, -, hne⟩
    refine ⟨attempts_range calls a (List.mem_of_getLast? ha), ?_, hne⟩
    unfold requested
    rw [Option.mem_def.mp ha]
    rfl
  · rintro ⟨hp, hreq, hne⟩
    cases ha : (attempts calls).getLast? with
    | none =>
      rw [requested, ha] at hreq
      subst hreq
      exact absurd (show (0xf : UInt32) ≤ 8 from hp) (by decide)
    | some a =>
      have hpart : a.part = part := by
        rw [requested, ha] at hreq
        exact hreq
      refine ⟨a, ha, hpart, ?_, hne⟩
      by_contra hok
      exact hne ((reached_getLast ha (Bool.eq_true_of_not_eq_false hok)).trans hpart)

end SynaBoot.EmmcParts
