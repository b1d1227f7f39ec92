import SynaBoot.CText
import SynaBoot.IrSamples

namespace SynaBoot.KeyEvents

open SynaBoot.CText SynaBoot.IrSamples SynaBoot.Schedules

def keyNull : UInt32 := 0

def holdkeyFlag : UInt32 := (1 : UInt32) <<< 31

def upkeyFlag : UInt32 := (1 : UInt32) <<< 27

def holdkeyKey (key : UInt32) : UInt32 := key ||| holdkeyFlag

def key2upkey (key : UInt32) : UInt32 := key &&& ~~~holdkeyFlag ||| upkeyFlag

structure KeyEntry where
  keyBitpos : UInt32
  keyMask : UInt32
  irEncode : UInt32
  irKey : UInt32

def translateIrCode (code : UInt32) : List KeyEntry → UInt32
  | [] => keyNull
  | e :: table =>
    if e.irKey = keyNull then keyNull
    else if e.irEncode &&& e.keyMask = code >>> e.keyBitpos &&& e.keyMask then e.irKey
    else translateIrCode code table

structure Timing where
  frameCycleNormalMax : UInt32
  frameCycleFirstholdMax : UInt32
  holdKeySkipTime : ℤ

def nec : Timing := ⟨UInt32.ofNat (115000 * smSystemHz), UInt32.ofNat (60000 * smSystemHz), 3⟩

def tc9012 : Timing := ⟨UInt32.ofNat (115000 * smSystemHz), UInt32.ofNat (60000 * smSystemHz), 2⟩

def rc5 : Timing := ⟨UInt32.ofNat (115000 * smSystemHz), UInt32.ofNat (115000 * smSystemHz), 3⟩

def xmp : Timing := ⟨6225730, 6225730 / 2, 3⟩

structure Config where
  timing : Timing
  table : List KeyEntry
  flavor : UInt32

def Config.irHoldkeySend (c : Config) : Bool := c.flavor &&& 0x1 != 0

def Config.irUpkeySend (c : Config) : Bool := c.flavor >>> 1 &&& 0x1 != 0

structure Keys where
  keydown : Bool
  keyhold : Bool
  currkey : UInt32
  keydownTicks : UInt32
  lastkeyholdTicks : UInt32
  holdKeyCount : ℤ

def poweron : Keys := ⟨false, false, keyNull, 0, 0, 0⟩

structure Reading where
  code : UInt32
  isHold : Bool
  ticks : UInt32

def rawKey (table : List KeyEntry) (r : Reading) : UInt32 :=
  if r.code = noCode then keyNull
  else if r.isHold then holdkeyKey (translateIrCode r.code table)
  else translateIrCode r.code table

def filterHold (key : UInt32) : UInt32 := if key &&& holdkeyFlag ≠ 0 then keyNull else key

/-- A hold counts only for the key that is down. -/
def holdKey (t : Timing) (key ticks : UInt32) (s : Keys) : UInt32 × Keys :=
  if key = holdkeyKey s.currkey ∧ s.keydown then
    let s := { s with
      keyhold := true, lastkeyholdTicks := ticks, holdKeyCount := int32 (s.holdKeyCount + 1) }
    (if s.holdKeyCount < t.holdKeySkipTime then keyNull else key, s)
  else (keyNull, s)

def newKey (key ticks : UInt32) (s : Keys) : UInt32 × Keys :=
  if s.keydown then (keyNull, s)
  else (key, { s with keydown := true, currkey := key, keydownTicks := ticks, holdKeyCount := 0 })

def noKey (t : Timing) (ticks : UInt32) (s : Keys) : UInt32 × Keys :=
  if s.keydown then
    if s.keyhold then
      if t.frameCycleNormalMax < lengthCaculate ticks s.lastkeyholdTicks then
        (key2upkey s.currkey, { s with keydown := false, keyhold := false, currkey := keyNull })
      else (keyNull, s)
    else if t.frameCycleFirstholdMax < lengthCaculate ticks s.keydownTicks then
      (key2upkey s.currkey, { s with keydown := false, currkey := keyNull })
    else (keyNull, s)
  else (keyNull, s)

def trackKey (t : Timing) (key ticks : UInt32) (s : Keys) : UInt32 × Keys :=
  if key ≠ keyNull then
    if key &&& holdkeyFlag ≠ 0 then holdKey t key ticks s else newKey key ticks s
  else noKey t ticks s

def irPreprocessKey (c : Config) (r : Reading) (s : Keys) : UInt32 × Keys :=
  let key := rawKey c.table r
  if c.irHoldkeySend && !c.irUpkeySend then (key, s)
  else if !c.irHoldkeySend && !c.irUpkeySend then (filterHold key, s)
  else
    let (key, s) := trackKey c.timing key r.ticks s
    (if c.irHoldkeySend && c.irUpkeySend then key else filterHold key, s)

structure Trace where
  keys : Keys
  events : List UInt32

def step (c : Config) (r : Reading) (t : Trace) : Trace :=
  let (key, keys) := irPreprocessKey c r t.keys
  ⟨keys, t.events ++ if key = keyNull then [] else [key]⟩

structure Plain (key : UInt32) : Prop where
  ne_null : key ≠ keyNull
  hold : key &&& holdkeyFlag = 0
  up : key &&& upkeyFlag = 0

structure Press where
  key : UInt32
  holds : ℕ
  plain : Plain key

def Press.events (p : Press) : List UInt32 :=
  p.key :: (List.replicate p.holds (holdkeyKey p.key) ++ [key2upkey p.key])

def Bracketed (events : List UInt32) : Prop := ∃ ps : List Press, events <+: ps.flatMap Press.events

def Unflagged (table : List KeyEntry) (r : Reading) : Prop :=
  r.code ≠ noCode → translateIrCode r.code table &&& holdkeyFlag = 0 ∧
    translateIrCode r.code table &&& upkeyFlag = 0

inductive Moves (key : UInt32) (s : Keys) : UInt32 × Keys → Prop
  | quiet {s' : Keys} (hdown : s'.keydown = s.keydown) (hkey : s'.currkey = s.currkey) :
    Moves key s (keyNull, s')
  | down {s' : Keys} (hup : s.keydown = false) (hnull : key ≠ keyNull) (hflag : key &&& holdkeyFlag = 0)
    (hdown : s'.keydown = true) (hkey : s'.currkey = key) : Moves key s (key, s')
  | hold {s' : Keys} (hdown : s.keydown = true) (hdown' : s'.keydown = true)
    (hkey : s'.currkey = s.currkey) : Moves key s (holdkeyKey s.currkey, s')
  | up {s' : Keys} (hdown : s.keydown = true) (hup : s'.keydown = false) :
    Moves key s (key2upkey s.currkey, s')

section Steps

variable {t : Timing} {key ticks : UInt32} {s : Keys} {c : Config} {r : Reading}

theorem holdKey_moves : Moves key s (holdKey t key ticks s) := by
  unfold holdKey
  split
  · next h =>
    obtain ⟨hkey, hdown⟩ := h
    dsimp only
    split
    · exact .quiet rfl rfl
    · rw [hkey]
      exact .hold hdown hdown rfl
  · exact .quiet rfl rfl

theorem newKey_moves (hnull : key ≠ keyNull) (hflag : key &&& holdkeyFlag = 0) :
    Moves key s (newKey key ticks s) := by
  unfold newKey
  split
  · exact .quiet rfl rfl
  · next h => exact .down (Bool.eq_false_of_not_eq_true h) hnull hflag rfl rfl

theorem noKey_moves : Moves key s (noKey t ticks s) := by
  unfold noKey
  split
  · next hdown =>
    split
    · split
      · exact .up hdown rfl
      · exact .quiet rfl rfl
    · split
      · exact .up hdown rfl
      · exact .quiet rfl rfl
  · exact .quiet rfl rfl

theorem trackKey_moves : Moves key s (trackKey t key ticks s) := by
  unfold trackKey
  split
  · next hnull =>
    split
    · exact holdKey_moves
    · next hflag => exact newKey_moves hnull (not_not.mp hflag)
  · exact noKey_moves

theorem irPreprocessKey_moves (hhold : c.irHoldkeySend = true) (hup : c.irUpkeySend = true) :
    Moves (rawKey c.table r) s (irPreprocessKey c r s) := by
  have htrack : irPreprocessKey c r s = trackKey c.timing (rawKey c.table r) r.ticks s := by
    rw [irPreprocessKey, hhold, hup]
    rfl
  rw [htrack]
  exact trackKey_moves

theorem holdkeyKey_flag (key : UInt32) : holdkeyKey key &&& holdkeyFlag ≠ 0 := by
  intro h
  have hval := congrArg UInt32.toNat h
  rw [holdkeyKey, UInt32.toNat_and, UInt32.toNat_or, Nat.and_or_distrib_right, Nat.and_self] at hval
  exact absurd (Nat.or_eq_zero_iff.mp hval).2 (by decide)

theorem holdkeyKey_ne_null (key : UInt32) : holdkeyKey key ≠ keyNull :=
  fun h => absurd (UInt32.or_eq_zero_iff.mp h).2 (by decide)

theorem key2upkey_ne_null (key : UInt32) : key2upkey key ≠ keyNull :=
  fun h => absurd (UInt32.or_eq_zero_iff.mp h).2 (by decide)

theorem rawKey_plain (hr : Unflagged c.table r) (hnull : rawKey c.table r ≠ keyNull)
    (hflag : rawKey c.table r &&& holdkeyFlag = 0) : Plain (rawKey c.table r) := by
  refine ⟨hnull, hflag, ?_⟩
  unfold rawKey at hnull hflag ⊢
  split at hnull
  · exact absurd rfl hnull
  · next hcode =>
    rw [if_neg hcode] at hflag ⊢
    split at hflag
    · exact absurd hflag (holdkeyKey_flag _)
    · next hhold =>
      rw [if_neg hhold]
      exact (hr hcode).2

end Steps

def Tracked (t : Trace) : Prop :=
  ∃ ps : List Press,
    (t.keys.keydown = false ∧ t.events = ps.flatMap Press.events) ∨
      (t.keys.keydown = true ∧ Plain t.keys.currkey ∧ ∃ n, t.events = ps.flatMap Press.events ++
        t.keys.currkey :: List.replicate n (holdkeyKey t.keys.currkey))

section Runs

variable {c : Config} {t : Trace} {r : Reading}

theorem step_tracked (hhold : c.irHoldkeySend = true) (hup : c.irUpkeySend = true)
    (h : Tracked t) (hr : Unflagged c.table r) : Tracked (step c r t) := by
  obtain ⟨ps, h⟩ := h
  have hmoves := irPreprocessKey_moves (r := r) (s := t.keys) hhold hup
  rw [step]
  generalize irPreprocessKey c r t.keys = result at hmoves ⊢
  cases hmoves with
  | @quiet s' hdown hkey =>
    refine ⟨ps, ?_⟩
    dsimp only
    rw [if_pos rfl, List.append_nil, hdown, hkey]
    exact h
  | @down s' hkeyup hnull hflag hdown hkey =>
    obtain ⟨-, hevents⟩ := h.resolve_right fun h => Bool.false_ne_true (hkeyup.symm.trans h.1)
    refine ⟨ps, .inr ⟨hdown, ?_, 0, ?_⟩⟩
    · dsimp only
      rw [hkey]
      exact rawKey_plain hr hnull hflag
    · dsimp only
      rw [if_neg hnull, hevents, hkey]
      rfl
  | @hold s' hdown hdown' hkey =>
    obtain ⟨-, hplain, n, hevents⟩ := h.resolve_left fun h => Bool.false_ne_true (h.1.symm.trans hdown)
    refine ⟨ps, .inr ⟨hdown', ?_, n + 1, ?_⟩⟩
    · dsimp only
      rw [hkey]
      exact hplain
    · dsimp only
      rw [if_neg (holdkeyKey_ne_null _), hevents, hkey, List.append_assoc, List.cons_append,
        ← List.replicate_succ']
  | @up s' hdown hkeyup =>
    obtain ⟨-, hplain, n, hevents⟩ := h.resolve_left fun h => Bool.false_ne_true (h.1.symm.trans hdown)
    refine ⟨ps ++ [⟨t.keys.currkey, n, hplain⟩], .inl ⟨hkeyup, ?_⟩⟩
    dsimp only
    rw [if_neg (key2upkey_ne_null _), hevents, List.append_assoc, List.cons_append,
      List.flatMap_append, List.flatMap_singleton]
    rfl

theorem Tracked.bracketed (h : Tracked t) : Bracketed t.events := by
  obtain ⟨ps, ⟨-, hevents⟩ | ⟨-, hplain, n, hevents⟩⟩ := h
  · exact ⟨ps, hevents ▸ List.prefix_rfl⟩
  · refine ⟨ps ++ [⟨t.keys.currkey, n, hplain⟩], [key2upkey t.keys.currkey], ?_⟩
    rw [hevents, List.flatMap_append, List.flatMap_singleton, List.append_assoc, List.cons_append]
    rfl

/-- From power-on on, the events are well bracketed. -/
theorem key_events_bracketed {rs : List Reading} (hhold : c.irHoldkeySend = true)
    (hup : c.irUpkeySend = true) (hrs : ∀ r ∈ rs, Unflagged c.table r) :
    Bracketed (run (step c) ⟨poweron, []⟩ rs).events := by
  have hstart : Tracked ⟨poweron, []⟩ := ⟨[], .inl ⟨rfl, rfl⟩⟩
  have hok : Meets (step c) (fun _ r => Unflagged c.table r) ⟨poweron, []⟩ rs := Meets.of_mem hrs _
  exact (run_invariant (fun t r ht hr => step_tracked hhold hup ht hr) hstart hok).bracketed

end Runs

theorem held_key_bracketed :
    let c : Config := ⟨nec, [⟨0, 0xff, 0x05, 7⟩], 3⟩
    let rs : List Reading := [⟨5, false, 100⟩, ⟨5, true, 2500100⟩, ⟨5, true, 5000100⟩,
      ⟨5, true, 7500100⟩, ⟨noCode, false, 10000100⟩, ⟨noCode, false, 12500100⟩]
    (run (step c) ⟨poweron, []⟩ rs).events = [7, 0x80000007, 0x08000007] ∧
      Bracketed (run (step c) ⟨poweron, []⟩ rs).events := by
  refine ⟨by decide, key_events_bracketed rfl rfl fun r hr hcode => ?_⟩
  have hkey (code : UInt32) : translateIrCode code [⟨0, 0xff, 0x05, 7⟩] = 7 ∨
      translateIrCode code [⟨0, 0xff, 0x05, 7⟩] = keyNull := by
    rw [translateIrCode, if_neg (by decide)]
    split
    · exact .inl rfl
    · exact .inr rfl
  rcases hkey r.code with h | h
  · rw [h]
    decide
  · rw [h]
    decide

end SynaBoot.KeyEvents
