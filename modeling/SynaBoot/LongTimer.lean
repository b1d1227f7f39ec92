import Mathlib.Data.List.Chain
import SynaBoot.CText
import SynaBoot.IrSamples

namespace SynaBoot.LongTimer

open SynaBoot.CText SynaBoot.IrSamples SynaBoot.Schedules

def intMs : ℕ := 1000

def maxTimerMs : UInt32 := 0xFFFFFFFF

structure Timer where
  ticks : ℕ
  pending : Bool
  uptimeCalibrator : UInt32
  uptimeLongCalibrator : UInt32
  deriving DecidableEq, Repr

def poweron : Timer := ⟨0, false, 0, 0⟩

def Timer.currentVal (t : Timer) : ℤ := timerTicks - t.ticks

def Timer.readclock (t : Timer) : ℤ := smSystemHz * 1000 * 1000 - t.currentVal

def Timer.timems (t : Timer) : ℤ :=
  let timems := t.readclock.tdiv (smSystemHz * 1000)
  if timems < 1 ∧ t.pending then timems + intMs else timems

/-- `sm_apb_timer_getlongtimems`, the high word first. -/
def Timer.getlongtimems (t : Timer) : UInt32 × UInt32 :=
  let low := UInt32.ofInt t.timems
  let left := maxTimerMs - low
  if t.uptimeCalibrator < left then (t.uptimeLongCalibrator, low + t.uptimeCalibrator)
  else (1 + t.uptimeLongCalibrator, t.uptimeCalibrator - left - 1)

def Timer.isrTimer1 (t : Timer) : Timer :=
  if maxTimerMs - t.uptimeCalibrator < UInt32.ofNat intMs then
    { t with
      uptimeLongCalibrator := t.uptimeLongCalibrator + 1, uptimeCalibrator := 0, pending := false }
  else { t with uptimeCalibrator := t.uptimeCalibrator + UInt32.ofNat intMs, pending := false }

def Timer.pass (n : ℕ) (t : Timer) : Timer :=
  { t with
    ticks := (t.ticks + n) % timerTicks
    pending := t.pending || timerTicks ≤ t.ticks + n }

structure Instant where
  served : ℕ
  ms : ℕ
  deriving DecidableEq, Repr

structure Uptime where
  timer : Timer
  served : ℕ
  readings : List (UInt32 × UInt32)
  instants : List Instant
  deriving DecidableEq, Repr

def Uptime.now (u : Uptime) : Instant := ⟨u.served, u.timer.timems.toNat⟩

inductive Act where
  | pass (ticks : ℕ)
  | isr
  | read

def step : Act → Uptime → Uptime
  | .pass n, u => { u with timer := u.timer.pass n }
  | .isr, u => { u with timer := u.timer.isrTimer1, served := u.served + 1 }
  | .read, u => { u with
      readings := u.readings ++ [u.timer.getlongtimems], instants := u.instants ++ [u.now] }

def InTime (u : Uptime) : Act → Prop
  | .pass n =>
    if u.timer.pending then u.timer.ticks + n < smSystemHz * 1000
    else u.timer.ticks + n < timerTicks + smSystemHz * 1000
  | .isr => u.timer.pending
  | .read => True

instance (u : Uptime) : (a : Act) → Decidable (InTime u a)
  | .pass _ => inferInstanceAs (Decidable (if u.timer.pending then _ else _))
  | .isr => inferInstanceAs (Decidable (u.timer.pending = true))
  | .read => inferInstanceAs (Decidable True)

/-- The lexicographic order of the two words. -/
def NotLater (x y : UInt32 × UInt32) : Prop := x.1 < y.1 ∨ x.1 = y.1 ∧ x.2 ≤ y.2

def NeverBackwards (readings : List (UInt32 × UInt32)) : Prop := readings.Pairwise NotLater

namespace Instant

/-- How often the interrupt has carried into the high word. -/
def turn (a : Instant) : ℕ := a.served / 4294968

def offset (a : Instant) : ℕ := intMs * (a.served % 4294968) + a.ms

/-- The reader has already carried into the high word. -/
def Ahead (a : Instant) : Prop := 2 ^ 32 - 1 ≤ a.offset

instance (a : Instant) : Decidable a.Ahead := inferInstanceAs (Decidable (_ ≤ _))

def carried (a : Instant) : ℕ := a.turn + if a.Ahead then 1 else 0

def shown (a : Instant) : UInt32 × UInt32 := (UInt32.ofNat a.carried, UInt32.ofNat a.offset)

def Before (a b : Instant) : Prop := a.served < b.served ∨ a.served = b.served ∧ a.ms ≤ b.ms

/-- The low word is behind that of the reading before. -/
def FallsBehind (a b : Instant) : Prop :=
  a.Ahead ∧ a.carried = b.carried ∧
    (a.offset = 2 ^ 32 - 1 ∧ b.offset ≠ 2 ^ 32 - 1 ∨ a.turn < b.turn ∧ b.offset + 2 ^ 32 < a.offset)

def Wraps (a b : Instant) : Prop :=
  a.carried / 2 ^ 32 < b.carried / 2 ^ 32 ∧
    (b.carried % 2 ^ 32 < a.carried % 2 ^ 32 ∨
      a.carried % 2 ^ 32 = b.carried % 2 ^ 32 ∧ b.offset % 2 ^ 32 < a.offset % 2 ^ 32)

variable {a b : Instant}

theorem offset_le (ha : a.ms ≤ 1000) : a.offset ≤ 4294968000 := by
  unfold offset intMs
  omega

theorem carried_eq (a : Instant) : (a.Ahead ∧ a.carried = a.turn + 1) ∨ (¬ a.Ahead ∧ a.carried = a.turn) := by
  by_cases h : a.Ahead
  · exact .inl ⟨h, by rw [carried, if_pos h]⟩
  · exact .inr ⟨h, by rw [carried, if_neg h, Nat.add_zero]⟩

theorem Before.turn_le (hab : Before a b) : a.turn ≤ b.turn := by
  rcases hab with h | h
  · exact Nat.div_le_div_right (Nat.le_of_lt h)
  · exact Nat.div_le_div_right (Nat.le_of_eq h.1)

theorem Before.offset_le (hab : Before a b) (ha : a.ms ≤ 1000) (hturn : a.turn = b.turn) :
    a.offset ≤ b.offset := by
  unfold turn at hturn
  unfold Before at hab
  unfold offset intMs
  omega

theorem notLater_iff (hab : Before a b) (ha : a.ms ≤ 1000) (hb : b.ms ≤ 1000) :
    NotLater a.shown b.shown ↔ ¬ (FallsBehind a b ∨ Wraps a b) := by
  have hturn := hab.turn_le
  have hoffset := hab.offset_le ha
  have hoa := offset_le ha
  have hob := offset_le hb
  have hca := carried_eq a
  have hcb := carried_eq b
  unfold NotLater FallsBehind Wraps shown
  simp only [UInt32.lt_iff_toNat_lt, UInt32.le_iff_toNat_le, ← UInt32.toNat_inj, UInt32.toNat_ofNat']
  unfold Ahead at *
  generalize a.carried = ca at *
  generalize b.carried = cb at *
  generalize a.turn = ta at *
  generalize b.turn = tb at *
  generalize a.offset = oa at *
  generalize b.offset = ob at *
  omega

end Instant

structure Inv (u : Uptime) : Prop where
  ticks : u.timer.ticks < timerTicks
  soon : u.timer.pending = true → u.timer.ticks < smSystemHz * 1000
  low : u.timer.uptimeCalibrator = UInt32.ofNat (intMs * (u.served % 4294968))
  high : u.timer.uptimeLongCalibrator = UInt32.ofNat (u.served / 4294968)
  readings : u.readings = u.instants.map Instant.shown
  ms : ∀ a ∈ u.instants, a.ms ≤ 1000
  order : (u.instants ++ [u.now]).IsChain Instant.Before

section Steps

variable {t : Timer} {u : Uptime} {a : Act}

theorem Timer.timems_eq (hsoon : t.pending = true → t.ticks < smSystemHz * 1000) :
    t.timems = if t.pending then (1000 : ℕ) else (t.ticks / (smSystemHz * 1000) : ℕ) := by
  have hclock : t.readclock = (t.ticks : ℤ) := by
    unfold readclock currentVal timerTicks smSystemHz
    omega
  have hdiv : (t.ticks : ℤ).tdiv (smSystemHz * 1000) = (t.ticks / (smSystemHz * 1000) : ℕ) := rfl
  unfold timems
  dsimp only
  rw [hclock, hdiv]
  cases hp : t.pending with
  | false => rw [if_neg fun h => Bool.false_ne_true h.2, if_neg Bool.false_ne_true]
  | true =>
    have hzero : t.ticks / (smSystemHz * 1000) = 0 := Nat.div_eq_of_lt (hsoon hp)
    rw [hzero, if_pos ⟨by decide, rfl⟩, if_pos rfl]
    rfl

theorem Inv.now_ms (h : Inv u) : u.now.ms = if u.timer.pending then 1000 else u.timer.ticks / (smSystemHz * 1000) := by
  rw [Uptime.now, Timer.timems_eq h.soon]
  split <;> rfl

theorem Inv.now_le (h : Inv u) : u.now.ms ≤ 1000 := by
  rw [h.now_ms]
  split
  · exact le_rfl
  · have hticks := h.ticks
    unfold timerTicks at hticks
    unfold smSystemHz at *
    omega

theorem Inv.reading_eq (h : Inv u) : u.timer.getlongtimems = u.now.shown := by
  have hle := h.now_le
  have hms : u.timer.timems = (u.now.ms : ℤ) := by
    rw [h.now_ms, Timer.timems_eq h.soon]
  have hcal : u.timer.uptimeCalibrator.toNat = 1000 * (u.served % 4294968) := by
    rw [h.low, UInt32.toNat_ofNat', intMs]
    omega
  have hlow : (UInt32.ofInt u.timer.timems).toNat = u.now.ms := by
    rw [hms, toNat_ofInt]
    omega
  have hmax : maxTimerMs.toNat = 4294967295 := by decide
  have hleft : (maxTimerMs - UInt32.ofInt u.timer.timems).toNat = 4294967295 - u.now.ms := by
    rw [UInt32.toNat_sub, hlow, hmax]
    omega
  have hoffset : u.now.offset = 1000 * (u.served % 4294968) + u.now.ms := rfl
  have hone : (1 : UInt32).toNat = 1 := by decide
  rw [Timer.getlongtimems, Instant.shown]
  rcases u.now.carried_eq with ⟨hahead, hcarried⟩ | ⟨hahead, hcarried⟩
  · unfold Instant.Ahead at hahead
    rw [if_neg (by rw [UInt32.lt_iff_toNat_lt]; omega), hcarried, h.high, Nat.add_comm, UInt32.ofNat_add]
    refine Prod.ext rfl ?_
    rw [← UInt32.toNat_inj, UInt32.toNat_sub, UInt32.toNat_sub, hone, hleft, hcal, UInt32.toNat_ofNat',
      hoffset]
    omega
  · unfold Instant.Ahead at hahead
    rw [if_pos (by rw [UInt32.lt_iff_toNat_lt]; omega), hcarried, h.high]
    refine Prod.ext rfl ?_
    rw [← UInt32.toNat_inj, UInt32.toNat_add, hlow, hcal, UInt32.toNat_ofNat', hoffset, Nat.add_comm]

theorem before_refl (a : Instant) : a.Before a := .inr ⟨rfl, le_rfl⟩

theorem Instant.Before.trans {a b c : Instant} (hab : a.Before b) (hbc : b.Before c) : a.Before c := by
  unfold Instant.Before at *
  omega

theorem order_next {as : List Instant} {a b : Instant} (h : (as ++ [a]).IsChain Instant.Before)
    (hab : a.Before b) : (as ++ [b]).IsChain Instant.Before := by
  obtain ⟨has, -, hlast⟩ := List.isChain_append.mp h
  refine List.isChain_append.mpr ⟨has, List.isChain_singleton b, fun x hx y hy => ?_⟩
  rw [List.head?_cons, Option.mem_some_iff] at hy
  exact hy ▸ (hlast x hx a rfl).trans hab

theorem Inv.pass (h : Inv u) {n : ℕ} (hok : InTime u (.pass n)) : Inv (step (.pass n) u) := by
  have hticks := h.ticks
  have hms := h.now_ms
  have hpass : (u.timer.pass n).ticks < timerTicks ∧
      ((u.timer.pass n).pending = true → (u.timer.pass n).ticks < smSystemHz * 1000) ∧
      ((u.timer.pass n).pending = false → u.timer.pending = false ∧
        u.timer.ticks ≤ (u.timer.pass n).ticks) := by
    rw [InTime] at hok
    unfold Timer.pass
    unfold timerTicks smSystemHz at *
    dsimp only
    cases hp : u.timer.pending with
    | false =>
      rw [hp, if_neg Bool.false_ne_true] at hok
      simp only [Bool.false_or, decide_eq_true_eq, decide_eq_false_iff_not]
      refine ⟨by omega, fun hover => by omega, fun hunder => ⟨trivial, by omega⟩⟩
    | true =>
      rw [hp, if_pos rfl] at hok
      exact ⟨by omega, fun _ => by omega, fun hfalse => absurd hfalse (by simp)⟩
  obtain ⟨hlt, hsoon, hmore⟩ := hpass
  have hnow : (step (.pass n) u).now.ms =
      if (u.timer.pass n).pending then 1000 else (u.timer.pass n).ticks / (smSystemHz * 1000) := by
    change ((u.timer.pass n).timems).toNat = _
    rw [Timer.timems_eq hsoon]
    split <;> rfl
  refine ⟨hlt, hsoon, h.low, h.high, h.readings, h.ms, order_next h.order (.inr ⟨rfl, ?_⟩)⟩
  rw [hnow]
  cases hp : (u.timer.pass n).pending with
  | true => exact h.now_le
  | false =>
    obtain ⟨hp', hle⟩ := hmore hp
    rw [hms, hp']
    exact Nat.div_le_div_right hle

theorem Inv.isr (h : Inv u) : Inv (step .isr u) := by
  have hcal : u.timer.uptimeCalibrator.toNat = 1000 * (u.served % 4294968) := by
    rw [h.low, UInt32.toNat_ofNat', intMs]
    omega
  have hmax : maxTimerMs.toNat = 4294967295 := by decide
  have hleft : (maxTimerMs - u.timer.uptimeCalibrator).toNat =
      4294967295 - 1000 * (u.served % 4294968) := by
    rw [UInt32.toNat_sub, hcal, hmax]
    omega
  have hms : (UInt32.ofNat intMs).toNat = 1000 := by decide
  have hwords : (u.timer.isrTimer1).uptimeCalibrator = UInt32.ofNat (intMs * ((u.served + 1) % 4294968)) ∧
      (u.timer.isrTimer1).uptimeLongCalibrator = UInt32.ofNat ((u.served + 1) / 4294968) := by
    unfold Timer.isrTimer1
    split
    · next hcarry =>
      rw [UInt32.lt_iff_toNat_lt, hleft, hms] at hcarry
      have hmod : (u.served + 1) % 4294968 = 0 := by omega
      have hdiv : (u.served + 1) / 4294968 = u.served / 4294968 + 1 := by omega
      rw [hmod, hdiv, UInt32.ofNat_add, ← h.high, Nat.mul_zero]
      exact ⟨rfl, rfl⟩
    · next hcarry =>
      rw [UInt32.lt_iff_toNat_lt, hleft, hms] at hcarry
      have hmod : (u.served + 1) % 4294968 = u.served % 4294968 + 1 := by omega
      have hdiv : (u.served + 1) / 4294968 = u.served / 4294968 := by omega
      rw [hmod, hdiv, Nat.mul_add, Nat.mul_one, UInt32.ofNat_add, ← h.low, ← h.high]
      exact ⟨rfl, rfl⟩
  have hrest : (u.timer.isrTimer1).ticks = u.timer.ticks ∧ (u.timer.isrTimer1).pending = false := by
    unfold Timer.isrTimer1
    split <;> exact ⟨rfl, rfl⟩
  have hticks : (u.timer.isrTimer1).ticks < timerTicks := by
    rw [hrest.1]
    exact h.ticks
  change Inv ⟨u.timer.isrTimer1, u.served + 1, u.readings, u.instants⟩
  refine ⟨hticks, fun hp => ?_, hwords.1, hwords.2, h.readings, h.ms, ?_⟩
  · exact absurd (hrest.2.symm.trans hp) Bool.false_ne_true
  · refine order_next h.order ?_
    dsimp only [Uptime.now, Instant.Before]
    exact .inl (Nat.lt_add_one u.served)

theorem Inv.read (h : Inv u) : Inv (step .read u) := by
  refine ⟨h.ticks, h.soon, h.low, h.high, ?_, fun a ha => ?_, ?_⟩
  · change u.readings ++ [u.timer.getlongtimems] = (u.instants ++ [u.now]).map Instant.shown
    rw [h.readings, h.reading_eq, List.map_append]
    rfl
  · rcases List.mem_append.mp ha with ha | ha
    · exact h.ms a ha
    · rw [List.mem_singleton.mp ha]
      exact h.now_le
  · refine List.isChain_append.mpr ⟨h.order, List.isChain_singleton _, fun x hx y hy => ?_⟩
    change x ∈ (u.instants ++ [u.now]).getLast? at hx
    rw [List.getLast?_concat, Option.mem_some_iff] at hx
    rw [List.head?_cons, Option.mem_some_iff] at hy
    exact hx ▸ hy ▸ before_refl u.now

theorem Inv.step (h : Inv u) (a : Act) (hok : InTime u a) : Inv (LongTimer.step a u) := by
  cases a with
  | pass n => exact h.pass hok
  | isr => exact h.isr
  | read => exact h.read

end Steps

def start : Uptime := ⟨poweron, 0, [], []⟩

theorem inv_start : Inv start := by
  refine ⟨by decide, fun h => absurd h Bool.false_ne_true, by decide, by decide, rfl, ?_,
    List.isChain_singleton _⟩
  exact fun a ha => absurd ha List.not_mem_nil

instance : Trans NotLater NotLater NotLater where
  trans {x y z} hxy hyz := by
    unfold NotLater at *
    simp only [UInt32.lt_iff_toNat_lt, UInt32.le_iff_toNat_le, ← UInt32.toNat_inj] at *
    omega

/-- The uptime goes backwards exactly when a reading falls behind or the high word starts over. -/
theorem never_backwards_iff {acts : List Act} (hok : Meets step InTime start acts) :
    NeverBackwards (run step start acts).readings ↔
      (run step start acts).instants.IsChain fun a b => ¬ (a.FallsBehind b ∨ a.Wraps b) := by
  have hinv : Inv (run step start acts) := run_invariant (fun u a hu ha => hu.step a ha) inv_start hok
  have hchain := hinv.order.left_of_append
  rw [NeverBackwards, ← List.isChain_iff_pairwise, hinv.readings, List.isChain_map]
  rw [List.isChain_iff_getElem] at hchain ⊢
  rw [List.isChain_iff_getElem]
  refine forall_congr' fun i => forall_congr' fun hi => ?_
  exact Instant.notLater_iff (hchain i hi) (hinv.ms _ (List.getElem_mem _)) (hinv.ms _ (List.getElem_mem _))

theorem overflow_never_backwards :
    let acts : List Act := [.pass 20000000, .read, .pass 5000000, .isr, .read]
    (run step start acts).readings = [(0, 800), (0, 1000)] ∧
      NeverBackwards (run step start acts).readings := by
  refine ⟨by decide, (never_backwards_iff (by decide)).mpr (List.isChain_pair.mpr ?_)⟩
  rintro (h | h)
  · exact absurd h.1 (by decide)
  · exact absurd h.1 (by decide)

def seconds (n : ℕ) : List Act := (List.replicate n [Act.pass timerTicks, Act.isr]).flatten

theorem run_seconds (n : ℕ) :
    Meets step InTime start (seconds n) ∧ run step start (seconds n) =
      ⟨⟨0, false, UInt32.ofNat (intMs * (n % 4294968)), UInt32.ofNat (n / 4294968)⟩, n, [], []⟩ := by
  have hfields : Meets step InTime start (seconds n) ∧ ∃ low high,
      run step start (seconds n) = ⟨⟨0, false, low, high⟩, n, [], []⟩ := by
    induction n with
    | zero => exact ⟨trivial, _, _, rfl⟩
    | succ n ih =>
      obtain ⟨hok, low, high, hrun⟩ := ih
      have hsplit : seconds (n + 1) = seconds n ++ [.pass timerTicks, .isr] := by
        rw [seconds, List.replicate_succ', List.flatten_concat]
        rfl
      have hpass : Timer.pass timerTicks ⟨0, false, low, high⟩ = ⟨0, true, low, high⟩ := by
        rw [Timer.pass, Timer.mk.injEq]
        dsimp only
        refine ⟨by decide, ?_, rfl, rfl⟩
        rw [Bool.false_or, decide_eq_true_eq]
        exact Nat.le_add_left _ _
      have htime : InTime ⟨⟨0, false, low, high⟩, n, [], []⟩ (.pass timerTicks) := by
        rw [InTime, if_neg Bool.false_ne_true]
        dsimp only
        decide
      have hsecond : step (.pass timerTicks) ⟨⟨0, false, low, high⟩, n, [], []⟩ =
          ⟨⟨0, true, low, high⟩, n, [], []⟩ := by rw [step, hpass]
      rw [hsplit, Meets.append_iff, run_append, hrun, Meets, run, hsecond]
      refine ⟨⟨hok, htime, rfl, trivial⟩, ?_⟩
      change ∃ low' high', Uptime.mk (Timer.isrTimer1 ⟨0, true, low, high⟩) (n + 1) [] [] = _
      unfold Timer.isrTimer1
      split <;> exact ⟨_, _, rfl⟩
  obtain ⟨hok, low, high, hrun⟩ := hfields
  have hinv : Inv (run step start (seconds n)) := run_invariant (fun u a hu ha => hu.step a ha) inv_start hok
  rw [hrun] at hinv
  have hlow := hinv.low
  have hhigh := hinv.high
  dsimp only at hlow hhigh
  rw [hrun, hlow, hhigh]
  exact ⟨hok, rfl⟩

theorem carry_taken_back :
    let acts := seconds 4294967 ++ [.pass 24975000, .read, .pass 25000, .isr, .read]
    Meets step InTime start acts ∧ (run step start acts).readings = [(1, 703), (1, 0)] ∧
      ¬ NeverBackwards (run step start acts).readings := by
  intro acts
  obtain ⟨hok, hrun⟩ := run_seconds 4294967
  have hreadings : (run step start acts).readings = [(1, 703), (1, 0)] := by
    rw [run_append, hrun]
    decide +kernel
  refine ⟨?_, hreadings, ?_⟩
  · rw [Meets.append_iff, hrun]
    exact ⟨hok, by decide +kernel⟩
  · rw [hreadings]
    intro h
    have hpair := List.rel_of_pairwise_cons h List.mem_cons_self
    exact absurd hpair (by unfold NotLater; decide)

end SynaBoot.LongTimer
