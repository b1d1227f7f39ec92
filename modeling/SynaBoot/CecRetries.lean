import Mathlib.Data.Nat.Count
import SynaBoot.CecTask

namespace SynaBoot.CecRetries

open SynaBoot.CecSrv
open SynaBoot.CecTask
open SynaBoot.Schedules

structure Failure where
  reg : UInt16
  elapsed : ℕ
  line : Bool
  failed : reg &&& intrTxFail ≠ 0
  only : reg &&& 0x00f0 = 0

structure Attempts where
  host : Host
  sys : System
  txtime : UInt32
  msg : TxMsg
  line : Bool
  fail : ℕ → Failure

namespace Attempts

variable (r : Attempts)

def start (s : State) : State :=
  task ⟨r.host, r.sys, r.txtime, r.line⟩
    (srvTxMsg r.sys r.txtime r.msg (enable r.sys.logicAddr true s))

def env (f : Failure) : Env := ⟨r.host, r.sys, r.txtime + UInt32.ofNat f.elapsed, f.line⟩

def round (f : Failure) (s : State) : State :=
  task (r.env f) (if s.busy then isr f.reg [] s else s)

def state (s : State) (n : ℕ) : State := after r.round r.fail (r.start s) n

def Retried (s : State) (n : ℕ) : Prop :=
  (r.state s n).taskState = .sending ∧ (r.state s (n + 1)).taskState = .sending

instance (s : State) : DecidablePred (r.Retried s) := fun _ => inferInstanceAs (Decidable (_ ∧ _))

def started : ℕ → Bool
  | 0 => r.line
  | n + 1 => (r.fail n).line

def reason (n : ℕ) : UInt8 := if r.started n then failReason (r.fail n).reg else txFailLineBusy

/-- A retry on a busy line leaves the last reason. -/
def recorded : ℕ → UInt8
  | 0 => r.reason 0
  | n + 1 => if r.started (n + 1) then failReason (r.fail (n + 1)).reg else recorded n

def counted (reason : ℕ → UInt8) (n : ℕ) : ℕ := Nat.count (fun k => reason k ≠ txFailSignalFreeTime) n

structure Bounded (s : State) : Prop where
  count : ∀ n, Nat.count (fun k => r.Retried s k ∧ r.reason k ≠ txFailSignalFreeTime) n ≤ 5
  time : ∀ n, r.Retried s n → (r.fail n).elapsed ≤ 6000

def Late (n : ℕ) : Prop :=
  6000 < (r.fail n).elapsed ∧
    (counted r.recorded n < 5 ∨ 6000 < CText.int32 (r.fail n).elapsed)

/-- Earlier failures were taken for signal-free time. -/
def Extra (n : ℕ) : Prop :=
  counted r.recorded n < 5 ∧ r.reason n ≠ txFailSignalFreeTime ∧ 5 ≤ counted r.reason n

def Retries (n : ℕ) : Prop :=
  counted r.recorded n % 256 < 5 ∨ 6000 < CText.int32 (r.fail n).elapsed

instance : DecidablePred r.Retries := fun _ => inferInstanceAs (Decidable (_ ∨ _))

structure Pending (s : State) (n : ℕ) : Prop where
  taskExit : s.taskExit = false
  taskState : s.taskState = .sending
  isr : s.isr = []
  short : s.txData.msg.length ≤ 16
  txtime : s.txData.txtime = r.txtime
  retransTime : s.retransTime = UInt8.ofNat (counted r.recorded n)
  attempt : r.started n = true ∧ s.busy = true ∧ s.app = [] ∨
    r.started n = false ∧ s.busy = false ∧ s.txData.cmd = .txFailed ∧
      s.txData.status = r.recorded n ∧ ∃ d, s.app = [d] ∧ d.cmd = .txFailed

structure Seen (s : State) (d : TaskData) (n : ℕ) : Prop where
  taskExit : s.taskExit = false
  taskState : s.taskState = .sending
  busy : s.busy = false
  short : s.txData.msg.length ≤ 16
  txtime : s.txData.txtime = r.txtime
  retransTime : s.retransTime = UInt8.ofNat (counted r.recorded n)
  txCmd : s.txData.cmd = .txFailed
  status : s.txData.status = r.recorded n
  cmd : d.cmd = .txFailed
  queues : s.isr = [d] ∧ s.app = [] ∨ s.isr = [] ∧ s.app = [d]

structure Over (s : State) : Prop where
  taskState : s.taskState ≠ .sending
  busy : s.busy = false
  isr : s.isr = []
  app : s.app = []

variable {r}

theorem counted_succ (reason : ℕ → UInt8) (n : ℕ) :
    counted reason (n + 1) =
      counted reason n + if reason n ≠ txFailSignalFreeTime then 1 else 0 := Nat.count_succ _ _

theorem isr_failure (f : Failure) (s : State) :
    isr f.reg [] s = sendTxStatus .txFailed (failReason f.reg) s := by
  have hbit {mask : UInt16} (hmask : mask &&& 0x00f0 = mask) : ¬ f.reg &&& mask ≠ 0 := by
    have hzero : f.reg &&& mask = 0 := by
      rw [← hmask, UInt16.and_comm mask, ← UInt16.and_assoc, f.only, UInt16.zero_and]
    exact not_not.mpr hzero
  unfold isr isrRx isrTx
  dsimp only
  rw [if_pos f.failed, if_neg (hbit rfl : ¬ f.reg &&& intrTxComplete ≠ 0),
    if_neg (hbit rfl : ¬ f.reg &&& intrRxFail ≠ 0), if_neg (hbit rfl : ¬ f.reg &&& intrRxComplete ≠ 0)]

variable {n : ℕ} {s : State} {d : TaskData}

theorem Pending.seen (h : r.Pending s n) :
    ∃ d, r.Seen (if s.busy then CecTask.isr (r.fail n).reg [] s else s) d n := by
  rcases h.attempt with ⟨hstarted, hbusy, happ⟩ | ⟨-, hbusy, hcmd, hstatus, d, happ, hd⟩
  · rw [if_pos hbusy, isr_failure]
    have hisr : (sendTxStatus .txFailed (failReason (r.fail n).reg) s).isr = s.isr ++ [_] :=
      writeFifo_room (by rw [show s.isrFifo.contents = [] from h.isr]; decide)
    have hrecorded : failReason (r.fail n).reg = r.recorded n := by
      cases n with
      | zero => rw [recorded, reason, if_pos hstarted]
      | succ n => rw [recorded, if_pos hstarted]
    rw [h.isr] at hisr
    exact ⟨_, h.taskExit, h.taskState, rfl, h.short, h.txtime, h.retransTime, rfl, hrecorded, rfl,
      .inl ⟨hisr, happ⟩⟩
  · have hne : ¬ s.busy = true := by
      rw [hbusy]
      exact Bool.false_ne_true
    rw [if_neg hne]
    exact ⟨d, h.taskExit, h.taskState, hbusy, h.short, h.txtime, h.retransTime, hcmd, hstatus, hd,
      .inr ⟨h.isr, happ⟩⟩

theorem Seen.taken (h : r.Seen s d n) :
    ∃ s', next s = some (d, s') ∧ Taken s d s' ∧ s'.isr = [] ∧ s'.app = [] := by
  rcases next_cases s with ⟨-, hisr, happ⟩ | ⟨d', s', hnext, ht⟩
  · rcases h.queues with ⟨hone, -⟩ | ⟨-, hone⟩
    · rw [hisr] at hone
      cases hone
    · rw [happ] at hone
      cases hone
  · rcases h.queues with ⟨hisr, happ⟩ | ⟨hisr, happ⟩
    · rcases ht.queues with ⟨hcons, happ'⟩ | ⟨hnil, -⟩
      · obtain ⟨rfl, hrest⟩ := List.cons.inj (hisr.symm.trans hcons)
        exact ⟨s', hnext, ht, hrest.symm, happ'.trans happ⟩
      · rw [hisr] at hnil
        cases hnil
    · rcases ht.queues with ⟨hcons, -⟩ | ⟨-, hnil, hcons⟩
      · rw [hisr] at hcons
        cases hcons
      · obtain ⟨rfl, hrest⟩ := List.cons.inj (happ.symm.trans hcons)
        exact ⟨s', hnext, ht, hnil, hrest.symm⟩

theorem elapsed_int32 (t : UInt32) (e : ℕ) :
    CText.int32 (t + UInt32.ofNat e - t).toNat = CText.int32 e := by
  have hsub : t + UInt32.ofNat e - t = UInt32.ofNat e := by
    rw [UInt32.add_comm, UInt32.add_sub_cancel]
  rw [hsub, UInt32.toNat_ofNat', Int.natCast_mod]
  exact Int.emod_bmod (e : ℤ) (2 ^ 32)

theorem retries_iff (h : r.Seen s d n) : retries (r.env (r.fail n)) s ↔ r.Retries n := by
  have hcount : s.retransTime < maxRetransTime ↔ counted r.recorded n % 256 < 5 := by
    rw [h.retransTime, UInt8.lt_iff_toNat_lt, UInt8.toNat_ofNat']
    exact Iff.rfl
  unfold retries
  rw [hcount, h.txtime]
  change _ ∨ 6000 < CText.int32 (r.txtime + UInt32.ofNat (r.fail n).elapsed - r.txtime).toNat ↔ _
  rw [elapsed_int32]
  rfl

theorem Seen.task (h : r.Seen s d n) :
    ∃ s', Taken s d s' ∧ s'.isr = [] ∧ s'.app = [] ∧
      task (r.env (r.fail n)) s =
        if r.Retries n then retransmit (r.env (r.fail n)) s' else endMessage s' := by
  obtain ⟨s', hnext, ht, hisr, happ⟩ := h.taken
  refine ⟨s', ht, hisr, happ, ?_⟩
  have hretries : retries (r.env (r.fail n)) s' ↔ r.Retries n := by
    rw [← retries_iff h, retries, retries, ht.retransTime, ht.txData]
  rw [task_taken h.taskExit hnext, ht.taskState, h.taskState]
  dsimp only
  unfold sending
  rw [h.cmd]
  dsimp only
  by_cases hr : r.Retries n
  · rw [if_pos hr, if_pos (hretries.mpr hr)]
  · rw [if_neg hr, if_neg (mt hretries.mp hr)]

theorem countRetrans_eq {s s' : State} (h : r.Seen s d n) (ht : Taken s d s') :
    countRetrans s' = UInt8.ofNat (counted r.recorded (n + 1)) := by
  unfold countRetrans
  rw [ht.txData, ht.retransTime, h.status, h.retransTime, counted_succ]
  by_cases hsft : r.recorded n ≠ txFailSignalFreeTime
  · rw [if_pos hsft, if_pos hsft, UInt8.ofNat_add]
    rfl
  · rw [if_neg hsft, if_neg hsft, Nat.add_zero]

theorem Seen.retried (h : r.Seen s d n) (hr : r.Retries n) :
    r.Pending (CecTask.task (r.env (r.fail n)) s) (n + 1) := by
  obtain ⟨s', ht, hisr, happ, heq⟩ := h.task
  have hshort : s'.txData.msg.length ≤ 16 := ht.txData ▸ h.short
  have htime : s'.txData.txtime = r.txtime := ht.txData ▸ h.txtime
  rw [heq, if_pos hr]
  cases hline : (r.fail n).line with
  | true =>
    rw [retransmit_started hline hshort]
    exact ⟨ht.taskExit.trans h.taskExit, ht.taskState.trans h.taskState, hisr, hshort, htime,
      countRetrans_eq h ht, .inl ⟨hline, rfl, happ⟩⟩
  | false =>
    rw [retransmit_refused hline]
    have hwrite : (writeFifo { s'.txData with retry := true } s'.appFifo).contents = s'.app ++ [_] :=
      writeFifo_room (by rw [show s'.appFifo.contents = [] from happ]; decide)
    rw [happ] at hwrite
    have hrecorded : r.recorded n = r.recorded (n + 1) := by
      have hne : ¬ r.started (n + 1) = true := by
        rw [started, hline]
        exact Bool.false_ne_true
      rw [recorded, if_neg hne]
    have hcmd : s'.txData.cmd = .txFailed := ht.txData ▸ h.txCmd
    have hstatus : s'.txData.status = r.recorded (n + 1) := by
      rw [ht.txData, h.status, hrecorded]
    exact ⟨ht.taskExit.trans h.taskExit, ht.taskState.trans h.taskState, hisr, hshort, htime,
      countRetrans_eq h ht,
      .inr ⟨hline, ht.busy.trans h.busy, hcmd, hstatus, _, hwrite, hcmd⟩⟩

theorem Seen.over (h : r.Seen s d n) (hr : ¬ r.Retries n) :
    Over (CecTask.task (r.env (r.fail n)) s) := by
  obtain ⟨s', ht, hisr, happ, heq⟩ := h.task
  rw [heq, if_neg hr]
  exact ⟨(by decide : TaskState.listening ≠ .sending), ht.busy.trans h.busy, hisr, happ⟩

theorem Over.round (h : Over s) (f : Failure) : r.round f s = s := by
  have hne : ¬ s.busy = true := by
    rw [h.busy]
    exact Bool.false_ne_true
  unfold Attempts.round CecTask.task
  rw [if_neg hne, next_none h.isr h.app]
  split <;> rfl

theorem pending_start (h : r.sys.logicAddr ≠ 0x0f) (s : State) : r.Pending (r.start s) 0 := by
  unfold start
  rw [enable_true h]
  generalize hq : srvTxMsg r.sys r.txtime r.msg _ = q
  have hisr : q.isr = [] := hq ▸ contents_clearFifo s.isrFifo
  have happ : q.app = [request r.sys r.txtime r.msg] := by
    have hnil : (clearFifo s.appFifo).contents = [] := contents_clearFifo s.appFifo
    rw [← hq]
    change (writeFifo _ (clearFifo s.appFifo)).contents = _
    rw [writeFifo_room (by rw [hnil]; decide), hnil]
    rfl
  have hexit : q.taskExit = false := hq ▸ rfl
  have hstate : q.taskState = .listening := hq ▸ rfl
  have hbusy : q.busy = false := hq ▸ rfl
  obtain ⟨hnext, hrest⟩ := next_app hisr happ
  have hlen : (request r.sys r.txtime r.msg).msg.length ≤ 16 := length_frameOf _ r.msg
  rw [task_taken hexit hnext]
  dsimp only
  rw [hstate]
  dsimp only
  have hzero : (0 : UInt8) = UInt8.ofNat (counted r.recorded 0) := rfl
  cases hline : r.line with
  | true =>
    rw [listening_started rfl rfl hlen]
    exact ⟨hexit, rfl, hisr, hlen, rfl, hzero, .inl ⟨hline, rfl, hrest⟩⟩
  | false =>
    rw [listening_refused rfl rfl]
    have hwrite {d : TaskData} : (writeFifo d q.appFifo.skip).contents = [d] := by
      rw [writeFifo_room (by rw [hrest]; decide), hrest]
      rfl
    have hrecorded : r.recorded 0 = txFailLineBusy := by
      have hne : ¬ r.started 0 = true := by
        rw [started, hline]
        exact Bool.false_ne_true
      rw [recorded, reason, if_neg hne]
    exact ⟨hexit, rfl, hisr, hlen, rfl, hzero,
      .inr ⟨hline, hbusy, rfl, hrecorded.symm, _, hwrite, rfl⟩⟩

theorem state_cases (h : r.sys.logicAddr ≠ 0x0f) (s : State) (n : ℕ) :
    (∀ k < n, r.Retries k) ∧ r.Pending (r.state s n) n ∨
      (¬ ∀ k < n, r.Retries k) ∧ Over (r.state s n) := by
  induction n with
  | zero => exact .inl ⟨fun k hk => absurd hk (Nat.not_lt_zero k), pending_start h s⟩
  | succ n ih =>
    rcases ih with ⟨hall, hp⟩ | ⟨hnot, hover⟩
    · obtain ⟨d, hseen⟩ := hp.seen
      by_cases hr : r.Retries n
      · refine .inl ⟨fun k hk => ?_, hseen.retried hr⟩
        rcases Nat.lt_succ_iff_lt_or_eq.mp hk with hk | rfl
        · exact hall k hk
        · exact hr
      · exact .inr ⟨fun hall' => hr (hall' n (Nat.lt_succ_self n)), hseen.over hr⟩
    · refine .inr ⟨fun hall => hnot fun k hk => hall k (Nat.lt_succ_of_lt hk), ?_⟩
      have hround : r.state s (n + 1) = r.state s n := hover.round (r.fail n)
      rw [hround]
      exact hover

theorem sending_iff (h : r.sys.logicAddr ≠ 0x0f) (s : State) (n : ℕ) :
    (r.state s n).taskState = .sending ↔ ∀ k < n, r.Retries k := by
  rcases state_cases h s n with ⟨hall, hp⟩ | ⟨hnot, hover⟩
  · exact ⟨fun _ => hall, fun _ => hp.taskState⟩
  · exact ⟨fun hs => absurd hs hover.taskState, fun hall => absurd hall hnot⟩

theorem retried_iff (h : r.sys.logicAddr ≠ 0x0f) (s : State) (n : ℕ) :
    r.Retried s n ↔ ∀ k < n + 1, r.Retries k := by
  unfold Retried
  rw [sending_iff h, sending_iff h]
  exact ⟨And.right, fun hall => ⟨fun k hk => hall k (Nat.lt_succ_of_lt hk), hall⟩⟩

theorem counted_le (h : ∀ k < n, counted r.recorded k < 5) : counted r.recorded n ≤ 5 := by
  cases n with
  | zero => exact Nat.zero_le 5
  | succ n =>
    have hlt := h n (Nat.lt_succ_self n)
    rw [counted_succ]
    split <;> omega

theorem int32_small {e : ℕ} (h : e ≤ 6000) : CText.int32 e = e := CText.int32_of_range (by omega)

theorem within_limits
    (h : ∀ n, (∀ k < n, counted r.recorded k < 5 ∧ (r.fail k).elapsed ≤ 6000) → ¬ r.Late n)
    (hr : ∀ k < n, r.Retries k) :
    ∀ k < n, counted r.recorded k < 5 ∧ (r.fail k).elapsed ≤ 6000 := by
  induction n with
  | zero => exact fun k hk => absurd hk (Nat.not_lt_zero k)
  | succ n ih =>
    have hbefore := ih fun k hk => hr k (Nat.lt_succ_of_lt hk)
    have hle := counted_le fun k hk => (hbefore k hk).1
    have hmod : counted r.recorded n % 256 = counted r.recorded n := Nat.mod_eq_of_lt (by omega)
    have hn := hr n (Nat.lt_succ_self n)
    rw [Retries, hmod] at hn
    have htime : (r.fail n).elapsed ≤ 6000 := by
      by_contra hlate
      exact h n hbefore ⟨Nat.not_le.mp hlate, hn⟩
    rw [int32_small htime] at hn
    intro k hk
    rcases Nat.lt_succ_iff_lt_or_eq.mp hk with hk | rfl
    · exact hbefore k hk
    · exact ⟨hn.resolve_right (by omega), htime⟩

/-- The retries are bounded exactly if the counter reaches its limit in time and counts them all. -/
theorem bounded_iff (h : r.sys.logicAddr ≠ 0x0f) (s : State) :
    r.Bounded s ↔ ∀ n, (∀ k < n, counted r.recorded k < 5 ∧ (r.fail k).elapsed ≤ 6000) →
      ¬ r.Late n ∧ ¬ r.Extra n := by
  constructor
  · rintro ⟨hcount, htime⟩ n hbefore
    have hretries (k : ℕ) (hk : k < n) : r.Retries k :=
      .inl (lt_of_le_of_lt (Nat.mod_le _ _) (hbefore k hk).1)
    have hall (hn : r.Retries n) : ∀ k < n + 1, r.Retries k := by
      intro k hk
      rcases Nat.lt_succ_iff_lt_or_eq.mp hk with hk | rfl
      · exact hretries k hk
      · exact hn
    refine ⟨fun hlate => ?_, fun hextra => ?_⟩
    · have hn : r.Retries n :=
        hlate.2.imp_left fun hlt => lt_of_le_of_lt (Nat.mod_le _ _) hlt
      exact absurd (htime n ((retried_iff h s n).mpr (hall hn))) (Nat.not_le.mpr hlate.1)
    · obtain ⟨hlt, hreason, hfive⟩ := hextra
      have hn := hall (.inl (lt_of_le_of_lt (Nat.mod_le _ _) hlt))
      have hsame : Nat.count (fun k => r.Retried s k ∧ r.reason k ≠ txFailSignalFreeTime) (n + 1) =
          counted r.reason (n + 1) := by
        unfold counted
        rw [Nat.count_eq_card_filter_range, Nat.count_eq_card_filter_range]
        congr 1
        refine Finset.filter_congr fun k hk => and_iff_right ?_
        have hk' : k < n + 1 := Finset.mem_range.mp hk
        exact (retried_iff h s k).mpr fun j hj => hn j (by omega)
      have hle := hcount (n + 1)
      rw [hsame, counted_succ, if_pos hreason] at hle
      omega
  · intro hok
    have hlimits {n : ℕ} (hr : r.Retried s n) :=
      within_limits (fun n hb => (hok n hb).1) ((retried_iff h s n).mp hr)
    refine ⟨fun n => ?_, fun n hr => (hlimits hr n (Nat.lt_succ_self n)).2⟩
    induction n with
    | zero => exact Nat.zero_le 5
    | succ n ih =>
      rw [Nat.count_succ]
      split
      · next hn =>
        have hbefore := hlimits hn.1
        have hextra := (hok n fun k hk => hbefore k (Nat.lt_succ_of_lt hk)).2
        have hlt : counted r.reason n < 5 := by
          by_contra hge
          exact hextra ⟨(hbefore n (Nat.lt_succ_self n)).1, hn.2, Nat.not_lt.mp hge⟩
        have hmono : Nat.count (fun k => r.Retried s k ∧ r.reason k ≠ txFailSignalFreeTime) n ≤
            counted r.reason n := Nat.count_mono_left fun k _ hk => hk.2
        omega
      · exact ih

theorem unacknowledged_bounded :
    let sys : System := ⟨.active, 1, 4, 0x1000, 4, []⟩
    let r : Attempts := ⟨.box, sys, 0, ⟨0, 0x90, [0]⟩, true, fun n =>
      ⟨0x0001, min (50 * n) 6000, true, by decide, by decide⟩⟩
    (r.state reset 5).taskState = .sending ∧ (r.state reset 6).taskState = .listening ∧
      r.Bounded reset := by
  intro sys r
  have hsame : r.recorded = r.reason := by
    funext n
    cases n <;> rfl
  refine ⟨by decide, by decide, (bounded_iff (by decide) reset).mpr fun n _ => ⟨?_, ?_⟩⟩
  · rintro ⟨hlate, -⟩
    exact absurd hlate (Nat.not_lt.mpr (Nat.min_le_right _ _))
  · rintro ⟨hlt, -, hge⟩
    rw [hsame] at hlt
    omega

theorem retried_forever :
    let sys : System := ⟨.active, 1, 4, 0x1000, 4, []⟩
    let r : Attempts := ⟨.box, sys, 0, ⟨0, 0x90, [0]⟩, true, fun n =>
      ⟨0x0001, 6001 + min (50 * n) 1000000, true, by decide, by decide⟩⟩
    (∀ n, r.Retried reset n) ∧ ¬ r.Bounded reset := by
  intro sys r
  have hall (n : ℕ) : r.Retried reset n := by
    refine (retried_iff (by decide) reset n).mpr fun k _ => .inr ?_
    have hle : min (50 * k) 1000000 ≤ 1000000 := Nat.min_le_right _ _
    change (6000 : ℤ) < CText.int32 (6001 + min (50 * k) 1000000 : ℕ)
    rw [CText.int32_of_range (by omega)]
    omega
  exact ⟨hall, fun h => absurd (h.time 0 (hall 0)) (by decide)⟩

end Attempts

end SynaBoot.CecRetries
