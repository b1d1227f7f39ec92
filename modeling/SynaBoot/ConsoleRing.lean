import SynaBoot.ByteStore
import SynaBoot.Schedules

namespace SynaBoot.ConsoleRing

open SynaBoot.ByteStore SynaBoot.Schedules

def ringBufferMagic : UInt32 := 0x52494e47

def headSize : ℕ := 32

def minBufferSize : ℕ := 512

structure Ring where
  magic : UInt32
  curRd : ℕ
  curWr : ℕ
  bufferEnd : ℕ
  data : List UInt8
  deriving DecidableEq, Repr

def ringBufferAttach (baseAddress size : ℕ) (mem : Ring) : Option Ring :=
  if baseAddress = 0 ∨ size ≤ headSize + minBufferSize then none
  else if mem.magic ≠ ringBufferMagic then
    some { mem with
      curRd := 0, curWr := 0, bufferEnd := size - 1 - headSize, magic := ringBufferMagic }
  else if mem.bufferEnd ≠ size - 1 - headSize then none
  else some mem

def Ring.full (r : Ring) : Bool :=
  r.curWr + 1 == r.curRd || (r.curRd == 0 && r.curWr == r.bufferEnd)

/-- `none`: a failed assertion, an endless wait or a write outside. -/
def ringBufferPush (r : Ring) (buffer : List UInt8) : Option Ring :=
  if r.magic ≠ ringBufferMagic ∨ r.bufferEnd ≤ buffer.length ∨ r.full then none
  else
    let remaining := r.bufferEnd - r.curWr + 1
    if buffer.length < remaining then do
      let data ← store r.data r.curWr buffer
      some { r with data := data, curWr := r.curWr + buffer.length }
    else if remaining < r.bufferEnd then do
      let data ← store r.data r.curWr (buffer.take remaining)
      let data ← store data 0 (buffer.drop remaining)
      some { r with data := data, curWr := buffer.length - remaining }
    else none

def ringBufferPop (r : Ring) (maxSize : ℕ) : Option (List UInt8 × Ring) :=
  if r.magic ≠ ringBufferMagic then none
  else if r.curRd = r.curWr then some ([], r)
  else if r.curRd < r.curWr then do
    let dataSize := min maxSize (r.curWr - r.curRd)
    let bytes ← fetch r.data r.curRd dataSize
    some (bytes, { r with curRd := r.curRd + dataSize })
  else
    let remaining := r.bufferEnd - r.curRd + 1
    if maxSize < remaining then do
      let bytes ← fetch r.data r.curRd maxSize
      some (bytes, { r with curRd := r.curRd + maxSize })
    else if remaining ≤ r.bufferEnd then do
      let dataSize := min maxSize (remaining + r.curWr)
      let bytes ← fetch r.data r.curRd remaining
      let bytes' ← fetch r.data 0 (dataSize - remaining)
      some (bytes ++ bytes', { r with curRd := dataSize - remaining })
    else none

def ringBufferNotEmpty (r : Ring) : ℕ := if r.curRd = r.curWr then 0 else 1

structure Trace where
  ring : Ring
  pushed : List UInt8
  popped : List UInt8

inductive Act where
  | push (buffer : List UInt8)
  | pop (maxSize : ℕ)

def step : Act → Trace → Trace
  | .push buffer, t =>
    match ringBufferPush t.ring buffer with
    | some ring => { t with ring := ring, pushed := t.pushed ++ buffer }
    | none => t
  | .pop maxSize, t =>
    match ringBufferPop t.ring maxSize with
    | some (bytes, ring) => { t with ring := ring, popped := t.popped ++ bytes }
    | none => t

def Returns (t : Trace) : Act → Prop
  | .push buffer => (ringBufferPush t.ring buffer).isSome
  | .pop _ => True

instance (t : Trace) : (a : Act) → Decidable (Returns t a)
  | .push _ => inferInstanceAs (Decidable (_ = true))
  | .pop _ => inferInstanceAs (Decidable True)

structure Fifo (t : Trace) : Prop where
  order : t.popped <+: t.pushed
  empty : ringBufferNotEmpty t.ring = 0 ↔ t.popped = t.pushed

namespace Ring

def used (r : Ring) : ℕ :=
  if r.curRd ≤ r.curWr then r.curWr - r.curRd else r.bufferEnd + 1 - r.curRd + r.curWr

def slice (r : Ring) (pos n : ℕ) : List UInt8 := (r.data.drop pos).take n

def contents (r : Ring) : List UInt8 :=
  if r.curRd ≤ r.curWr then r.slice r.curRd (r.curWr - r.curRd)
  else r.slice r.curRd (r.bufferEnd + 1 - r.curRd) ++ r.slice 0 r.curWr

structure Wf (r : Ring) : Prop where
  magic : r.magic = ringBufferMagic
  length : r.data.length = r.bufferEnd + 1
  rd : r.curRd ≤ r.bufferEnd
  wr : r.curWr ≤ r.bufferEnd

end Ring

def HasRoom (t : Trace) : Act → Prop
  | .push buffer => t.ring.used + buffer.length ≤ t.ring.bufferEnd
  | .pop _ => True

instance (t : Trace) : (a : Act) → Decidable (HasRoom t a)
  | .push _ => inferInstanceAs (Decidable (_ ≤ _))
  | .pop _ => inferInstanceAs (Decidable True)

section Slices

variable {r r' : Ring} {pos n m : ℕ} {bs : List UInt8}

theorem slice_add : r.slice pos (m + n) = r.slice pos m ++ r.slice (pos + m) n := by
  rw [Ring.slice, Ring.slice, Ring.slice, List.take_add, List.drop_drop]

theorem length_slice (h : pos + n ≤ r.data.length) : (r.slice pos n).length = n := by
  rw [Ring.slice, List.length_take, List.length_drop]
  omega

theorem fetch_slice (h : pos + n ≤ r.data.length) : fetch r.data pos n = some (r.slice pos n) :=
  fetch_room h

theorem slice_store (h : store r.data pos bs = some r'.data) : r'.slice pos bs.length = bs := by
  have hroom := room_of_store h
  have hfetch := fetch_store h
  rw [fetch_slice (by rw [length_store h]; exact hroom)] at hfetch
  exact Option.some.inj hfetch

theorem slice_apart (h : store r.data pos bs = some r'.data) {q k : ℕ} (hk : q + k ≤ r.data.length)
    (hapart : q + k ≤ pos ∨ pos + bs.length ≤ q) : r'.slice q k = r.slice q k := by
  have hfetch := fetch_store_apart h hapart
  rw [fetch_slice (by rw [length_store h]; exact hk), fetch_slice hk] at hfetch
  exact Option.some.inj hfetch

theorem length_contents (h : r.Wf) : r.contents.length = r.used := by
  have hlen := h.length
  have hrd := h.rd
  have hwr := h.wr
  unfold Ring.contents Ring.used
  split
  · exact length_slice (by omega)
  · rw [List.length_append, length_slice (by omega), length_slice (by omega)]

end Slices

section Operations

variable {r r' : Ring} {buffer : List UInt8} {maxSize : ℕ}

structure Pushes (r : Ring) (buffer : List UInt8) (r' : Ring) : Prop where
  wf : r'.Wf
  bufferEnd : r'.bufferEnd = r.bufferEnd
  room : r.used + buffer.length ≤ r.bufferEnd → r'.contents = r.contents ++ buffer
  turn : ¬ r.used + buffer.length ≤ r.bufferEnd →
    r'.used + (r.bufferEnd + 1) = r.used + buffer.length

theorem push_straight (h : r.Wf) {data : List UInt8} (hdata : store r.data r.curWr buffer = some data)
    (hroom : r.curWr + buffer.length ≤ r.bufferEnd) :
    Pushes r buffer { r with data := data, curWr := r.curWr + buffer.length } := by
  have hlen := h.length
  have hrd := h.rd
  have hstore : store r.data r.curWr buffer =
      some { r with data := data, curWr := r.curWr + buffer.length }.data := hdata
  have hnew := slice_store hstore
  refine ⟨⟨h.magic, (length_store hdata).trans h.length, h.rd, hroom⟩, rfl, fun hused => ?_, fun hused => ?_⟩
  · unfold Ring.contents
    unfold Ring.used at hused
    dsimp only
    by_cases hle : r.curRd ≤ r.curWr
    · have hsum : r.curWr + buffer.length - r.curRd = r.curWr - r.curRd + buffer.length := by omega
      have hpos : r.curRd + (r.curWr - r.curRd) = r.curWr := by omega
      rw [if_pos hle, if_pos (by omega), hsum, slice_add, hpos, hnew,
        slice_apart hstore (by omega) (.inl (by omega))]
    · rw [if_neg hle] at hused
      rw [if_neg hle, if_neg (by omega), slice_add, Nat.zero_add, hnew,
        slice_apart hstore (by omega) (.inr (by omega)),
        slice_apart hstore (by omega) (.inl (by omega)), List.append_assoc]
  · unfold Ring.used at *
    dsimp only
    split_ifs at * <;> omega

theorem push_wrapped (h : r.Wf) {front data : List UInt8}
    (hfront : store r.data r.curWr (buffer.take (r.bufferEnd - r.curWr + 1)) = some front)
    (hdata : store front 0 (buffer.drop (r.bufferEnd - r.curWr + 1)) = some data)
    (hsize : buffer.length < r.bufferEnd) (hwrap : r.bufferEnd - r.curWr + 1 ≤ buffer.length) :
    Pushes r buffer
      { r with data := data, curWr := buffer.length - (r.bufferEnd - r.curWr + 1) } := by
  have hlen := h.length
  have hrd := h.rd
  have hwr := h.wr
  have htake : (buffer.take (r.bufferEnd - r.curWr + 1)).length = r.bufferEnd - r.curWr + 1 := by
    rw [List.length_take]
    omega
  have hdrop : (buffer.drop (r.bufferEnd - r.curWr + 1)).length =
      buffer.length - (r.bufferEnd - r.curWr + 1) := List.length_drop
  let r₁ : Ring := { r with data := front }
  let r₂ : Ring := { r with data := data, curWr := buffer.length - (r.bufferEnd - r.curWr + 1) }
  have hstore : store r.data r.curWr (buffer.take (r.bufferEnd - r.curWr + 1)) = some r₁.data := hfront
  have hstore' : store r₁.data 0 (buffer.drop (r.bufferEnd - r.curWr + 1)) = some r₂.data := hdata
  have hlen' : r₁.data.length = r.bufferEnd + 1 := (length_store hfront).trans hlen
  have hnew := slice_store hstore
  have hnew' := slice_store hstore'
  rw [htake] at hnew
  rw [hdrop] at hnew'
  refine ⟨⟨h.magic, (length_store hdata).trans hlen', h.rd, ?_⟩, rfl, fun hused => ?_, fun hused => ?_⟩
  · dsimp only
    omega
  · -- a block that wraps has room only behind what is to be popped
    have hle : r.curRd ≤ r.curWr := by
      by_contra hgt
      unfold Ring.used at hused
      rw [if_neg hgt] at hused
      omega
    unfold Ring.used at hused
    rw [if_pos hle] at hused
    have hsum : r.bufferEnd + 1 - r.curRd = r.curWr - r.curRd + (r.bufferEnd - r.curWr + 1) := by omega
    have hpos : r.curRd + (r.curWr - r.curRd) = r.curWr := by omega
    have hold : r₂.slice r.curRd (r.curWr - r.curRd) = r.slice r.curRd (r.curWr - r.curRd) := by
      rw [slice_apart hstore' (by omega) (.inr (by omega)),
        slice_apart hstore (by omega) (.inl (by omega))]
    have htail : r₂.slice r.curWr (r.bufferEnd - r.curWr + 1) = buffer.take (r.bufferEnd - r.curWr + 1) := by
      rw [slice_apart hstore' (by omega) (.inr (by omega)), hnew]
    change r₂.contents = _
    have hcontents : r₂.contents = r₂.slice r.curRd (r.bufferEnd + 1 - r.curRd) ++
        r₂.slice 0 (buffer.length - (r.bufferEnd - r.curWr + 1)) := by
      refine if_neg ?_
      dsimp only [r₂]
      omega
    rw [hcontents, hsum, slice_add, hpos, hold, htail, hnew', Ring.contents, if_pos hle,
      List.append_assoc, List.take_append_drop]
  · unfold Ring.used at *
    dsimp only
    split_ifs at * <;> omega

theorem push_pushes (h : r.Wf) (hpush : ringBufferPush r buffer = some r') : Pushes r buffer r' := by
  have hlen := h.length
  have hwr := h.wr
  unfold ringBufferPush at hpush
  split at hpush
  · cases hpush
  · next hok =>
    simp only [not_or, Nat.not_le] at hok
    dsimp only at hpush
    split at hpush
    · next hstraight =>
      rw [Option.bind_eq_bind, Option.bind_eq_some_iff] at hpush
      obtain ⟨data, hdata, hr'⟩ := hpush
      rw [← Option.some.inj hr']
      exact push_straight h hdata (by omega)
    · next hwrap =>
      split at hpush
      · rw [Option.bind_eq_bind, Option.bind_eq_some_iff] at hpush
        obtain ⟨front, hfront, hpush⟩ := hpush
        rw [Option.bind_eq_some_iff] at hpush
        obtain ⟨data, hdata, hr'⟩ := hpush
        rw [← Option.some.inj hr']
        exact push_wrapped h hfront hdata hok.2.1 (by omega)
      · cases hpush

structure Pops (r : Ring) (maxSize : ℕ) (bytes : List UInt8) (r' : Ring) : Prop where
  wf : r'.Wf
  bufferEnd : r'.bufferEnd = r.bufferEnd
  contents : bytes ++ r'.contents = r.contents
  length : bytes.length = min maxSize r.used

theorem pops_within (h : r.Wf) (hlt : r.curRd < r.curWr) (n : ℕ) :
    Pops r n (r.slice r.curRd (min n (r.curWr - r.curRd)))
      { r with curRd := r.curRd + min n (r.curWr - r.curRd) } := by
  have hlen := h.length
  have hwr := h.wr
  refine ⟨⟨h.magic, h.length, ?_, h.wr⟩, rfl, ?_, ?_⟩
  · dsimp only
    omega
  · have hsum : r.curWr - r.curRd = min n (r.curWr - r.curRd) +
        (r.curWr - (r.curRd + min n (r.curWr - r.curRd))) := by omega
    have hcontents : r.contents = r.slice r.curRd (min n (r.curWr - r.curRd) +
        (r.curWr - (r.curRd + min n (r.curWr - r.curRd)))) := by
      rw [← hsum, Ring.contents, if_pos hlt.le]
    rw [hcontents, slice_add, Ring.contents, if_pos (by dsimp only; omega)]
    rfl
  · rw [length_slice (by omega), Ring.used, if_pos hlt.le]

theorem pops_front (h : r.Wf) (hgt : r.curWr < r.curRd) {n : ℕ} (hn : n < r.bufferEnd - r.curRd + 1) :
    Pops r n (r.slice r.curRd n) { r with curRd := r.curRd + n } := by
  have hlen := h.length
  have hrd := h.rd
  refine ⟨⟨h.magic, h.length, ?_, h.wr⟩, rfl, ?_, ?_⟩
  · dsimp only
    omega
  · have hsum : r.bufferEnd + 1 - r.curRd = n + (r.bufferEnd + 1 - (r.curRd + n)) := by omega
    rw [Ring.contents, Ring.contents, if_neg (Nat.not_le.mpr hgt), if_neg (by dsimp only; omega), hsum,
      slice_add, List.append_assoc]
    rfl
  · rw [length_slice (by omega), Ring.used, if_neg (Nat.not_le.mpr hgt)]
    omega

theorem pops_wrapped (h : r.Wf) (hgt : r.curWr < r.curRd) {n k : ℕ}
    (hn : r.bufferEnd - r.curRd + 1 ≤ n)
    (hk : k = min n (r.bufferEnd - r.curRd + 1 + r.curWr) - (r.bufferEnd - r.curRd + 1)) :
    Pops r n (r.slice r.curRd (r.bufferEnd - r.curRd + 1) ++ r.slice 0 k) { r with curRd := k } := by
  have hlen := h.length
  have hrd := h.rd
  have hwr := h.wr
  refine ⟨⟨h.magic, h.length, ?_, h.wr⟩, rfl, ?_, ?_⟩
  · dsimp only
    omega
  · have hsum : r.curWr = k + (r.curWr - k) := by omega
    have hremaining : r.bufferEnd + 1 - r.curRd = r.bufferEnd - r.curRd + 1 := by omega
    have hfirst : r.slice 0 r.curWr = r.slice 0 k ++ r.slice k (r.curWr - k) := by
      rw [hsum, slice_add, Nat.zero_add, ← hsum]
    rw [Ring.contents, Ring.contents, if_pos (by dsimp only; omega), if_neg (Nat.not_le.mpr hgt),
      hremaining, hfirst, List.append_assoc]
    rfl
  · rw [List.length_append, length_slice (by omega), length_slice (by omega), Ring.used,
      if_neg (Nat.not_le.mpr hgt)]
    omega

theorem pop_pops (h : r.Wf) (n : ℕ) :
    ∃ bytes r', ringBufferPop r n = some (bytes, r') ∧ Pops r n bytes r' := by
  have hlen := h.length
  have hrd := h.rd
  have hwr := h.wr
  have hfetch {pos k : ℕ} (hroom : pos + k ≤ r.bufferEnd + 1) : fetch r.data pos k = some (r.slice pos k) :=
    fetch_slice (by omega)
  rw [ringBufferPop, if_neg (not_not.mpr h.magic)]
  obtain hlt | heq | hgt := Nat.lt_trichotomy r.curRd r.curWr
  · rw [if_neg hlt.ne, if_pos hlt]
    dsimp only
    rw [hfetch (by omega)]
    exact ⟨_, _, rfl, pops_within h hlt n⟩
  · rw [if_pos heq]
    refine ⟨[], r, rfl, h, rfl, rfl, ?_⟩
    rw [Ring.used, if_pos heq.le, heq, Nat.sub_self, Nat.min_zero]
    rfl
  · rw [if_neg hgt.ne', if_neg (Nat.not_lt.mpr hgt.le)]
    dsimp only
    by_cases hshort : n < r.bufferEnd - r.curRd + 1
    · rw [if_pos hshort, hfetch (by omega)]
      exact ⟨_, _, rfl, pops_front h hgt hshort⟩
    · rw [if_neg hshort, if_pos (by omega), hfetch (by omega), hfetch (by omega)]
      exact ⟨_, _, rfl, pops_wrapped h hgt (by omega) rfl⟩

end Operations

structure Intact (t : Trace) : Prop where
  wf : t.ring.Wf
  bytes : t.popped ++ t.ring.contents = t.pushed

structure Short (t : Trace) : Prop where
  wf : t.ring.Wf
  bytes : t.popped.length + t.ring.used < t.pushed.length

section Runs

variable {t : Trace} {a : Act}

theorem notEmpty_iff {r : Ring} (h : r.Wf) : ringBufferNotEmpty r = 0 ↔ r.contents = [] := by
  have hrd := h.rd
  have hwr := h.wr
  rw [← List.length_eq_zero_iff, length_contents h, ringBufferNotEmpty, Ring.used]
  by_cases heq : r.curRd = r.curWr
  · rw [if_pos heq, if_pos heq.le]
    exact iff_of_true rfl (by omega)
  · rw [if_neg heq]
    refine iff_of_false Nat.one_ne_zero ?_
    split <;> omega

theorem Intact.fifo (h : Intact t) : Fifo t := by
  refine ⟨⟨t.ring.contents, h.bytes⟩, ?_⟩
  rw [notEmpty_iff h.wf, ← h.bytes]
  exact List.self_eq_append_right.symm

theorem step_push {buffer : List UInt8} (h : t.ring.Wf) (hret : Returns t (.push buffer)) :
    ∃ ring, step (.push buffer) t = { t with ring := ring, pushed := t.pushed ++ buffer } ∧
      Pushes t.ring buffer ring := by
  obtain ⟨ring, hring⟩ := Option.isSome_iff_exists.mp hret
  refine ⟨ring, ?_, push_pushes h hring⟩
  rw [step, hring]

theorem step_pop {n : ℕ} (h : t.ring.Wf) :
    ∃ bytes ring, step (.pop n) t = { t with ring := ring, popped := t.popped ++ bytes } ∧
      Pops t.ring n bytes ring := by
  obtain ⟨bytes, ring, hring, hpops⟩ := pop_pops h n
  refine ⟨bytes, ring, ?_, hpops⟩
  rw [step, hring]

theorem Intact.step (h : Intact t) (hret : Returns t a) (hroom : HasRoom t a) :
    Intact (ConsoleRing.step a t) := by
  cases a with
  | push buffer =>
    obtain ⟨ring, hstep, hpush⟩ := step_push h.wf hret
    rw [hstep]
    refine ⟨hpush.wf, ?_⟩
    dsimp only
    rw [hpush.room hroom, ← List.append_assoc, h.bytes]
  | pop n =>
    obtain ⟨bytes, ring, hstep, hpop⟩ := step_pop (n := n) h.wf
    rw [hstep]
    refine ⟨hpop.wf, ?_⟩
    dsimp only
    rw [List.append_assoc, hpop.contents, h.bytes]

theorem Intact.lost (h : Intact t) (hret : Returns t a) (hroom : ¬ HasRoom t a) :
    Short (ConsoleRing.step a t) := by
  cases a with
  | push buffer =>
    obtain ⟨ring, hstep, hpush⟩ := step_push h.wf hret
    have hturn := hpush.turn hroom
    have hbytes := congrArg List.length h.bytes
    rw [List.length_append, length_contents h.wf] at hbytes
    rw [hstep]
    refine ⟨hpush.wf, ?_⟩
    dsimp only
    rw [List.length_append]
    omega
  | pop n => exact absurd trivial hroom

theorem Short.step (h : Short t) (hret : Returns t a) : Short (ConsoleRing.step a t) := by
  have hbytes := h.bytes
  cases a with
  | push buffer =>
    obtain ⟨ring, hstep, hpush⟩ := step_push h.wf hret
    rw [hstep]
    refine ⟨hpush.wf, ?_⟩
    dsimp only
    rw [List.length_append]
    by_cases hroom : t.ring.used + buffer.length ≤ t.ring.bufferEnd
    · have hused := congrArg List.length (hpush.room hroom)
      rw [List.length_append, length_contents hpush.wf, length_contents h.wf] at hused
      omega
    · have hturn := hpush.turn hroom
      omega
  | pop n =>
    obtain ⟨bytes, ring, hstep, hpop⟩ := step_pop (n := n) h.wf
    have hused := congrArg List.length hpop.contents
    rw [List.length_append, length_contents hpop.wf, length_contents h.wf] at hused
    rw [hstep]
    refine ⟨hpop.wf, ?_⟩
    dsimp only
    rw [List.length_append]
    omega

theorem Short.not_fifo (h : Short t) : ¬ Fifo (ConsoleRing.step (.pop t.ring.used) t) := by
  intro hfifo
  obtain ⟨bytes, ring, hstep, hpop⟩ := step_pop (n := t.ring.used) h.wf
  have hused := congrArg List.length hpop.contents
  have hlen := hpop.length
  rw [List.length_append, length_contents h.wf] at hused
  rw [Nat.min_self] at hlen
  rw [hstep] at hfifo
  have hnil : ring.contents = [] := List.length_eq_zero_iff.mp (by omega)
  have hall := congrArg List.length (hfifo.empty.mp ((notEmpty_iff hpop.wf).mpr hnil))
  have hbytes := h.bytes
  dsimp only at hall
  rw [List.length_append] at hall
  omega

variable {acts : List Act}

theorem run_short (h : Short t) (hret : Meets step Returns t acts) : Short (run step t acts) :=
  run_invariant (fun _ _ ht ha => ht.step ha) h hret

theorem run_intact_or_short (h : Intact t) (hret : Meets step Returns t acts) :
    Meets step HasRoom t acts ∧ Intact (run step t acts) ∨
      ¬ Meets step HasRoom t acts ∧ Short (run step t acts) := by
  induction acts generalizing t with
  | nil => exact .inl ⟨trivial, h⟩
  | cons a acts ih =>
    by_cases hroom : HasRoom t a
    · rcases ih (h.step hret.1 hroom) hret.2 with ⟨hrest, hend⟩ | ⟨hrest, hend⟩
      · exact .inl ⟨⟨hroom, hrest⟩, hend⟩
      · exact .inr ⟨fun hmeets => hrest hmeets.2, hend⟩
    · have hend : Short (run step (step a t) acts) := run_short (h.lost hret.1 hroom) hret.2
      exact .inr ⟨fun hmeets => hroom hmeets.1, hend⟩

end Runs

theorem wf_of_attach {baseAddress size : ℕ} {mem r : Ring}
    (hattach : ringBufferAttach baseAddress size mem = some r)
    (hdata : mem.data.length = size - headSize) (hempty : r.curRd = r.curWr)
    (hwr : r.curWr ≤ r.bufferEnd) : r.Wf := by
  unfold ringBufferAttach at hattach
  split at hattach
  · cases hattach
  · next hsize =>
    rw [not_or, Nat.not_le, headSize, minBufferSize] at hsize
    rw [headSize] at hdata
    split at hattach
    · rw [← Option.some.inj hattach]
      refine ⟨rfl, ?_, Nat.zero_le _, Nat.zero_le _⟩
      dsimp only
      rw [hdata, headSize]
      omega
    · next hmagic =>
      split at hattach
      · cases hattach
      · next hend =>
        rw [not_not] at hmagic hend
        rw [Option.some.inj hattach] at hmagic hend hdata
        rw [headSize] at hend
        exact ⟨hmagic, by omega, hempty ▸ hwr, hwr⟩

/-- The ring is a queue as long as no block is pushed that has no room. -/
theorem console_fifo_iff {baseAddress size : ℕ} {mem r : Ring} {acts : List Act}
    (hattach : ringBufferAttach baseAddress size mem = some r)
    (hdata : mem.data.length = size - headSize) (hempty : r.curRd = r.curWr)
    (hwr : r.curWr ≤ r.bufferEnd) (hret : Meets step Returns ⟨r, [], []⟩ acts) :
    (∀ n, Fifo (run step ⟨r, [], []⟩ (acts ++ [.pop n]))) ↔ Meets step HasRoom ⟨r, [], []⟩ acts := by
  have hwf := wf_of_attach hattach hdata hempty hwr
  have hstart : Intact ⟨r, [], []⟩ := by
    refine ⟨hwf, ?_⟩
    exact (notEmpty_iff hwf).mp (if_pos hempty)
  have hpop (n : ℕ) : run step ⟨r, [], []⟩ (acts ++ [.pop n]) =
      step (.pop n) (run step ⟨r, [], []⟩ acts) := run_append step _ _ _
  constructor
  · intro h
    rcases run_intact_or_short hstart hret with ⟨hroom, -⟩ | ⟨-, hshort⟩
    · exact hroom
    · exact absurd (hpop _ ▸ h (run step ⟨r, [], []⟩ acts).ring.used) hshort.not_fifo
  · intro hroom n
    rcases run_intact_or_short hstart hret with ⟨-, hend⟩ | ⟨hno, -⟩
    · rw [hpop]
      exact (hend.step (a := .pop n) trivial trivial).fifo
    · exact absurd hroom hno

def smallest : Ring := ⟨0, 7, 7, 7, List.replicate 513 0⟩

def smallestAttached : Ring := ⟨ringBufferMagic, 0, 0, 512, List.replicate 513 0⟩

theorem two_blocks_fifo :
    let acts : List Act := [.push (List.replicate 300 1), .pop 100, .push (List.replicate 312 2)]
    Fifo (run step ⟨smallestAttached, [], []⟩ (acts ++ [.pop 512])) := by
  intro acts
  have hattach : ringBufferAttach 1 545 smallest = some smallestAttached := by decide +kernel
  have hret : Meets step Returns ⟨smallestAttached, [], []⟩ acts := by decide +kernel
  refine (console_fifo_iff hattach (by decide +kernel) rfl (by decide) hret).mpr ?_ 512
  decide +kernel

theorem second_block_lost :
    let acts : List Act := [.push (List.replicate 213 1), .push (List.replicate 300 2)]
    let t := run step ⟨smallestAttached, [], []⟩ acts
    ringBufferAttach 1 545 smallest = some smallestAttached ∧
      Meets step Returns ⟨smallestAttached, [], []⟩ acts ∧
      ringBufferNotEmpty t.ring = 0 ∧ t.popped = [] ∧ t.pushed.length = 513 ∧ ¬ Fifo t := by
  intro acts t
  have hempty : ringBufferNotEmpty t.ring = 0 := by decide +kernel
  have hpopped : t.popped = [] := by decide +kernel
  have hlen : t.pushed.length = 513 := by decide +kernel
  refine ⟨by decide +kernel, by decide +kernel, hempty, hpopped, hlen, fun h => ?_⟩
  have hall := congrArg List.length (h.empty.mp hempty)
  rw [hpopped, hlen] at hall
  cases hall

end SynaBoot.ConsoleRing
