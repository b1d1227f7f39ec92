import SynaBoot.IrSamples

namespace SynaBoot.Rc5

open SynaBoot.CircularBuffer SynaBoot.IrSamples SynaBoot.Schedules

def maxBitTime : ℕ := smSystemHz * 960

def minBitTime : ℕ := smSystemHz * 735

structure Decoder where
  codeBit : ℕ
  code : UInt32
  prevCode : UInt32
  prevData : Bool
  errTime : UInt32
  lastBit : Bool
  deriving DecidableEq, Repr

def poweron : Decoder := ⟨0, 0, 0, false, 0, false⟩

structure Pass where
  decoder : Decoder
  rcvCode : UInt32
  isHold : Bool
  deriving DecidableEq, Repr

inductive Move where
  | skip (d : Decoder)
  | take
  | fail

def judge (data : Bool) (time : ℕ) (d : Decoder) : Move :=
  if d.codeBit = 0 then
    if data = false then .skip { d with codeBit := 0 } else .take
  else if d.codeBit = 1 then
    if maxBitTime < time ∨ time < minBitTime then .fail
    else if data ≠ d.prevData then .skip d
    else if data = false then .skip { d with codeBit := 0 }
    else .take
  else if time < maxBitTime ∧ minBitTime < time ∧ data ≠ d.prevData then .skip d
  else if time < maxBitTime ∧ minBitTime < time ∧ data = d.prevData then .take
  else if time < 2 * maxBitTime ∧ 2 * minBitTime < time ∧ data ≠ d.prevData then .take
  else .fail

def addBit (data : Bool) (s : Pass) : Pass :=
  let d := { s.decoder with
    code := s.decoder.code <<< 1 + data.toUInt32
    prevData := data
    codeBit := s.decoder.codeBit + 1 }
  if d.codeBit = 14 then
    { decoder := { d with prevCode := d.code, lastBit := data }
      rcvCode := d.code
      isHold := s.isHold || d.prevCode == d.code }
  else { s with decoder := d }

/-- The loop body; an error leaves the sample in the buffer. -/
def sampleStep (now : UInt32) (w : UInt32) (s : Pass) : Bool × Pass :=
  if s.decoder.lastBit then (true, { s with decoder := { s.decoder with lastBit := false } })
  else
    match judge (isHigh w) (levelLen w) s.decoder with
    | .skip d => (true, { s with decoder := d })
    | .take => (true, addBit (isHigh w) s)
    | .fail => (false, { s with decoder := { s.decoder with errTime := now } })

def loop (now : UInt32) : ℕ → Cbuffer → Pass → Cbuffer × Pass
  | 0, b, s => (b, s)
  | fuel + 1, b, s =>
    if b.start ≠ b.stop ∧ s.rcvCode = noCode then
      let (goes, s) := sampleStep now (b.slots b.start) s
      if goes then loop now fuel b.skip s else (b, s)
    else (b, s)

structure Result where
  rcvCode : UInt32
  isHold : Bool
  buffer : Cbuffer
  decoder : Decoder

def settle (s : Pass) : Decoder :=
  if s.rcvCode ≠ noCode then { s.decoder with codeBit := 0, code := 0 } else s.decoder

/-- After an error nothing is read for 90 ms, and what came in is dropped. -/
def readRc5 (now : UInt32) (b : Cbuffer) (isHold : Bool) (d : Decoder) : Result :=
  if d.errTime ≠ 0 then
    if 90 < now - d.errTime then
      ⟨noCode, isHold, { b with start := 0, stop := 0 },
        { d with errTime := 0, codeBit := 0, code := 0, prevCode := 0xffffffff }⟩
    else ⟨noCode, isHold, b, d⟩
  else
    let (b, s) := loop now 256 b ⟨d, noCode, isHold⟩
    ⟨s.rcvCode, s.isHold, b, settle s⟩

structure Receiver where
  buffer : Cbuffer
  decoder : Decoder
  reports : List (UInt32 × Bool)

inductive Act where
  | store (len highLow : UInt32)
  | call (now : UInt32)

def report (r : Result) : List (UInt32 × Bool) :=
  if r.rcvCode = noCode then [] else [(r.rcvCode, r.isHold)]

def step : Act → Receiver → Receiver
  | .store len highLow, r => { r with buffer := storeIrcbuffer len highLow r.buffer }
  | .call now, r =>
    let result := readRc5 now r.buffer false r.decoder
    ⟨result.buffer, result.decoder, r.reports ++ report result⟩

def stored : List Act → List UInt32
  | [] => []
  | .store len highLow :: as => sample len highLow :: stored as
  | .call _ :: as => stored as

def Fits (r : Receiver) : Act → Prop
  | .store _ _ => r.buffer.pending < 255
  | .call _ => True

instance (r : Receiver) : (a : Act) → Decidable (Fits r a)
  | .store _ _ => inferInstanceAs (Decidable (_ < 255))
  | .call _ => inferInstanceAs (Decidable True)

section Scan

variable (now : UInt32)

def scan : List UInt32 → Pass → List UInt32 × Pass
  | [], s => ([], s)
  | w :: ws, s =>
    if s.rcvCode = noCode then
      if (sampleStep now w s).1 then scan ws (sampleStep now w s).2
      else (w :: ws, (sampleStep now w s).2)
    else (w :: ws, s)

variable {now} {b : Cbuffer} {s : Pass}

theorem scan_of_code {ws : List UInt32} (h : s.rcvCode ≠ noCode) : scan now ws s = (ws, s) := by
  cases ws with
  | nil => rfl
  | cons w ws => exact if_neg h

theorem loop_eq_scan (now : UInt32) {fuel : ℕ} (hfuel : b.contents.length ≤ fuel) :
    (loop now fuel b s).1.contents = (scan now b.contents s).1 ∧
      (loop now fuel b s).2 = (scan now b.contents s).2 := by
  induction fuel generalizing b s with
  | zero =>
    have hnil : b.contents = [] := List.length_eq_zero_iff.mp (Nat.le_zero.mp hfuel)
    rw [hnil]
    exact ⟨hnil, rfl⟩
  | succ fuel ih =>
    rw [loop]
    cases hb : b.contents with
    | nil =>
      have heq : b.start = b.stop := Buffer.contents_eq_nil_iff.mp hb
      rw [if_neg fun h => h.1 heq]
      exact ⟨hb, rfl⟩
    | cons w ws =>
      obtain ⟨hw, hskip⟩ := Buffer.contents_cons hb
      have hne : b.start ≠ b.stop := by
        intro heq
        rw [Buffer.contents_eq_nil_iff.mpr heq] at hb
        cases hb
      rw [scan, hw]
      by_cases hcode : s.rcvCode = noCode
      · rw [if_pos ⟨hne, hcode⟩, if_pos hcode]
        dsimp only
        split
        · rw [← hskip]
          refine ih ?_
          rw [hb, List.length_cons] at hfuel
          rw [hskip]
          exact Nat.le_of_succ_le_succ hfuel
        · exact ⟨hb, rfl⟩
      · rw [if_neg fun h => hcode h.2, if_neg hcode]
        exact ⟨hb, rfl⟩

end Scan

end SynaBoot.Rc5
