import SynaBoot.CText
import SynaBoot.IrSamples
import SynaBoot.PairLoop

namespace SynaBoot.PairDecoder

open SynaBoot.CircularBuffer SynaBoot.CText SynaBoot.IrSamples

/-- What `read_nec` and `read_tc9012` differ in. -/
structure Protocol where
  data0MinLen : ℤ
  data0MaxLen : ℤ
  data1MinLen : ℤ
  data1MaxLen : ℤ
  preambMinLen : ℤ
  preambMaxLen : ℤ
  preambHoldMax : ℤ
  preambMinLow : ℕ
  preambMaxLow : ℕ
  frameMaxLen : UInt32
  frameCycleMax : UInt32
  burstMinLen : ℕ
  burstMaxLen : ℕ
  shift : ℕ → ℕ
  holdBit : ℕ

def nec : Protocol where
  data0MinLen := 500 * smSystemHz
  data0MaxLen := 1200 * smSystemHz
  data1MinLen := 1200 * smSystemHz
  data1MaxLen := 4000 * smSystemHz
  preambMinLen := 10000 * smSystemHz
  preambMaxLen := 16000 * smSystemHz
  preambHoldMax := 12475 * smSystemHz
  preambMinLow := 7500 * smSystemHz
  preambMaxLow := 10500 * smSystemHz
  frameMaxLen := UInt32.ofNat (68904 * smSystemHz)
  frameCycleMax := UInt32.ofNat (108900 * smSystemHz)
  burstMinLen := 500 * smSystemHz
  burstMaxLen := 700 * smSystemHz
  shift i := i
  holdBit := 0

def tc9012 : Protocol where
  data0MinLen := 900 * smSystemHz
  data0MaxLen := 1325 * smSystemHz
  data1MinLen := 1825 * smSystemHz
  data1MaxLen := 2650 * smSystemHz
  preambMinLen := 8000 * smSystemHz
  preambMaxLen := 10000 * smSystemHz
  preambHoldMax := 12475 * smSystemHz
  preambMinLow := 4000 * smSystemHz
  preambMaxLow := 5500 * smSystemHz
  frameMaxLen := UInt32.ofNat (110000 * smSystemHz)
  frameCycleMax := UInt32.ofNat (157900 * smSystemHz)
  burstMinLen := 500 * smSystemHz
  burstMaxLen := 700 * smSystemHz
  shift i := 32 - (8 - i % 8) - i / 8 * 8
  holdBit := 1

structure Decoder where
  prevCode : UInt32
  code : UInt32
  codeBit : ℕ
  preambleFound : Bool
  preambleMaybeHold : Bool
  preambleTime : UInt32
  deriving DecidableEq, Repr

def poweron : Decoder := ⟨0, 0, 0, false, false, 0⟩

structure Pass where
  decoder : Decoder
  data : UInt32
  readings : ℕ
  rcvCode : UInt32
  deriving DecidableEq, Repr

def begin (d : Decoder) : Pass := ⟨d, 0, 0, noCode⟩

section Pair

variable (p : Protocol) (now : ℕ → UInt32)

def isPreamble (twinLevel : ℤ) (lowLevel : ℕ) : Bool :=
  p.preambMinLen < twinLevel && twinLevel < p.preambMaxLen &&
    (p.preambMinLow < lowLevel && lowLevel < p.preambMaxLow)

def startFrame (twinLevel : ℤ) (s : Pass) : Pass :=
  { s with
    decoder := { s.decoder with
      preambleFound := true
      preambleMaybeHold := twinLevel < p.preambHoldMax
      preambleTime := now s.readings
      code := 0
      codeBit := 0 }
    readings := s.readings + 1 }

def dropFrame (d : Decoder) : Decoder :=
  { d with preambleFound := false, preambleMaybeHold := false, code := 0, codeBit := 0 }

def addBit (s : Pass) : Pass :=
  if s.decoder.codeBit < 32 then
    { s with decoder := { s.decoder with
        code := s.decoder.code + s.data <<< UInt32.ofNat (p.shift s.decoder.codeBit)
        codeBit := s.decoder.codeBit + 1 } }
  else s

def endFrame (s : Pass) : Pass :=
  if s.decoder.codeBit = 32 then
    { s with
      decoder := { s.decoder with
        prevCode := s.decoder.code
        preambleFound := false
        code := 0
        codeBit := 0 }
      rcvCode := s.decoder.code }
  else s

/-- A preamble in a frame is counted as a bit, with the last one's value. -/
def pair (lowLevel highLevel : ℕ) (s : Pass) : Pass :=
  let twinLevel := int32 (lowLevel + highLevel)
  if s.decoder.preambleFound then
    if p.data1MinLen < twinLevel ∧ twinLevel < p.data1MaxLen then endFrame (addBit p { s with data := 1 })
    else if p.data0MinLen < twinLevel ∧ twinLevel < p.data0MaxLen then
      endFrame (addBit p { s with data := 0 })
    else if isPreamble p twinLevel lowLevel then endFrame (addBit p (startFrame p now twinLevel s))
    else if p.preambMaxLen < twinLevel then
      endFrame (addBit p { s with decoder := dropFrame s.decoder })
    else s
  else if isPreamble p twinLevel lowLevel then endFrame (startFrame p now twinLevel s)
  else endFrame s

end Pair

section Call

variable (p : Protocol) (now : ℕ → UInt32)

def twoPending (b : Cbuffer) : Bool :=
  b.start.val + 1 < b.stop.val || (b.stop.val < b.start.val && b.start.val - b.stop.val < 255)

def loop : ℕ → Cbuffer → Pass → Cbuffer × Pass
  | 0, b, s => (b, s)
  | fuel + 1, b, s =>
    if twoPending b && s.rcvCode == noCode then
      let w := b.slots b.start
      let b := b.skip
      -- a high level in the place of a low one is passed over
      if isHigh w then loop fuel b s
      else loop fuel b.skip (pair p now (levelLen w) (levelLen (b.slots b.start)) s)
    else (b, s)

/-- The next sample is looked at and not taken. -/
def lookAhead (w : UInt32) (isHold : Bool) (s : Pass) : Bool × Pass :=
  if s.decoder.preambleMaybeHold && s.decoder.codeBit == p.holdBit && s.decoder.prevCode != noCode &&
      !isHigh w && (p.burstMinLen < levelLen w && levelLen w < p.burstMaxLen) then
    (true, { s with decoder := dropFrame s.decoder, rcvCode := s.decoder.prevCode })
  else (isHold, s)

def checkFrame (s : Pass) : Pass :=
  if s.decoder.preambleFound then
    { s with
      decoder :=
        if p.frameMaxLen < lengthCaculate (now s.readings) s.decoder.preambleTime then
          dropFrame s.decoder
        else s.decoder
      readings := s.readings + 1 }
  else s

def checkCycle (s : Pass) : Pass :=
  if s.decoder.prevCode != noCode then
    { s with
      decoder :=
        if p.frameCycleMax < lengthCaculate (now s.readings) s.decoder.preambleTime then
          { s.decoder with prevCode := noCode }
        else s.decoder
      readings := s.readings + 1 }
  else s

structure Result where
  rcvCode : UInt32
  isHold : Bool
  buffer : Cbuffer
  decoder : Decoder

def conclude (b : Cbuffer) (isHold : Bool) (s : Pass) : Result :=
  let (isHold, s) := lookAhead p (b.slots b.start) isHold s
  let s := checkCycle p now (checkFrame p now s)
  ⟨s.rcvCode, isHold, b, s.decoder⟩

def read (b : Cbuffer) (isHold : Bool) (d : Decoder) : Result :=
  let (b, s) := loop p now 256 b (begin d)
  conclude p now b isHold s

end Call

def readNec := read nec

def readTc9012 := read tc9012

section Scan

variable (p : Protocol) (now : ℕ → UInt32)

def scan : List UInt32 → Pass → List UInt32 × Pass
  | w :: v :: ws, s =>
    if s.rcvCode = noCode then
      if isHigh w then scan (v :: ws) s
      else scan ws (pair p now (levelLen w) (levelLen v) s)
    else (w :: v :: ws, s)
  | ws, s => (ws, s)

variable {p now} {b : Cbuffer} {s : Pass} {ws : List UInt32}

structure Follows (b : Cbuffer) (l : Cbuffer × Pass) (r : List UInt32 × Pass) : Prop where
  contents : l.1.contents = r.1
  pass : l.2 = r.2
  slots : l.1.slots = b.slots
  stop : l.1.stop = b.stop

theorem loop_eq (fuel : ℕ) (b : Cbuffer) (s : Pass) : loop p now fuel b s =
    PairLoop.loop (·.rcvCode == noCode) isHigh (fun w v => pair p now (levelLen w) (levelLen v))
      fuel b s := by
  induction fuel generalizing b s with
  | zero => rfl
  | succ fuel ih =>
    rw [loop, PairLoop.loop]
    dsimp only
    rw [ih, ih]
    rfl

theorem scan_eq (ws : List UInt32) (s : Pass) : scan p now ws s =
    PairLoop.scan (·.rcvCode == noCode) isHigh (fun w v => pair p now (levelLen w) (levelLen v))
      ws s := by
  induction ws, s using scan.induct p now with
  | case1 s w v ws hcode hhigh ih =>
    rw [scan, PairLoop.scan, if_pos hcode, if_pos hhigh, if_pos (beq_iff_eq.mpr hcode), if_pos hhigh]
    exact ih
  | case2 s w v ws hcode hlow ih =>
    rw [scan, PairLoop.scan, if_pos hcode, if_neg hlow, if_pos (beq_iff_eq.mpr hcode), if_neg hlow]
    exact ih
  | case3 s w v ws hcode =>
    rw [scan, PairLoop.scan, if_neg hcode, if_neg (mt beq_iff_eq.mp hcode)]
  | case4 ws s hshort => rw [scan.eq_2 p now ws s hshort, PairLoop.scan.eq_2 _ _ _ ws s hshort]

theorem scan_of_short (h : ws.length < 2) : scan p now ws s = (ws, s) := by
  rw [scan_eq, PairLoop.scan_of_short h]

theorem scan_of_code (h : s.rcvCode ≠ noCode) : scan p now ws s = (ws, s) := by
  rw [scan_eq]
  exact PairLoop.scan_of_done (beq_eq_false_iff_ne.mpr h)

theorem Follows.of_pairLoop {l : Cbuffer × Pass} {r : List UInt32 × Pass}
    (h : PairLoop.Follows b l r) : Follows b l r := ⟨h.contents, h.state, h.slots, h.stop⟩

theorem loop_follows {fuel : ℕ} (hfuel : b.contents.length ≤ fuel) :
    Follows b (loop p now fuel b s) (scan p now b.contents s) := by
  rw [loop_eq, scan_eq]
  exact .of_pairLoop (PairLoop.loop_follows hfuel)

theorem endFrame_found (h : s.rcvCode = noCode) (hfound : (endFrame s).decoder.preambleFound = true) :
    (endFrame s).rcvCode = noCode := by
  unfold endFrame at hfound ⊢
  split
  · next hbit =>
    rw [if_pos hbit] at hfound
    cases hfound
  · exact h

theorem addBit_rcvCode : (addBit p s).rcvCode = s.rcvCode := by
  unfold addBit
  split <;> rfl

theorem pair_found {low high : ℕ} (h : s.rcvCode = noCode)
    (hfound : (pair p now low high s).decoder.preambleFound = true) :
    (pair p now low high s).rcvCode = noCode := by
  have hadd (t : Pass) (ht : t.rcvCode = noCode)
      (hf : (endFrame (addBit p t)).decoder.preambleFound = true) :
      (endFrame (addBit p t)).rcvCode = noCode :=
    endFrame_found (addBit_rcvCode.trans ht) hf
  unfold pair at hfound ⊢
  dsimp only at hfound ⊢
  split_ifs at hfound ⊢
  · exact hadd _ h hfound
  · exact hadd _ h hfound
  · exact hadd _ h hfound
  · exact hadd _ h hfound
  · exact h
  · exact endFrame_found h hfound
  · exact endFrame_found h hfound

theorem scan_found (h : s.decoder.preambleFound = true → s.rcvCode = noCode)
    (hfound : (scan p now ws s).2.decoder.preambleFound = true) :
    (scan p now ws s).2.rcvCode = noCode := by
  induction ws, s using scan.induct p now with
  | case1 s w v ws hcode hhigh ih =>
    rw [scan, if_pos hcode, if_pos hhigh] at hfound ⊢
    exact ih h hfound
  | case2 s w v ws hcode hlow ih =>
    rw [scan, if_pos hcode, if_neg hlow] at hfound ⊢
    exact ih (pair_found hcode) hfound
  | case3 s w v ws hcode =>
    rw [scan, if_neg hcode] at hfound ⊢
    exact h hfound
  | case4 ws s hshort =>
    rw [scan.eq_2 p now ws s hshort] at hfound ⊢
    exact h hfound

theorem read_eq (p : Protocol) (now : ℕ → UInt32) (b : Cbuffer) (isHold : Bool) (d : Decoder) :
    ∃ c : Cbuffer, c.contents = (scan p now b.contents (begin d)).1 ∧ c.slots = b.slots ∧
      c.stop = b.stop ∧
      read p now b isHold d = conclude p now c isHold (scan p now b.contents (begin d)).2 := by
  have hlen : b.contents.length ≤ 256 := by
    rw [Buffer.length_contents]
    exact (b.stop - b.start).isLt.le
  have h : Follows b (loop p now 256 b (begin d)) _ := loop_follows hlen
  refine ⟨_, h.contents, h.slots, h.stop, ?_⟩
  rw [← h.pass]
  rfl

end Scan

end SynaBoot.PairDecoder
