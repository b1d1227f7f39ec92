import SynaBoot.PairDecoder

namespace SynaBoot.IrLookahead

open SynaBoot.CircularBuffer SynaBoot.IrSamples SynaBoot.PairDecoder

inductive Remote where
  | nec
  | tc9012
  deriving DecidableEq, Repr

def Remote.protocol : Remote → Protocol
  | .nec => PairDecoder.nec
  | .tc9012 => PairDecoder.tc9012

def Remote.read : Remote → (ℕ → UInt32) → Cbuffer → Bool → Decoder → Result
  | .nec => readNec
  | .tc9012 => readTc9012

structure SamePending (b b' : Cbuffer) : Prop where
  start : b'.start = b.start
  stop : b'.stop = b.stop
  slots : ∀ k, (k - b.start).val < b.pending → b'.slots k = b.slots k

def outcome (r : Result) : UInt32 × Bool × Fin 256 × Decoder :=
  (r.rcvCode, r.isHold, r.buffer.start, r.decoder)

/-- A call whose outcome the pending samples determine. -/
def SamplesOnly (r : Remote) (now : ℕ → UInt32) (b : Cbuffer) (isHold : Bool) (d : Decoder) : Prop :=
  ∀ b', SamePending b b' → outcome (r.read now b' isHold d) = outcome (r.read now b isHold d)

structure LooksBehind (p : Protocol) (r : List UInt32 × Pass) : Prop where
  taken : r.1 = []
  maybeHold : r.2.decoder.preambleMaybeHold = true
  codeBit : r.2.decoder.codeBit = p.holdBit
  prevCode : r.2.decoder.prevCode ≠ noCode

variable {p : Protocol} {now : ℕ → UInt32} {b b' : Cbuffer} {isHold : Bool} {d : Decoder}

theorem Remote.read_eq (r : Remote) : r.read = PairDecoder.read r.protocol := by
  cases r <;> rfl

theorem SamePending.contents (h : SamePending b b') : b'.contents = b.contents := by
  have hpending : b'.pending = b.pending := by
    rw [Buffer.pending, Buffer.pending, h.start, h.stop]
  rw [Buffer.contents, Buffer.contents, hpending, h.start]
  exact walk_congr h.slots

theorem start_eq (hstop : b'.stop = b.stop) (hlen : b'.contents = b.contents) :
    b'.start = b.start := by
  have hsub : b'.stop - b'.start = b.stop - b.start := by
    rw [← Fin.val_inj]
    change b'.pending = b.pending
    rw [← Buffer.length_contents, ← Buffer.length_contents, hlen]
  rw [hstop] at hsub
  exact sub_right_injective hsub

theorem slot_eq (h : b'.contents = b.contents) (hne : b.contents ≠ []) :
    b'.slots b'.start = b.slots b.start := by
  obtain ⟨w, ws, hw⟩ := List.exists_cons_of_ne_nil hne
  rw [(Buffer.contents_cons hw).1, (Buffer.contents_cons (h.trans hw)).1]

theorem lookAhead_of_not {w : UInt32} {s : Pass}
    (h : ¬ (s.decoder.preambleMaybeHold = true ∧ s.decoder.codeBit = p.holdBit ∧
      s.decoder.prevCode ≠ noCode)) : lookAhead p w isHold s = (isHold, s) := by
  refine if_neg fun hc => h ?_
  simp only [Bool.and_eq_true, beq_iff_eq, bne_iff_ne] at hc
  exact ⟨hc.1.1.1.1, hc.1.1.1.2, hc.1.1.2⟩

theorem lookAhead_high {w : UInt32} {s : Pass} (hw : isHigh w = true) :
    lookAhead p w isHold s = (isHold, s) := by
  refine if_neg fun hc => ?_
  simp only [Bool.and_eq_true, Bool.not_eq_true'] at hc
  exact Bool.false_ne_true (hc.1.2.symm.trans hw)

theorem lookAhead_burst {w : UInt32} {r : List UInt32 × Pass} (h : LooksBehind p r)
    (hlow : isHigh w = false) (hmin : p.burstMinLen < levelLen w) (hmax : levelLen w < p.burstMaxLen) :
    lookAhead p w isHold r.2 =
      (true, { r.2 with decoder := dropFrame r.2.decoder, rcvCode := r.2.decoder.prevCode }) := by
  refine if_pos ?_
  simp only [Bool.and_eq_true, beq_iff_eq, bne_iff_ne, Bool.not_eq_true', decide_eq_true_eq]
  exact ⟨⟨⟨⟨h.maybeHold, h.codeBit⟩, h.prevCode⟩, hlow⟩, hmin, hmax⟩

theorem checkFrame_rcvCode (s : Pass) : (checkFrame p now s).rcvCode = s.rcvCode := by
  unfold checkFrame
  split <;> rfl

theorem checkCycle_rcvCode (s : Pass) : (checkCycle p now s).rcvCode = s.rcvCode := by
  unfold checkCycle
  split <;> rfl

theorem checkCycle_maybeHold (s : Pass) :
    (checkCycle p now s).decoder.preambleMaybeHold = s.decoder.preambleMaybeHold := by
  unfold checkCycle
  split
  · dsimp only
    split <;> rfl
  · rfl

theorem conclude_ne {c c' : Cbuffer} {r : List UInt32 × Pass} (h : LooksBehind p r)
    (hfound : r.2.decoder.preambleFound = true → r.2.rcvCode = noCode)
    (hc : isHigh (c.slots c.start) = true) (hlow : isHigh (c'.slots c'.start) = false)
    (hmin : p.burstMinLen < levelLen (c'.slots c'.start))
    (hmax : levelLen (c'.slots c'.start) < p.burstMaxLen) :
    outcome (conclude p now c isHold r.2) ≠ outcome (conclude p now c' isHold r.2) := by
  intro heq
  rw [outcome, outcome, conclude, conclude, lookAhead_high hc, lookAhead_burst h hlow hmin hmax] at heq
  have hcode := congrArg Prod.fst heq
  have hhold := congrArg (fun o => o.2.2.2.preambleMaybeHold) heq
  dsimp only at hcode hhold
  rw [checkCycle_rcvCode, checkFrame_rcvCode, checkCycle_rcvCode, checkFrame_rcvCode] at hcode
  rw [checkCycle_maybeHold, checkCycle_maybeHold] at hhold
  by_cases hf : r.2.decoder.preambleFound = true
  · exact h.prevCode (hcode.symm.trans (hfound hf))
  · have hleft : checkFrame p now r.2 = r.2 := if_neg hf
    rw [hleft, h.maybeHold] at hhold
    have hdropped : true = false := hhold
    cases hdropped

theorem conclude_congr {c c' : Cbuffer} {s : Pass} (hstart : c'.start = c.start)
    (h : lookAhead p (c'.slots c'.start) isHold s = lookAhead p (c.slots c.start) isHold s) :
    outcome (conclude p now c' isHold s) = outcome (conclude p now c isHold s) := by
  rw [outcome, outcome, conclude, conclude, h, hstart]

def stale (b : Cbuffer) (w : UInt32) : Cbuffer := { b with slots := Function.update b.slots b.stop w }

theorem samePending_stale (b : Cbuffer) (w : UInt32) : SamePending b (stale b w) := by
  refine ⟨rfl, rfl, fun k hk => Function.update_of_ne ?_ _ _⟩
  rintro rfl
  exact absurd hk (lt_irrefl _)

theorem read_stale (isHold : Bool) (w : UInt32) (h : (scan p now b.contents (begin d)).1 = []) :
    ∃ c : Cbuffer, c.slots c.start = w ∧
      PairDecoder.read p now (stale b w) isHold d =
        conclude p now c isHold (scan p now b.contents (begin d)).2 := by
  obtain ⟨c, hc, hslots, hstop, hread⟩ := PairDecoder.read_eq p now (stale b w) isHold d
  rw [(samePending_stale b w).contents] at hc hread
  have hempty : c.start = c.stop := Buffer.contents_eq_nil_iff.mp (hc.trans h)
  refine ⟨c, ?_, hread⟩
  rw [hslots, hempty, hstop]
  exact Function.update_self _ _ _

/-- The results come from the samples alone exactly if no hold is looked for without one. -/
theorem samples_only_iff (r : Remote) (now : ℕ → UInt32) (b : Cbuffer) (isHold : Bool)
    (d : Decoder) :
    SamplesOnly r now b isHold d ↔
      ¬ LooksBehind r.protocol (scan r.protocol now b.contents (begin d)) := by
  unfold SamplesOnly
  rw [r.read_eq]
  constructor
  · intro h hlooks
    have hbegin : (begin d).decoder.preambleFound = true → (begin d).rcvCode = noCode := fun _ => rfl
    obtain ⟨c, hc, hread⟩ := read_stale isHold (sample 0 1) hlooks.taken
    obtain ⟨c', hc', hread'⟩ := read_stale isHold (sample 15000 0) hlooks.taken
    have hsame := (h _ (samePending_stale b (sample 0 1))).trans
      (h _ (samePending_stale b (sample 15000 0))).symm
    rw [hread, hread'] at hsame
    refine conclude_ne hlooks (scan_found hbegin) ?_ ?_ ?_ ?_ hsame
    · rw [hc]
      rfl
    · rw [hc']
      rfl
    · rw [hc']
      cases r <;> decide
    · rw [hc']
      cases r <;> decide
  · intro hnot b' hsame
    obtain ⟨c, hc, -, hstop, hread⟩ := PairDecoder.read_eq r.protocol now b isHold d
    obtain ⟨c', hc', -, hstop', hread'⟩ := PairDecoder.read_eq r.protocol now b' isHold d
    rw [hsame.contents] at hc' hread'
    have hcontents : c'.contents = c.contents := hc'.trans hc.symm
    rw [hread, hread']
    refine conclude_congr ?_ ?_
    · refine start_eq ?_ hcontents
      rw [hstop, hstop', hsame.stop]
    · by_cases hempty : c.contents = []
      · have hleft (w : UInt32) : lookAhead r.protocol w isHold _ = (isHold, _) :=
          lookAhead_of_not fun hh => hnot ⟨hc.symm.trans hempty, hh.1, hh.2.1, hh.2.2⟩
        rw [hleft, hleft]
      · rw [slot_eq hcontents hempty]

def afterPreamble (w : UInt32) : Cbuffer :=
  ⟨fun k => if k = 0 then sample 225000 0 else if k = 1 then sample 56250 1 else w, 0, 2⟩

def ticking (n : ℕ) : UInt32 := UInt32.ofNat n

theorem stale_burst_holds :
    SamePending (afterPreamble (sample 15000 1)) (afterPreamble (sample 15000 0)) ∧
      outcome (readNec ticking (afterPreamble (sample 15000 1)) false { poweron with prevCode := 5 }) =
        (noCode, false, 2, ⟨5, 0, 0, true, true, 0⟩) ∧
      outcome (readNec ticking (afterPreamble (sample 15000 0)) false { poweron with prevCode := 5 }) =
        (5, true, 2, ⟨5, 0, 0, false, false, 0⟩) := by
  refine ⟨⟨rfl, rfl, fun k hk => ?_⟩, by decide +kernel, by decide +kernel⟩
  have hk' : k.val < 2 := by
    have hpending : (afterPreamble (sample 15000 1)).pending = 2 := rfl
    rw [hpending] at hk
    have hzero : k - (afterPreamble (sample 15000 1)).start = k := sub_zero k
    rwa [hzero] at hk
  have hcases : k = 0 ∨ k = 1 := by omega
  rcases hcases with rfl | rfl <;> rfl

end SynaBoot.IrLookahead
