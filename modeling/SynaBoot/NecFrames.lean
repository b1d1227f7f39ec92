import SynaBoot.PairReceiver

namespace SynaBoot.NecFrames

open SynaBoot.CircularBuffer SynaBoot.IrSamples SynaBoot.PairDecoder SynaBoot.PairFrames
  SynaBoot.PairReceiver SynaBoot.Schedules

/-- A preamble that is too long for a hold. -/
structure NecFrame (c : UInt32) (f : Frame) : Prop where
  preamble : nec.preambHoldMax ≤ f.preamble.length ∧ f.preamble.length < nec.preambMaxLen
  low : nec.preambMinLow < f.preamble.low.toNat ∧ f.preamble.low.toNat < nec.preambMaxLow
  bits : f.data.map Prod.fst = bits (fun i => i) c
  data : ∀ x ∈ f.data, Carries nec x.1 x.2
  gap : nec.preambMaxLen < f.gap.high.toNat

structure Idle (d : Decoder) : Prop where
  found : d.preambleFound = false
  maybe : d.preambleMaybeHold = false
  bit : d.codeBit = 0

theorem nec_sound : Sound nec where
  data := by decide
  data0 := by decide
  data1 := by decide
  preamb := by decide
  frame := by decide

variable {c : UInt32} {f : Frame} {codes : List UInt32} {frames : List Frame}

theorem NecFrame.complete (h : NecFrame c f) : Complete nec f where
  preamble := by
    have hmin : nec.preambMinLen < nec.preambHoldMax := by decide
    exact ⟨lt_of_lt_of_le hmin h.preamble.1, h.preamble.2, h.low⟩
  length := by
    have hlen := congrArg List.length h.bits
    rw [List.length_map] at hlen
    exact hlen
  data := h.data
  gap := h.gap

theorem NecFrame.code_eq (h : NecFrame c f) : f.code nec = c := by
  have hshift : (Finset.range 32).image nec.shift = Finset.range 32 := by decide
  rw [Frame.code, h.bits]
  exact accumulate_bits hshift

theorem awaits_codes {b : Cbuffer} {d : Decoder} (hb : b.start = b.stop) (hd : Idle d)
    (h : List.Forall₂ NecFrame codes frames) : Awaits nec false ⟨b, d, []⟩ (wave frames) codes := by
  obtain ⟨hcodes, hframes⟩ := codes_of_frames
    (P := fun f => Complete nec f ∧ nec.preambHoldMax ≤ f.preamble.length)
    (fun c f hf => ⟨hf.code_eq, hf.complete, hf.preamble.1⟩) h
  rw [← hcodes]
  exact awaits_wave hb hd.found hd.maybe hd.bit (fun f hf => (hframes f hf).1)
    (fun f hf hlt => absurd hlt (not_lt.mpr (hframes f hf).2)) []

theorem inTime_no_hold {r : Receiver} {acts : List Act} (h : Meets (step nec) (InTime nec) r acts) :
    Meets (step nec) (fun r a => InTime nec r a ∧ (false = true → ¬ SeesHold nec r a)) r acts :=
  h.mono fun _ _ ha => ⟨ha, fun hf => absurd hf Bool.false_ne_true⟩

/-- However the samples reach the buffer, the calls return the codes of the frames, each once. -/
theorem nec_frames_decoded (hframes : List.Forall₂ NecFrame codes frames) (hcodes : noCode ∉ codes)
    {b : Cbuffer} (hb : b.start = b.stop) {d : Decoder} (hd : Idle d) {acts : List Act}
    (hacts : Meets (step nec) (InTime nec) ⟨b, d, []⟩ acts) (hstored : stored acts <+: wave frames) :
    (run (step nec) ⟨b, d, []⟩ acts).reports <+: (codes.map fun c => (c, false)) ∧
      ∀ calls : List (ℕ → UInt32), stored acts = wave frames → codes.length ≤ calls.length →
        Meets (step nec) (InTime nec) (run (step nec) ⟨b, d, []⟩ acts) (calls.map Act.call) →
        (run (step nec) ⟨b, d, []⟩ (acts ++ calls.map Act.call)).reports =
          codes.map fun c => (c, false) := by
  obtain ⟨rest, hrest⟩ := hstored
  have hstart := awaits_codes hb hd hframes
  rw [← hrest] at hstart
  obtain ⟨cs, hawaits, hreports⟩ := run_awaits nec_sound hstart (inTime_no_hold hacts)
  rw [List.nil_append, plain_of_notMem hcodes] at hreports
  refine ⟨⟨plain cs, hreports⟩, fun calls hall hlen hcalls => ?_⟩
  have hnil : rest = [] := List.append_right_eq_self.mp (hrest.trans hall.symm)
  rw [hnil] at hawaits
  have hshort : (shown cs).length ≤ calls.length := by
    have hlen' := congrArg List.length hreports
    rw [List.length_append, plain, List.length_map, List.length_map] at hlen'
    omega
  rw [run_append, run_calls nec_sound hawaits (inTime_no_hold hcalls) hshort]
  exact hreports

def typicalPreamble : Pulse := .ofTicks 225000 112500

def typicalBit (b : Bool) : Bool × Pulse := (b, .ofTicks 14000 (if b then 42000 else 14000))

def typicalGap : Pulse := .ofTicks 14000 1000000

def typicalFrame (c : UInt32) : Frame :=
  ⟨typicalPreamble, (bits (fun i => i) c).map typicalBit, typicalGap⟩

theorem typicalFrame_nec (c : UInt32) : NecFrame c (typicalFrame c) where
  preamble := (by decide :
    nec.preambHoldMax ≤ typicalPreamble.length ∧ typicalPreamble.length < nec.preambMaxLen)
  low := (by decide : nec.preambMinLow < typicalPreamble.low.toNat ∧
    typicalPreamble.low.toNat < nec.preambMaxLow)
  bits := by
    rw [typicalFrame, List.map_map]
    exact List.map_id _
  data := by
    intro x hx
    obtain ⟨b, -, rfl⟩ := List.mem_map.mp hx
    cases b <;> decide
  gap := (by decide : nec.preambMaxLen < typicalGap.high.toNat)

def emptyBuffer : Cbuffer := ⟨fun _ => 0, 250, 250⟩

def clock (n : ℕ) : UInt32 := UInt32.ofNat (n * 1000)

theorem two_frames_decoded :
    (run (step nec) ⟨emptyBuffer, poweron, []⟩
      (stores ([typicalFrame 0xba45ff00, typicalFrame 7].flatMap Frame.pulses) ++
        [clock, clock].map Act.call)).reports = [(0xba45ff00, false), (7, false)] :=
  (nec_frames_decoded (.cons (typicalFrame_nec 0xba45ff00) (.cons (typicalFrame_nec 7) .nil))
    (by decide) rfl ⟨rfl, rfl, rfl⟩ (by decide +kernel) ⟨[], by rw [stored_stores, List.append_nil]; rfl⟩).2
    [clock, clock] (stored_stores _) (by decide) (by decide +kernel)

end SynaBoot.NecFrames
