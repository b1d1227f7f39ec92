import SynaBoot.PairReceiver

namespace SynaBoot.Tc9012Frames

open SynaBoot.CircularBuffer SynaBoot.IrSamples SynaBoot.PairDecoder SynaBoot.PairFrames
  SynaBoot.PairReceiver SynaBoot.Schedules

/-- The bytes from the highest on, each from its lowest bit on. -/
def place (i : ℕ) : ℕ := 24 + i % 8 - 8 * (i / 8)

structure Tc9012Frame (c : UInt32) (f : Frame) : Prop where
  preamble : IsPreamble tc9012 f.preamble
  bits : f.data.map Prod.fst = bits place c
  data : ∀ x ∈ f.data, Carries tc9012 x.1 x.2
  gap : tc9012.preambMaxLen < f.gap.high.toNat

def TakenForHold (w : UInt32) (d : Decoder) : Prop :=
  d.preambleMaybeHold = true ∧ d.codeBit = 1 ∧ d.prevCode ≠ noCode ∧ isHigh w = false ∧
    tc9012.burstMinLen < levelLen w ∧ levelLen w < tc9012.burstMaxLen

instance (w : UInt32) (d : Decoder) : Decidable (TakenForHold w d) :=
  inferInstanceAs (Decidable (_ ∧ _ ∧ _ ∧ _ ∧ _ ∧ _))

def FalseHold (r : Receiver) : Act → Prop
  | .store _ _ => False
  | .call now =>
    let l := afterLoop tc9012 now r
    TakenForHold (l.1.slots l.1.start) l.2.decoder

instance (r : Receiver) : (a : Act) → Decidable (FalseHold r a)
  | .store _ _ => inferInstanceAs (Decidable False)
  | .call _ => inferInstanceAs (Decidable (TakenForHold _ _))

theorem tc9012_sound : Sound tc9012 where
  data := by decide
  data0 := by decide
  data1 := by decide
  preamb := by decide
  frame := by decide

section Frames

variable {c : UInt32} {f : Frame}

theorem bits_place (c : UInt32) : bits place c = bits tc9012.shift c := by
  refine List.map_congr_left fun i hi => ?_
  have hlt : i < 32 := List.mem_range.mp hi
  have hplace : place i = tc9012.shift i := by
    change 24 + i % 8 - 8 * (i / 8) = 32 - (8 - i % 8) - i / 8 * 8
    omega
  rw [hplace]

theorem Tc9012Frame.complete (h : Tc9012Frame c f) : Complete tc9012 f where
  preamble := h.preamble
  length := by
    have hlen := congrArg List.length h.bits
    rw [List.length_map] at hlen
    exact hlen
  data := h.data
  gap := h.gap

theorem Tc9012Frame.code_eq (h : Tc9012Frame c f) : f.code tc9012 = c := by
  have hshift : (Finset.range 32).image tc9012.shift = Finset.range 32 := by decide
  rw [Frame.code, h.bits, bits_place]
  exact accumulate_bits hshift

end Frames

section Holds

variable {r : Receiver} {a : Act} {acts : List Act}

theorem seesHold_iff : SeesHold tc9012 r a ↔ FalseHold r a := by
  cases a with
  | store len highLow => exact Iff.rfl
  | call now =>
    change (lookAhead tc9012 _ false _).1 = true ↔ _
    unfold lookAhead
    split
    · next hc =>
      simp only [Bool.and_eq_true, beq_iff_eq, bne_iff_ne, Bool.not_eq_true', decide_eq_true_eq] at hc
      obtain ⟨⟨⟨⟨hmaybe, hbit⟩, hprev⟩, hlow⟩, hburst⟩ := hc
      exact ⟨fun _ => ⟨hmaybe, hbit, hprev, hlow, hburst⟩, fun _ => rfl⟩
    · next hc =>
      refine ⟨fun h => absurd h Bool.false_ne_true, fun h => absurd ?_ hc⟩
      obtain ⟨hmaybe, hbit, hprev, hlow, hburst⟩ := h
      simp only [Bool.and_eq_true, beq_iff_eq, bne_iff_ne, Bool.not_eq_true', decide_eq_true_eq]
      exact ⟨⟨⟨⟨hmaybe, hbit⟩, hprev⟩, hlow⟩, hburst⟩

theorem no_falseHold {ok : Receiver → Act → Prop} (h : ∀ c, (c, true) ∉ (run (step tc9012) r acts).reports)
    (hok : Meets (step tc9012) ok r acts) :
    Meets (step tc9012) (fun r a => ¬ FalseHold r a) r acts := by
  have hback : ∀ r a, (∀ c, (c, true) ∉ (step tc9012 a r).reports) → ∀ c, (c, true) ∉ r.reports :=
    fun r a hnext c hc => hnext c ((step_reports a r).subset hc)
  refine (hok.bounded (P := fun r => ∀ c, (c, true) ∉ r.reports) hback h).2.mono ?_
  rintro r a ⟨-, hnext⟩ hfalse
  cases a with
  | store len highLow => exact hfalse
  | call now =>
    obtain ⟨c, hc⟩ := call_hold (seesHold_iff.mpr hfalse)
    exact hnext c hc

end Holds

section Decoding

variable {codes : List UInt32} {frames : List Frame} {b : Cbuffer} {d : Decoder} {acts : List Act}
  {calls : List (ℕ → UInt32)}

/-- The frames come back unless a burst is taken for a hold, or a code is all ones. -/
theorem tc9012_frames_decoded_iff (hframes : List.Forall₂ Tc9012Frame codes frames)
    (hb : b.start = b.stop) (hfound : d.preambleFound = false) (hmaybe : d.preambleMaybeHold = false)
    (hbit : d.codeBit = 0) (hstored : stored acts = wave frames) (hcalls : codes.length ≤ calls.length)
    (hok : Meets (step tc9012) (InTime tc9012) ⟨b, d, []⟩ (acts ++ calls.map Act.call)) :
    (run (step tc9012) ⟨b, d, []⟩ (acts ++ calls.map Act.call)).reports = codes.map (fun c => (c, false)) ↔
      noCode ∉ codes ∧
        Meets (step tc9012) (fun r a => ¬ FalseHold r a) ⟨b, d, []⟩ (acts ++ calls.map Act.call) := by
  constructor
  · intro h
    refine ⟨fun hmem => ?_, no_falseHold (fun c hc => ?_) hok⟩
    · have hnone : ∀ x ∈ (run (step tc9012) ⟨b, d, []⟩ (acts ++ calls.map Act.call)).reports,
          x.1 ≠ noCode := run_noCode fun x hx => absurd hx List.not_mem_nil
      rw [h] at hnone
      exact hnone (noCode, false) (List.mem_map.mpr ⟨noCode, hmem, rfl⟩) rfl
    · rw [h] at hc
      obtain ⟨c', -, heq⟩ := List.mem_map.mp hc
      exact Bool.false_ne_true (congrArg Prod.snd heq)
  · rintro ⟨hnone, hplain⟩
    have hboth := (hok.and hplain).mono fun r a h =>
      (⟨h.1, fun _ => mt seesHold_iff.mp h.2⟩ :
        InTime tc9012 r a ∧ (true = true → ¬ SeesHold tc9012 r a))
    obtain ⟨hacts, hafter⟩ := Meets.append_iff.mp hboth
    obtain ⟨hcodes, hcomplete⟩ := codes_of_frames (P := Complete tc9012)
      (fun c f hf => ⟨hf.code_eq, hf.complete⟩) hframes
    have hstart : Awaits tc9012 true ⟨b, d, []⟩ (stored acts ++ []) codes := by
      rw [List.append_nil, hstored, ← hcodes]
      exact awaits_wave hb hfound hmaybe hbit hcomplete (fun _ _ _ => rfl) []
    obtain ⟨cs, hlast, hreports⟩ := run_awaits tc9012_sound hstart hacts
    rw [List.nil_append, plain_of_notMem hnone] at hreports
    have hlen : (shown cs).length ≤ calls.length := by
      have hlen := congrArg List.length hreports
      rw [List.length_append, plain, List.length_map, List.length_map] at hlen
      omega
    rw [run_append, run_calls tc9012_sound hlast hafter hlen]
    exact hreports

def tcPreamble : Pulse := .ofTicks 112500 112500

def tcBit (b : Bool) : Bool × Pulse := (b, .ofTicks 14000 (if b then 42000 else 14000))

def tcGap : Pulse := .ofTicks 14000 1000000

def tcFrame (c : UInt32) : Frame := ⟨tcPreamble, (bits place c).map tcBit, tcGap⟩

theorem tcFrame_tc9012 (c : UInt32) : Tc9012Frame c (tcFrame c) where
  preamble := (by decide : IsPreamble tc9012 tcPreamble)
  bits := by
    rw [tcFrame, List.map_map]
    exact List.map_id _
  data := by
    intro x hx
    obtain ⟨b, -, rfl⟩ := List.mem_map.mp hx
    cases b <;> decide
  gap := (by decide : tc9012.preambMaxLen < tcGap.high.toNat)

def tcBuffer : Cbuffer := ⟨fun _ => 0, 200, 200⟩

def ticking (n : ℕ) : UInt32 := UInt32.ofNat n

theorem tc9012_frame_decoded :
    (run (step tc9012) ⟨tcBuffer, poweron, []⟩
      (stores ([tcFrame 0x0e0e14eb].flatMap Frame.pulses) ++ [ticking].map Act.call)).reports =
        [(0x0e0e14eb, false)] :=
  (tc9012_frames_decoded_iff (.cons (tcFrame_tc9012 0x0e0e14eb) .nil) rfl rfl rfl rfl (stored_stores _)
    (by decide : [(0x0e0e14eb : UInt32)].length ≤ [ticking].length) (by decide +kernel)).mpr ⟨by decide, by decide +kernel⟩

def opening : List Act := stores (tcPreamble :: [(tcBit false).2]) ++ [.store 14000 0]

def ending : List Act := .store 14000 1 :: stores (((tcFrame 5).data.drop 2).map Prod.snd ++ [tcGap])

theorem first_bit_taken_for_hold :
    Tc9012Frame 5 (tcFrame 5) ∧ stored (opening ++ .call ticking :: ending) = wave [tcFrame 5] ∧
      Meets (step tc9012) (InTime tc9012) ⟨tcBuffer, poweron, []⟩
        (opening ++ .call ticking :: ending ++ [ticking].map Act.call) ∧
      (run (step tc9012) ⟨tcBuffer, poweron, []⟩
        (opening ++ .call ticking :: ending ++ [ticking].map Act.call)).reports = [(0, true)] := by
  refine ⟨tcFrame_tc9012 5, by decide +kernel, ?_, by decide +kernel⟩
  rw [List.append_assoc]
  refine Meets.append_iff.mpr ⟨by decide +kernel, fun _ => ⟨1, ?_, ?_, ?_⟩, ?_⟩
  · decide
  · decide
  · decide +kernel
  · decide +kernel

end Decoding

end SynaBoot.Tc9012Frames
