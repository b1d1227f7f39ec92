import SynaBoot.NecFrames

namespace SynaBoot.NecResync

open SynaBoot.CircularBuffer SynaBoot.IrSamples SynaBoot.PairDecoder SynaBoot.PairFrames
  SynaBoot.PairReceiver SynaBoot.NecFrames SynaBoot.Schedules

structure Cut where
  preamble : Pulse
  data : List (Bool × Pulse)
  deriving DecidableEq

structure CutOff (t : Cut) : Prop where
  preamble : nec.preambHoldMax ≤ t.preamble.length ∧ t.preamble.length < nec.preambMaxLen
  low : nec.preambMinLow < t.preamble.low.toNat ∧ t.preamble.low.toNat < nec.preambMaxLow
  length : t.data.length < 32
  data : ∀ x ∈ t.data, Carries nec x.1 x.2

def line (t : Cut) (f : Frame) : List Pulse := t.preamble :: (t.data.map Prod.snd ++ f.pulses)

/-- The first code is the one of the complete frame. -/
def Resynchronises (t : Cut) (c : UInt32) (f : Frame) : Prop :=
  ∀ (b : Cbuffer) (d : Decoder) (acts : List Act) (calls : List (ℕ → UInt32)), b.start = b.stop →
    Idle d → stored acts = (line t f).flatMap Pulse.samples → calls ≠ [] →
    Meets (step nec) (InTime nec) ⟨b, d, []⟩ (acts ++ calls.map Act.call) →
    (run (step nec) ⟨b, d, []⟩ (acts ++ calls.map Act.call)).reports.head? = some (c, false)

def carried (data : UInt32) (ds : List (Bool × Pulse)) : UInt32 :=
  (ds.getLast?.map fun x => x.1.toUInt32).getD data

inductive Cutting (t : Cut) (f : Frame) (ds : List (Bool × Pulse)) (d : Decoder) (us : List Pulse) : Prop
  | before (found : d.preambleFound = false) (maybe : d.preambleMaybeHold = false)
      (bit : d.codeBit ≠ 32) (data : ds = t.data) (pulses : us = line t f)
  | inside (found : d.preambleFound = true) (maybe : d.preambleMaybeHold = false)
      (bit : d.codeBit + ds.length < 32) (suffix : ds <:+ t.data)
      (pulses : us = ds.map Prod.snd ++ f.pulses)

section Codes

variable {c : UInt32} {f : Frame} {u : Pulse} {b : Bool} {data : UInt32} {ds : List (Bool × Pulse)}

theorem carried_cons (data : UInt32) (x : Bool × Pulse) (ds : List (Bool × Pulse)) :
    carried data (x :: ds) = carried x.1.toUInt32 ds := by
  rw [carried, carried, List.getLast?_cons]
  cases ds.getLast? <;> rfl

theorem carried_bit (ds : List (Bool × Pulse)) : ∃ b : Bool, carried 0 ds = b.toUInt32 := by
  rw [carried]
  cases ds.getLast? with
  | none => exact ⟨false, rfl⟩
  | some x => exact ⟨x.1, rfl⟩

theorem carried_suffix {ds' : List (Bool × Pulse)} (h : carried 0 ds = 0) (hsuffix : ds' <:+ ds) :
    carried 0 ds' = 0 := by
  obtain ⟨front, rfl⟩ := hsuffix
  rw [carried, List.getLast?_append] at h
  cases hlast : ds'.getLast? with
  | none =>
    rw [carried, hlast]
    rfl
  | some x =>
    rw [hlast] at h
    rw [carried, hlast]
    exact h

theorem testBit_late (c : UInt32) (b : Bool) {i : ℕ} (hi : i < 31) :
    (c + c + b.toUInt32).toNat.testBit (i + 1) = c.toNat.testBit i := by
  have hb : b.toUInt32.toNat = b.toNat := by cases b <;> rfl
  have hlt : b.toNat < 2 := b.toNat_lt
  have hval : (c + c + b.toUInt32).toNat = (2 * c.toNat + b.toNat) % 2 ^ 32 := by
    rw [UInt32.toNat_add, UInt32.toNat_add, hb]
    omega
  have hdiv : (2 * c.toNat + b.toNat) / 2 = c.toNat := by omega
  rw [hval, Nat.testBit_mod_two_pow, decide_eq_true (by omega), Bool.true_and, Nat.testBit_succ, hdiv]

theorem late_code (h : f.data.map Prod.fst = bits (fun i => i) c) :
    accumulate nec b.toUInt32 1 ((f.data.take 31).map Prod.fst) = c + c + b.toUInt32 := by
  have hshift : (Finset.range 32).image nec.shift = Finset.range 32 := by decide
  have hbits : (f.data.take 31).map Prod.fst =
      (List.range' 1 31).map fun i => (c + c + b.toUInt32).toNat.testBit (nec.shift i) := by
    rw [List.map_take, h, bits, ← List.map_take, List.take_range, List.range'_eq_map_range, List.map_map]
    refine List.map_congr_left fun i hi => ?_
    have hi' : i < 31 := List.mem_range.mp hi
    rw [Function.comp_apply, Nat.add_comm 1 i]
    exact (testBit_late c b hi').symm
  rw [hbits]
  refine accumulate_range hshift rfl ?_
  have hodd : (c + c + b.toUInt32).toNat % 2 = b.toNat := by
    have hb : b.toUInt32.toNat = b.toNat := by cases b <;> rfl
    have hlt : b.toNat < 2 := b.toNat_lt
    rw [UInt32.toNat_add, UInt32.toNat_add, hb]
    omega
  have hone : partialCode nec (c + c + b.toUInt32) 1 = (c + c + b.toUInt32).toNat % 2 ^ 1 := sum_testBit _ 1
  rw [hone, pow_one, hodd]
  cases b <;> rfl

theorem late_eq_iff : (plain [c + c + b.toUInt32]).head? = some (c, false) ↔ c = 0 ∧ b = false := by
  constructor
  · intro h
    by_cases hnone : c + c + b.toUInt32 = noCode
    · rw [hnone, plain, shown_noCode] at h
      cases h
    · rw [plain, shown_cons hnone] at h
      have hsame : c + c + b.toUInt32 = c := congrArg Prod.fst (Option.some.inj h)
      have hval := congrArg UInt32.toNat hsame
      rw [UInt32.toNat_add, UInt32.toNat_add] at hval
      have hlt := c.toNat_lt
      cases b with
      | true =>
        change ((c.toNat + c.toNat) % 2 ^ 32 + 1) % 2 ^ 32 = c.toNat at hval
        have hmax : c = noCode := UInt32.toNat_inj.mp (by change c.toNat = 2 ^ 32 - 1; omega)
        exact absurd (hsame.trans hmax) hnone
      | false =>
        change ((c.toNat + c.toNat) % 2 ^ 32 + 0) % 2 ^ 32 = c.toNat at hval
        have hzero : c.toNat = 0 := by omega
        exact ⟨UInt32.toNat_inj.mp hzero, rfl⟩
  · rintro ⟨rfl, rfl⟩
    rfl

theorem carries_ignored (h : Carries nec b u) : Ignored nec u := by
  refine Bool.eq_false_of_not_eq_true fun htest => ?_
  have hmax : u.length < nec.data1MaxLen := by
    have hlt := h.2
    have hdata : nec.data0MaxLen ≤ nec.data1MaxLen := by decide
    cases b with
    | false =>
      rw [if_neg Bool.false_ne_true] at hlt
      omega
    | true => exact hlt
  rw [isPreamble, twin_of_lt (h.length_lt nec_sound)] at htest
  simp only [Bool.and_eq_true, decide_eq_true_eq] at htest
  have hmin : nec.data1MaxLen ≤ nec.preambMinLen := by decide
  omega

end Codes

section Reading

variable {t : Cut} {c : UInt32} {f : Frame} {s : Pass} {d d' : Decoder} {u : Pulse}
  {us : List Pulse} {ds : List (Bool × Pulse)} {ws later : List UInt32}

theorem CutOff.isPreamble (ht : CutOff t) : IsPreamble nec t.preamble := by
  have hmin : nec.preambMinLen < nec.preambHoldMax := by decide
  exact ⟨lt_of_lt_of_le hmin ht.preamble.1, ht.preamble.2, ht.low⟩

theorem startFrame_maybe {now : ℕ → UInt32} (hu : IsPreamble nec u)
    (hlong : nec.preambHoldMax ≤ u.length) :
    (startFrame nec now u.twin s).decoder.preambleMaybeHold = false := by
  rw [startFrame, twin_of_lt (hu.length_lt nec_sound)]
  rw [decide_eq_false_iff_not]
  exact not_lt.mpr hlong

theorem pair_again {now : ℕ → UInt32} (hfound : s.decoder.preambleFound = true)
    (hu : IsPreamble nec u) :
    pair nec now u.low.toNat u.high.toNat s = endFrame (addBit nec (startFrame nec now u.twin s)) := by
  have htwin : u.twin = u.length := twin_of_lt (hu.length_lt nec_sound)
  have hmin := hu.1
  have hdata : nec.data1MaxLen ≤ nec.preambMinLen ∧ nec.data0MaxLen ≤ nec.preambMinLen := by decide
  rw [pair, if_pos hfound]
  change (if _ < u.twin ∧ u.twin < _ then _ else _) = _
  rw [if_neg (by omega), if_neg (by change ¬ (_ < u.twin ∧ u.twin < _); omega)]
  exact if_pos (hu.test nec_sound)

theorem first_bit {b : Bool} (hcode : s.decoder.code = 0) (hbit : s.decoder.codeBit = 0)
    (hb : s.data = b.toUInt32) :
    endFrame (addBit nec s) = { s with decoder := { s.decoder with code := b.toUInt32, codeBit := 1 } } := by
  have hplace : (0 : UInt32) + b.toUInt32 <<< UInt32.ofNat (nec.shift 0) = b.toUInt32 := by
    cases b <;> rfl
  rw [addBit, hbit, hcode, hb, hplace]
  rfl

theorem at_late {b : Bool} (hf : NecFrame c f) (hfound : s.decoder.preambleFound = true)
    (hmaybe : s.decoder.preambleMaybeHold = false) (hcode : s.decoder.code = 0)
    (hbit : s.decoder.codeBit = 0) (hb : s.data = b.toUInt32) :
    At nec false (endFrame (addBit nec s)).decoder (f.data.map Prod.snd ++ [f.gap])
      [c + c + b.toUInt32] := by
  have hlen : f.data.length = 32 := hf.complete.length
  have htake : (f.data.take 31).length = 30 + 1 := by
    rw [List.length_take, hlen]
    rfl
  obtain ⟨x, ds, hx⟩ := List.exists_cons_of_length_eq_add_one htake
  have hds : ds.length + 1 = 31 := by
    rw [hx] at htake
    exact htake
  rw [first_bit hcode hbit hb]
  refine .data x ds ((f.data.drop 31).map Prod.snd ++ [f.gap]) [] hfound ?_ ?_ ?_ ?_ ?_ ?_ ?_ ?_
  · rw [hds]
  · exact fun h => hmaybe.symm.trans h
  · intro u hu
    rcases List.mem_append.mp hu with hu | hu
    · obtain ⟨y, hy, rfl⟩ := List.mem_map.mp hu
      exact carries_ignored (hf.data y (List.mem_of_mem_drop hy))
    · rw [List.mem_singleton.mp hu]
      exact hf.complete.gap_ignored nec_sound
  · exact fun g hg => absurd hg List.not_mem_nil
  · exact fun g hg => absurd hg List.not_mem_nil
  · intro y hy
    rw [← hx] at hy
    exact hf.data y (List.mem_of_mem_take hy)
  · rw [← hx, List.flatMap_nil, List.append_nil, ← List.append_assoc, ← List.map_append,
      List.take_append_drop]
  · rw [← hx, late_code hf.bits]
    rfl

theorem Cutting.congr (h : Cutting t f ds d us) (hd : SameFrame d d') : Cutting t f ds d' us := by
  cases h with
  | before found maybe bit data pulses =>
    exact .before (hd.found.trans found) (hd.maybe.trans maybe) (by rw [hd.bit]; exact bit) data pulses
  | inside found maybe bit suffix pulses =>
    exact .inside (hd.found.trans found) (hd.maybe.trans maybe) (by rw [hd.bit]; exact bit) suffix pulses

theorem Cutting.maybe_false (h : Cutting t f ds d us) : d.preambleMaybeHold = false := by
  cases h with
  | before _ maybe | inside _ maybe => exact maybe

theorem Cutting.ne_nil (h : Cutting t f ds d us) : us ≠ [] := by
  cases h with
  | before found maybe bit data pulses =>
    rw [pulses]
    exact List.cons_ne_nil _ _
  | inside found maybe bit suffix pulses =>
    rw [pulses]
    exact List.append_ne_nil_of_right_ne_nil _ (List.cons_ne_nil _ _)

theorem pair_cutting (now : ℕ → UInt32) (ht : CutOff t) (hf : NecFrame c f) (hs : s.rcvCode = noCode)
    (hdata : ∃ b : Bool, s.data = b.toUInt32) (h : Cutting t f ds s.decoder (u :: us)) :
    (pair nec now u.low.toNat u.high.toNat s).rcvCode = noCode ∧
      ((∃ ds', ds' <:+ ds ∧ Cutting t f ds' (pair nec now u.low.toNat u.high.toNat s).decoder us ∧
          (∃ b : Bool, (pair nec now u.low.toNat u.high.toNat s).data = b.toUInt32) ∧
          carried (pair nec now u.low.toNat u.high.toNat s).data ds' = carried s.data ds) ∨
        At nec false (pair nec now u.low.toNat u.high.toNat s).decoder us
          [c + c + carried s.data ds]) := by
  cases h with
  | before found maybe bit data pulses =>
    obtain ⟨rfl, rfl⟩ := List.cons.inj pulses
    rw [pair_preamble nec_sound found ht.isPreamble, data]
    refine ⟨hs, .inl ⟨t.data, List.suffix_rfl, ?_, hdata, rfl⟩⟩
    refine .inside rfl (startFrame_maybe ht.isPreamble ht.preamble.1) ?_ List.suffix_rfl rfl
    rw [startFrame, Nat.zero_add]
    exact ht.length
  | inside found maybe bit suffix pulses =>
    cases ds with
    | nil =>
      obtain ⟨rfl, rfl⟩ := List.cons.inj pulses
      obtain ⟨b, hb⟩ := hdata
      have hmaybe : (startFrame nec now f.preamble.twin s).decoder.preambleMaybeHold = false :=
        startFrame_maybe hf.complete.preamble hf.preamble.1
      have hat : At nec false (endFrame (addBit nec (startFrame nec now f.preamble.twin s))).decoder _ _ :=
        at_late hf rfl hmaybe rfl rfl hb
      have hrcv : (endFrame (addBit nec (startFrame nec now f.preamble.twin s))).rcvCode = noCode := by
        rw [first_bit (s := startFrame nec now f.preamble.twin s) rfl rfl hb]
        exact hs
      have hcarried : carried s.data [] = b.toUInt32 := hb
      rw [pair_again found hf.complete.preamble, hcarried]
      exact ⟨hrcv, .inr hat⟩
    | cons x ds =>
      obtain ⟨rfl, rfl⟩ := List.cons.inj pulses
      have hx : Carries nec x.1 x.2 := ht.data x (suffix.subset List.mem_cons_self)
      rw [List.length_cons] at bit
      have hlt : s.decoder.codeBit < 32 := by omega
      have hne : s.decoder.codeBit + 1 ≠ 32 := by omega
      rw [pair_carries nec_sound found hx, addBit, if_pos hlt, endFrame, if_neg hne]
      refine ⟨hs, .inl ⟨ds, List.suffix_cons x ds, ?_, ⟨x.1, rfl⟩, (carried_cons s.data x ds).symm⟩⟩
      refine .inside found maybe ?_ ((List.suffix_cons x ds).trans suffix) rfl
      change s.decoder.codeBit + 1 + ds.length < 32
      omega

theorem scan_cutting (now : ℕ → UInt32) (ht : CutOff t) (hf : NecFrame c f) (hs : s.rcvCode = noCode)
    (hdata : ∃ b : Bool, s.data = b.toUInt32) (h : Cutting t f ds s.decoder us)
    (hws : ws ++ later = us.flatMap Pulse.samples) :
    (∃ ds' us', ds' <:+ ds ∧ Cutting t f ds' (scan nec now ws s).2.decoder us' ∧
        (scan nec now ws s).1 ++ later = us'.flatMap Pulse.samples ∧
        (scan nec now ws s).2.rcvCode = noCode ∧ (scan nec now ws s).1.length < 2) ∨
      ∃ us' cs, At nec false (scan nec now ws s).2.decoder us' cs ∧
        (scan nec now ws s).1 ++ later = us'.flatMap Pulse.samples ∧
        shown [c + c + carried s.data ds] = shown ((scan nec now ws s).2.rcvCode :: cs) ∧
        ((scan nec now ws s).2.rcvCode = noCode → (scan nec now ws s).1.length < 2) := by
  induction us generalizing ws s ds with
  | nil => exact absurd rfl h.ne_nil
  | cons u us ih =>
    by_cases hshort : ws.length < 2
    · rw [scan_of_short hshort]
      exact .inl ⟨ds, u :: us, List.suffix_rfl, h, hws, hs, hshort⟩
    · obtain ⟨ws, hrest, hscan⟩ := scan_pulse hs (Nat.not_lt.mp hshort) hws
      rw [hscan]
      obtain ⟨hrcv, ⟨ds', hsuffix, hcut, hbit, hcarried⟩ | hat⟩ := pair_cutting now ht hf hs hdata h
      · rw [← hcarried]
        rcases ih hrcv hbit hcut hrest with ⟨ds'', us', hsuffix', hleft⟩ | hright
        · exact .inl ⟨ds'', us', hsuffix'.trans hsuffix, hleft⟩
        · exact .inr hright
      · obtain ⟨us', cs', hus', hat', hshown, hleft⟩ := scan_at now nec_sound hrcv hat hrest
        exact .inr ⟨us', cs', hat', hus', hshown, hleft⟩

end Reading

section Runs

variable {t : Cut} {c : UInt32} {f : Frame} {r : Receiver} {ds : List (Bool × Pulse)}
  {later rest : List UInt32} {acts : List Act}

def Precedes (t : Cut) (f : Frame) (ds : List (Bool × Pulse)) (r : Receiver) (later : List UInt32) : Prop :=
  ∃ us, r.buffer.contents ++ later = us.flatMap Pulse.samples ∧ Cutting t f ds r.decoder us

theorem store_precedes {len highLow : UInt32} (h : Precedes t f ds r (sample len highLow :: later))
    (hpending : r.buffer.pending < 255) :
    Precedes t f ds (step nec (.store len highLow) r) later := by
  obtain ⟨us, hus, hcut⟩ := h
  refine ⟨us, ?_, hcut⟩
  change (storeIrcbuffer len highLow r.buffer).contents ++ later = _
  rw [contents_store hpending, List.append_assoc]
  exact hus

theorem call_precedes {now : ℕ → UInt32} (ht : CutOff t) (hf : NecFrame c f)
    (h : Precedes t f ds r later) (htime : InTime nec r (.call now)) :
    (∃ ds', ds' <:+ ds ∧ Precedes t f ds' (step nec (.call now) r) later ∧
        (step nec (.call now) r).reports = r.reports ∧
        (step nec (.call now) r).buffer.contents.length < 2) ∨
      ∃ cs, Awaits nec false (step nec (.call now) r) later cs ∧
        (step nec (.call now) r).reports ++ plain cs = r.reports ++ plain [c + c + carried 0 ds] ∧
        ((step nec (.call now) r).reports = r.reports →
          (step nec (.call now) r).buffer.contents.length < 2) := by
  obtain ⟨us, hus, hcut⟩ := h
  have hloop := afterLoop_follows (p := nec) now r
  have hscan := scan_cutting (s := begin r.decoder) now ht hf rfl ⟨false, rfl⟩ hcut hus
  rw [← hloop.pass, ← hloop.contents] at hscan
  rcases hscan with ⟨ds', us', hsuffix, hcut', hus', hnone, hshort⟩ | ⟨us', cs, hat, hus', hshown, hleft⟩
  · obtain ⟨hcode, hflag, hbuffer, hsame⟩ :=
      conclude_same nec_sound (lookAhead_maybe hcut'.maybe_false) htime
    rw [step_call]
    refine .inl ⟨ds', hsuffix, ⟨us', ?_, hcut'.congr hsame⟩, ?_, ?_⟩
    · dsimp only
      rw [hbuffer]
      exact hus'
    · dsimp only
      rw [report, if_pos (hcode.trans hnone), List.append_nil]
    · dsimp only
      rw [hbuffer]
      exact hshort
  · refine .inr ⟨cs, call_of_loop nec_sound hus' hat hshown hleft htime ?_⟩
    exact fun h => absurd h Bool.false_ne_true

theorem run_precedes (ht : CutOff t) (hf : NecFrame c f) (h : Precedes t f ds r (stored acts ++ rest))
    (hacts : Meets (step nec) (InTime nec) r acts) :
    (∃ ds', ds' <:+ ds ∧ Precedes t f ds' (run (step nec) r acts) rest ∧
        (run (step nec) r acts).reports = r.reports) ∨
      ∃ ds' cs, ds' <:+ ds ∧ Awaits nec false (run (step nec) r acts) rest cs ∧
        (run (step nec) r acts).reports ++ plain cs = r.reports ++ plain [c + c + carried 0 ds'] := by
  induction acts generalizing r ds with
  | nil => exact .inl ⟨ds, List.suffix_rfl, h, rfl⟩
  | cons a acts ih =>
    cases a with
    | store len highLow => exact ih (store_precedes h hacts.1) hacts.2
    | call now =>
      rcases call_precedes ht hf h hacts.1 with ⟨ds', hsuffix, hnext, hsame, -⟩ | ⟨cs, hnext, hreports, -⟩
      · rcases ih hnext hacts.2 with ⟨ds'', hsuffix', hlast, hreports⟩ | ⟨ds'', cs, hsuffix', hlast, hreports⟩
        · exact .inl ⟨ds'', hsuffix'.trans hsuffix, hlast, hreports.trans hsame⟩
        · rw [hsame] at hreports
          exact .inr ⟨ds'', cs, hsuffix'.trans hsuffix, hlast, hreports⟩
      · have hrest : Awaits nec false (step nec (.call now) r) (stored acts ++ rest) cs := hnext
        obtain ⟨cs', hlast, hreports'⟩ := run_awaits nec_sound hrest (inTime_no_hold hacts.2)
        exact .inr ⟨ds, cs', List.suffix_rfl, hlast, hreports'.trans hreports⟩

theorem call_late {now : ℕ → UInt32} (ht : CutOff t) (hf : NecFrame c f) (h : Precedes t f ds r [])
    (htime : InTime nec r (.call now)) :
    ∃ cs, Awaits nec false (step nec (.call now) r) [] cs ∧ shown cs = [] ∧
      (step nec (.call now) r).reports = r.reports ++ plain [c + c + carried 0 ds] := by
  rcases call_precedes ht hf h htime with ⟨ds', -, ⟨us, hus, hcut⟩, -, hshort⟩ | ⟨cs, hnext, hreports, hleft⟩
  · exact absurd (samples_short hus hshort) hcut.ne_nil
  · have hnil : shown cs = [] := by
      rcases call_reports (p := nec) now r with hsame | hmore
      · rw [hnext.drained (hleft hsame)]
        rfl
      · have hlen := congrArg List.length hreports
        have hone : (shown [c + c + carried 0 ds]).length ≤ 1 := List.length_filter_le _ _
        rw [List.length_append, List.length_append, plain, plain, List.length_map,
          List.length_map] at hlen
        exact List.length_eq_zero_iff.mp (by omega)
    refine ⟨cs, hnext, hnil, ?_⟩
    rw [plain, hnil] at hreports
    exact (List.append_nil _).symm.trans hreports

theorem precedes_line {b : Cbuffer} {d : Decoder} (hb : b.start = b.stop) (hd : Idle d)
    (reports : List (UInt32 × Bool)) :
    Precedes t f t.data ⟨b, d, reports⟩ ((line t f).flatMap Pulse.samples) := by
  refine ⟨line t f, ?_, .before hd.found hd.maybe ?_ rfl rfl⟩
  · rw [Buffer.contents_eq_nil_iff.mpr hb]
    rfl
  · rw [hd.bit]
    decide

theorem resync_reports {b : Cbuffer} {d : Decoder} {calls : List (ℕ → UInt32)} (ht : CutOff t)
    (hf : NecFrame c f) (hb : b.start = b.stop) (hd : Idle d)
    (hstored : stored acts = (line t f).flatMap Pulse.samples) (hcalls : calls ≠ [])
    (hok : Meets (step nec) (InTime nec) ⟨b, d, []⟩ (acts ++ calls.map Act.call)) :
    ∃ ds, ds <:+ t.data ∧
      (run (step nec) ⟨b, d, []⟩ (acts ++ calls.map Act.call)).reports = plain [c + c + carried 0 ds] := by
  obtain ⟨hacts, hafter⟩ := Meets.append_iff.mp hok
  have hstart : Precedes t f t.data ⟨b, d, []⟩ (stored acts ++ []) := by
    rw [List.append_nil, hstored]
    exact precedes_line hb hd []
  obtain ⟨now, calls, rfl⟩ := List.exists_cons_of_ne_nil hcalls
  rw [run_append]
  rcases run_precedes ht hf hstart hacts with ⟨ds, hsuffix, hlast, hreports⟩ | ⟨ds, cs, hsuffix, hlast, hreports⟩
  · obtain ⟨cs, hnext, hnil, hlate⟩ := call_late ht hf hlast hafter.1
    have hrest := run_calls nec_sound hnext (inTime_no_hold hafter.2) (by rw [hnil]; exact Nat.zero_le _)
    refine ⟨ds, hsuffix, ?_⟩
    rw [plain, hnil, hlate, hreports] at hrest
    exact hrest.trans (List.append_nil _)
  · have hone : (shown cs).length ≤ (now :: calls).length := by
      have hlen := congrArg List.length hreports
      have hle : (shown [c + c + carried 0 ds]).length ≤ 1 := List.length_filter_le _ _
      rw [List.nil_append, List.length_append, plain, plain, List.length_map, List.length_map] at hlen
      rw [List.length_cons]
      omega
    have hrest := run_calls nec_sound hlast (inTime_no_hold hafter) hone
    exact ⟨ds, hsuffix, hrest.trans hreports⟩

theorem call_inTime (now : ℕ → UInt32) (ht : CutOff t) (hf : NecFrame c f) (h : Precedes t f ds r []) :
    InTime nec r (.call now) := by
  obtain ⟨us, hus, hcut⟩ := h
  have hloop := afterLoop_follows (p := nec) now r
  have hscan := scan_cutting (s := begin r.decoder) now ht hf rfl ⟨false, rfl⟩ hcut hus
  intro hfound
  rw [hloop.pass] at hfound
  have hnone := scan_found (fun _ => rfl) hfound
  rcases hscan with ⟨ds', us', -, hcut', hus', -, hshort⟩ | ⟨us', cs, hat, hus', -, hleft⟩
  · exact absurd (samples_short hus' hshort) hcut'.ne_nil
  · rw [samples_short hus' (hleft hnone)] at hat
    exact absurd (hat.found_nil.symm.trans hfound) Bool.false_ne_true

/-- A preamble in a cut-off frame costs the next code its first place. -/
theorem resynchronises_iff (ht : CutOff t) (hf : NecFrame c f) :
    Resynchronises t c f ↔ c = 0 ∧ ∀ x ∈ t.data.getLast?, x.1 = false := by
  have hcarried : (∀ x ∈ t.data.getLast?, x.1 = false) ↔ carried 0 t.data = 0 := by
    rw [carried]
    cases t.data.getLast? with
    | none => exact ⟨fun _ => rfl, fun _ x hx => absurd hx (Option.not_mem_none x)⟩
    | some x =>
      constructor
      · intro h
        have hx := h x rfl
        change x.1.toUInt32 = 0
        rw [hx]
        rfl
      · rintro h y hy
        rw [← Option.some.inj hy]
        change x.1.toUInt32 = 0 at h
        cases hx : x.1 with
        | false => rfl
        | true =>
          rw [hx] at h
          exact absurd h (by decide)
  rw [hcarried]
  constructor
  · intro h
    -- the whole line is stored before the only call
    have hfit : (⟨emptyBuffer, poweron, []⟩ : Receiver).buffer.pending + 2 * (line t f).length ≤ 255 := by
      have hcut := ht.length
      have hlen : f.data.length = 32 := hf.complete.length
      have hempty : emptyBuffer.pending = 0 := rfl
      change emptyBuffer.pending + _ ≤ 255
      rw [hempty, line, Frame.pulses, List.length_cons, List.length_append, List.length_cons,
        List.length_append, List.length_map, List.length_map, hlen, List.length_singleton]
      omega
    obtain ⟨hmeets, hcontents, hdecoder, hreports⟩ := run_stores (p := nec) hfit
    have hlast : Precedes t f t.data (run (step nec) ⟨emptyBuffer, poweron, []⟩ (stores (line t f))) [] := by
      refine ⟨line t f, ?_, ?_⟩
      · rw [hcontents, List.append_nil]
        rfl
      · rw [hdecoder]
        exact .before rfl rfl (by decide) rfl rfl
    have htime := call_inTime clock ht hf hlast
    obtain ⟨cs, -, -, hlate⟩ := call_late ht hf hlast htime
    have hhead := h emptyBuffer poweron (stores (line t f)) [clock] rfl ⟨rfl, rfl, rfl⟩ (stored_stores _)
      (List.cons_ne_nil _ _) (Meets.append_iff.mpr ⟨hmeets, htime, trivial⟩)
    rw [run_append] at hhead
    change (step nec (.call clock) _).reports.head? = _ at hhead
    rw [hlate, hreports, List.nil_append] at hhead
    obtain ⟨b, hbit⟩ := carried_bit t.data
    rw [hbit] at hhead ⊢
    obtain ⟨hc, rfl⟩ := late_eq_iff.mp hhead
    exact ⟨hc, rfl⟩
  · rintro ⟨rfl, hzero⟩ b d acts calls hb hd hstored hcalls hok
    obtain ⟨ds, hsuffix, hreports⟩ := resync_reports ht hf hb hd hstored hcalls hok
    rw [hreports, carried_suffix hzero hsuffix]
    rfl

def typicalCut : Cut := ⟨typicalPreamble, [typicalBit true, typicalBit false]⟩

theorem typicalCut_cutOff : CutOff typicalCut where
  preamble := by decide
  low := by decide
  length := by decide
  data := by decide

theorem zero_resynchronises : Resynchronises typicalCut 0 (typicalFrame 0) :=
  (resynchronises_iff typicalCut_cutOff (typicalFrame_nec 0)).mpr ⟨rfl, by decide⟩

theorem next_code_doubled :
    CutOff typicalCut ∧ NecFrame 5 (typicalFrame 5) ∧
      stored (stores (line typicalCut (typicalFrame 5))) =
        (line typicalCut (typicalFrame 5)).flatMap Pulse.samples ∧
      Meets (step nec) (InTime nec) ⟨emptyBuffer, poweron, []⟩
        (stores (line typicalCut (typicalFrame 5)) ++ [clock].map Act.call) ∧
      (run (step nec) ⟨emptyBuffer, poweron, []⟩
        (stores (line typicalCut (typicalFrame 5)) ++ [clock].map Act.call)).reports = [(10, false)] ∧
      ¬ Resynchronises typicalCut 5 (typicalFrame 5) := by
  have hmeets : Meets (step nec) (InTime nec) ⟨emptyBuffer, poweron, []⟩
      (stores (line typicalCut (typicalFrame 5)) ++ [clock].map Act.call) := by decide +kernel
  have hreports : (run (step nec) ⟨emptyBuffer, poweron, []⟩
      (stores (line typicalCut (typicalFrame 5)) ++ [clock].map Act.call)).reports = [(10, false)] := by
    decide +kernel
  refine ⟨typicalCut_cutOff, typicalFrame_nec 5, stored_stores _, hmeets, hreports, fun h => ?_⟩
  have hhead := h emptyBuffer poweron _ [clock] rfl ⟨rfl, rfl, rfl⟩ (stored_stores _)
    (List.cons_ne_nil _ _) hmeets
  rw [hreports] at hhead
  exact absurd hhead (by decide)

end Runs

end SynaBoot.NecResync
