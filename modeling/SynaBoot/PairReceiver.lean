import SynaBoot.PairFrames

namespace SynaBoot.PairReceiver

open SynaBoot.CircularBuffer SynaBoot.IrSamples SynaBoot.PairDecoder SynaBoot.PairFrames
  SynaBoot.Schedules

structure Receiver where
  buffer : Cbuffer
  decoder : Decoder
  reports : List (UInt32 × Bool)

inductive Act where
  | store (len highLow : UInt32)
  | call (now : ℕ → UInt32)

def report (r : Result) : List (UInt32 × Bool) :=
  if r.rcvCode = noCode then [] else [(r.rcvCode, r.isHold)]

def stored : List Act → List UInt32
  | [] => []
  | .store len highLow :: as => sample len highLow :: stored as
  | .call _ :: as => stored as

def stores (us : List Pulse) : List Act := us.flatMap fun u => [.store u.low 0, .store u.high 1]

section Step

variable (p : Protocol)

def step : Act → Receiver → Receiver
  | .store len highLow, r => { r with buffer := storeIrcbuffer len highLow r.buffer }
  | .call now, r =>
    let result := read p now r.buffer false r.decoder
    ⟨result.buffer, result.decoder, r.reports ++ report result⟩

def afterLoop (now : ℕ → UInt32) (r : Receiver) : Cbuffer × Pass :=
  loop p now 256 r.buffer (begin r.decoder)

/-- No sample is lost, and no unfinished frame is too old for a call. -/
def InTime (r : Receiver) : Act → Prop
  | .store _ _ => r.buffer.pending < 255
  | .call now =>
    let s := (afterLoop p now r).2
    s.decoder.preambleFound = true →
      ∃ e, e ≤ p.frameMaxLen.toNat ∧ 0 < e ∧ Elapsed s.decoder.preambleTime (now s.readings) e

instance (r : Receiver) : (a : Act) → Decidable (InTime p r a)
  | .store _ _ => inferInstanceAs (Decidable (_ < 255))
  | .call _ => inferInstanceAs (Decidable (_ → _))

def SeesHold (r : Receiver) : Act → Prop
  | .store _ _ => False
  | .call now =>
    let (b, s) := afterLoop p now r
    (lookAhead p (b.slots b.start) false s).1 = true

def Awaits (hold : Bool) (r : Receiver) (later : List UInt32) (cs : List UInt32) : Prop :=
  ∃ us, r.buffer.contents ++ later = us.flatMap Pulse.samples ∧ At p hold r.decoder us cs

end Step

def shown (cs : List UInt32) : List UInt32 := cs.filter (· != noCode)

def plain (cs : List UInt32) : List (UInt32 × Bool) := (shown cs).map fun c => (c, false)

section Calls

variable {p : Protocol} {now : ℕ → UInt32} {hold : Bool} {s : Pass} {d d' : Decoder}
  {ws later cs : List UInt32} {us : List Pulse} {r : Receiver}

theorem shown_noCode : shown (noCode :: cs) = shown cs := List.filter_cons_of_neg (by decide)

theorem shown_cons {c : UInt32} (h : c ≠ noCode) : shown (c :: cs) = c :: shown cs :=
  List.filter_cons_of_pos (bne_iff_ne.mpr h)

theorem plain_of_notMem (h : noCode ∉ cs) : plain cs = cs.map fun c => (c, false) := by
  have hall : shown cs = cs :=
    List.filter_eq_self.mpr fun c hc => bne_iff_ne.mpr fun heq => h (heq ▸ hc)
  rw [plain, hall]

theorem stored_stores (us : List Pulse) : stored (stores us) = us.flatMap Pulse.samples := by
  induction us with
  | nil => rfl
  | cons u us ih => exact congrArg (Pulse.samples u ++ ·) ih

theorem scan_pulse {u : Pulse} (hs : s.rcvCode = noCode) (hlen : 2 ≤ ws.length)
    (h : ws ++ later = (u :: us).flatMap Pulse.samples) :
    ∃ ws', ws' ++ later = us.flatMap Pulse.samples ∧
      scan p now ws s = scan p now ws' (pair p now u.low.toNat u.high.toNat s) := by
  obtain ⟨w, v, ws, rfl⟩ := PairLoop.exists_cons_cons hlen
  obtain ⟨hw, htail⟩ := List.cons.inj h
  obtain ⟨hv, hrest⟩ := List.cons.inj htail
  have hlow : isHigh w = false := hw ▸ @isHigh_sample _ false u.low_lt
  have hlen : levelLen w = u.low.toNat := hw ▸ @levelLen_sample _ false u.low_lt
  have hlen' : levelLen v = u.high.toNat := hv ▸ @levelLen_sample _ true u.high_lt
  refine ⟨ws, hrest, ?_⟩
  rw [scan, if_pos hs, if_neg (by rw [hlow]; exact Bool.false_ne_true), hlen, hlen']

theorem samples_short (h : ws ++ [] = us.flatMap Pulse.samples) (hlen : ws.length < 2) : us = [] := by
  cases us with
  | nil => rfl
  | cons u us =>
    rw [List.append_nil] at h
    rw [h, List.flatMap_cons, List.length_append] at hlen
    change 2 + _ < 2 at hlen
    omega

theorem scan_at (now : ℕ → UInt32) (hp : Sound p) (hs : s.rcvCode = noCode) (hat : At p hold s.decoder us cs)
    (hws : ws ++ later = us.flatMap Pulse.samples) :
    ∃ us' cs', (scan p now ws s).1 ++ later = us'.flatMap Pulse.samples ∧
      At p hold (scan p now ws s).2.decoder us' cs' ∧
      shown cs = shown ((scan p now ws s).2.rcvCode :: cs') ∧
      ((scan p now ws s).2.rcvCode = noCode → (scan p now ws s).1.length < 2) := by
  induction us generalizing ws s cs with
  | nil =>
    have hnil : ws = [] := (List.append_eq_nil_iff.mp hws).1
    rw [hnil] at hws ⊢
    refine ⟨[], cs, hws, hat, ?_, fun _ => Nat.zero_lt_two⟩
    change shown cs = shown (s.rcvCode :: cs)
    rw [hs, shown_noCode]
  | cons u us ih =>
    by_cases hshort : ws.length < 2
    · rw [scan_of_short hshort]
      refine ⟨u :: us, cs, hws, hat, ?_, fun _ => hshort⟩
      rw [hs, shown_noCode]
    · obtain ⟨ws, hrest, hscan⟩ := scan_pulse hs (Nat.not_lt.mp hshort) hws
      rw [hscan]
      obtain ⟨cs', hat', hcode⟩ := pair_at now hp hs hat
      by_cases hrcv : (pair p now u.low.toNat u.high.toNat s).rcvCode = noCode
      · have hshown : shown cs = shown cs' := by
          rcases hcode with ⟨-, rfl⟩ | hcons
          · rfl
          · rw [hcons, hrcv, shown_noCode]
        rw [hshown]
        exact ih hrcv hat' hrest
      · rw [scan_of_code hrcv]
        have hcons := hcode.resolve_left fun h => hrcv h.1
        exact ⟨us, cs', hrest, hat', congrArg shown hcons, fun h => absurd h hrcv⟩

variable {w : UInt32}

theorem lookAhead_fst (h : (lookAhead p w false s).1 ≠ true) :
    lookAhead p w false s = (false, s) := by
  unfold lookAhead at h ⊢
  split
  · next hc =>
    rw [if_pos hc] at h
    exact absurd rfl h
  · rfl

theorem lookAhead_maybe (h : s.decoder.preambleMaybeHold = false) :
    (lookAhead p w false s).1 ≠ true := by
  rw [lookAhead, h, if_neg (by simp)]
  exact Bool.false_ne_true

theorem lookAhead_code (h : (lookAhead p w false s).1 = true) :
    (lookAhead p w false s).2.rcvCode ≠ noCode := by
  unfold lookAhead at h ⊢
  split
  · next hc =>
    simp only [Bool.and_eq_true, bne_iff_ne] at hc
    exact hc.1.1.2
  · next hc =>
    rw [if_neg hc] at h
    cases h

theorem checkFrame_rcvCode : (checkFrame p now s).rcvCode = s.rcvCode := by
  unfold checkFrame
  split <;> rfl

theorem checkFrame_inTime
    (h : s.decoder.preambleFound = true →
      ¬ p.frameMaxLen < lengthCaculate (now s.readings) s.decoder.preambleTime) :
    (checkFrame p now s).decoder = s.decoder := by
  unfold checkFrame
  split
  · next hfound => exact if_neg (h hfound)
  · rfl

theorem checkCycle_same :
    SameFrame s.decoder (checkCycle p now s).decoder ∧ (checkCycle p now s).rcvCode = s.rcvCode := by
  unfold checkCycle
  split
  · refine ⟨?_, rfl⟩
    dsimp only
    split
    · exact ⟨rfl, rfl, rfl, rfl⟩
    · exact ⟨rfl, rfl, rfl, rfl⟩
  · exact ⟨⟨rfl, rfl, rfl, rfl⟩, rfl⟩

theorem conclude_rcvCode {c : Cbuffer} {isHold : Bool} :
    (conclude p now c isHold s).rcvCode = (lookAhead p (c.slots c.start) isHold s).2.rcvCode :=
  checkCycle_same.2.trans checkFrame_rcvCode

theorem conclude_same {c : Cbuffer} (hp : Sound p)
    (hlook : (lookAhead p (c.slots c.start) false s).1 ≠ true)
    (htime : s.decoder.preambleFound = true →
      ∃ e, e ≤ p.frameMaxLen.toNat ∧ 0 < e ∧ Elapsed s.decoder.preambleTime (now s.readings) e) :
    (conclude p now c false s).rcvCode = s.rcvCode ∧ (conclude p now c false s).isHold = false ∧
      (conclude p now c false s).buffer = c ∧
      SameFrame s.decoder (conclude p now c false s).decoder := by
  have hframe : (checkFrame p now s).decoder = s.decoder := by
    refine checkFrame_inTime fun hfound => ?_
    obtain ⟨e, hmax, hpos, helapsed⟩ := htime hfound
    have hsound := hp.frame
    rw [UInt32.lt_iff_toNat_lt, lengthCaculate_of_elapsed helapsed hpos (by omega)]
    exact Nat.not_lt.mpr hmax
  have hcycle : SameFrame (checkFrame p now s).decoder
      (checkCycle p now (checkFrame p now s)).decoder ∧
      (checkCycle p now (checkFrame p now s)).rcvCode = (checkFrame p now s).rcvCode := checkCycle_same
  rw [hframe, checkFrame_rcvCode] at hcycle
  rw [conclude, lookAhead_fst hlook]
  exact ⟨hcycle.2, rfl, rfl, hcycle.1⟩

end Calls

section Runs

variable {p : Protocol} {hold : Bool} {r : Receiver} {later rest cs : List UInt32}

theorem awaits_wave {b : Cbuffer} {d : Decoder} {fs : List Frame} (hb : b.start = b.stop)
    (hfound : d.preambleFound = false) (hmaybe : d.preambleMaybeHold = false) (hbit : d.codeBit = 0)
    (hfs : ∀ f ∈ fs, Complete p f) (hshort : ∀ f ∈ fs, f.preamble.length < p.preambHoldMax → hold = true)
    (reports : List (UInt32 × Bool)) :
    Awaits p hold ⟨b, d, reports⟩ (wave fs) (fs.map (Frame.code p)) := by
  refine ⟨fs.flatMap Frame.pulses, ?_, .idle [] fs hfound ?_ ?_ ?_ hfs hshort rfl rfl⟩
  · rw [Buffer.contents_eq_nil_iff.mpr hb]
    rfl
  · rw [hbit]
    decide
  · rw [hmaybe]
    exact fun h => absurd h Bool.false_ne_true
  · exact fun u hu => absurd hu List.not_mem_nil

theorem store_awaits {len highLow : UInt32} (h : Awaits p hold r (sample len highLow :: later) cs)
    (hpending : r.buffer.pending < 255) : Awaits p hold (step p (.store len highLow) r) later cs := by
  obtain ⟨us, hus, hat⟩ := h
  refine ⟨us, ?_, hat⟩
  change (storeIrcbuffer len highLow r.buffer).contents ++ later = _
  rw [contents_store hpending, List.append_assoc]
  exact hus

theorem run_stores {us : List Pulse} (h : r.buffer.pending + 2 * us.length ≤ 255) :
    Meets (step p) (InTime p) r (stores us) ∧
      (run (step p) r (stores us)).buffer.contents = r.buffer.contents ++ us.flatMap Pulse.samples ∧
      (run (step p) r (stores us)).decoder = r.decoder ∧
      (run (step p) r (stores us)).reports = r.reports := by
  induction us generalizing r with
  | nil => exact ⟨trivial, (List.append_nil _).symm, rfl, rfl⟩
  | cons u us ih =>
    rw [List.length_cons] at h
    have hlow : (storeIrcbuffer u.low 0 r.buffer).contents = _ := contents_store (by omega)
    have hpending := congrArg List.length hlow
    rw [List.length_append, Buffer.length_contents, Buffer.length_contents, List.length_singleton]
      at hpending
    have hhigh : (storeIrcbuffer u.high 1 (storeIrcbuffer u.low 0 r.buffer)).contents = _ :=
      contents_store (by omega)
    have hpending' := congrArg List.length hhigh
    rw [List.length_append, Buffer.length_contents, Buffer.length_contents, List.length_singleton]
      at hpending'
    obtain ⟨hmeets, hcontents, hdecoder, hreports⟩ :=
      ih (r := step p (.store u.high 1) (step p (.store u.low 0) r)) (by
        change (storeIrcbuffer u.high 1 (storeIrcbuffer u.low 0 r.buffer)).pending + _ ≤ 255
        omega)
    refine ⟨⟨(by omega : r.buffer.pending < 255),
      (by omega : (storeIrcbuffer u.low 0 r.buffer).pending < 255), hmeets⟩, ?_, hdecoder, hreports⟩
    refine hcontents.trans ?_
    change (storeIrcbuffer u.high 1 (storeIrcbuffer u.low 0 r.buffer)).contents ++ _ = _
    rw [hhigh, hlow, List.flatMap_cons, List.append_assoc, List.append_assoc]
    rfl

theorem step_call (now : ℕ → UInt32) (r : Receiver) :
    step p (.call now) r =
      let result := conclude p now (afterLoop p now r).1 false (afterLoop p now r).2
      ⟨result.buffer, result.decoder, r.reports ++ report result⟩ := rfl

theorem call_reports (now : ℕ → UInt32) (r : Receiver) :
    (step p (.call now) r).reports = r.reports ∨
      (step p (.call now) r).reports.length = r.reports.length + 1 := by
  rw [step_call]
  dsimp only
  rw [report]
  split
  · exact .inl (List.append_nil _)
  · exact .inr List.length_append

variable {now : ℕ → UInt32}

theorem call_hold (h : SeesHold p r (.call now)) :
    ∃ c, (c, true) ∈ (step p (.call now) r).reports := by
  have hflag : (lookAhead p ((afterLoop p now r).1.slots (afterLoop p now r).1.start) false
      (afterLoop p now r).2).1 = true := h
  have hcode : (conclude p now (afterLoop p now r).1 false (afterLoop p now r).2).rcvCode ≠ noCode := by
    rw [conclude_rcvCode]
    exact lookAhead_code hflag
  have hhold : (conclude p now (afterLoop p now r).1 false (afterLoop p now r).2).isHold = true := hflag
  rw [step_call]
  dsimp only
  rw [report, if_neg hcode, hhold]
  exact ⟨_, List.mem_append_right _ List.mem_cons_self⟩

theorem step_reports (a : Act) (r : Receiver) : r.reports <+: (step p a r).reports := by
  cases a with
  | store len highLow => exact List.prefix_rfl
  | call now => exact List.prefix_append _ _

theorem run_noCode {acts : List Act} (h : ∀ x ∈ r.reports, x.1 ≠ noCode) :
    ∀ x ∈ (run (step p) r acts).reports, x.1 ≠ noCode := by
  induction acts generalizing r with
  | nil => exact h
  | cons a acts ih =>
    refine ih ?_
    cases a with
    | store len highLow => exact h
    | call now =>
      intro x hx
      rcases List.mem_append.mp hx with hx | hx
      · exact h x hx
      · rw [report] at hx
        split at hx
        · cases hx
        · next hne =>
          rw [List.mem_singleton.mp hx]
          exact hne

theorem afterLoop_follows (now : ℕ → UInt32) (r : Receiver) :
    Follows r.buffer (afterLoop p now r) (scan p now r.buffer.contents (begin r.decoder)) := by
  refine loop_follows ?_
  rw [Buffer.length_contents]
  exact (r.buffer.stop - r.buffer.start).isLt.le

theorem call_of_loop {us : List Pulse} {cs' : List UInt32} (hp : Sound p)
    (hus : (afterLoop p now r).1.contents ++ later = us.flatMap Pulse.samples)
    (hat : At p hold (afterLoop p now r).2.decoder us cs')
    (hshown : shown cs = shown ((afterLoop p now r).2.rcvCode :: cs'))
    (hleft : (afterLoop p now r).2.rcvCode = noCode → (afterLoop p now r).1.contents.length < 2)
    (htime : InTime p r (.call now)) (hsees : hold = true → ¬ SeesHold p r (.call now)) :
    Awaits p hold (step p (.call now) r) later cs' ∧
      (step p (.call now) r).reports ++ plain cs' = r.reports ++ plain cs ∧
      ((step p (.call now) r).reports = r.reports →
        (step p (.call now) r).buffer.contents.length < 2) := by
  have hlook : (lookAhead p ((afterLoop p now r).1.slots (afterLoop p now r).1.start) false
      (afterLoop p now r).2).1 ≠ true := by
    cases hold with
    | true => exact hsees rfl
    | false => exact lookAhead_maybe hat.maybe_false
  obtain ⟨hcode, hflag, hbuffer, hsame⟩ := conclude_same hp hlook htime
  have hreport : report (conclude p now (afterLoop p now r).1 false (afterLoop p now r).2) ++ plain cs' =
      plain cs := by
    rw [plain, plain, hshown, report, hcode, hflag]
    split
    · next hnone => rw [hnone, shown_noCode, List.nil_append]
    · next hsome => rw [shown_cons hsome, List.map_cons, List.singleton_append]
  rw [step_call]
  refine ⟨⟨us, ?_, hat.congr hsame⟩, ?_, fun hquiet => ?_⟩
  · dsimp only
    rw [hbuffer]
    exact hus
  · dsimp only
    rw [List.append_assoc, hreport]
  · have hnil : report (conclude p now (afterLoop p now r).1 false (afterLoop p now r).2) = [] :=
      List.append_right_eq_self.mp hquiet
    dsimp only
    rw [hbuffer]
    refine hleft ?_
    rw [← hcode]
    by_contra hne
    rw [report, if_neg hne] at hnil
    cases hnil

theorem call_awaits (hp : Sound p) (h : Awaits p hold r later cs) (htime : InTime p r (.call now))
    (hsees : hold = true → ¬ SeesHold p r (.call now)) :
    ∃ cs', Awaits p hold (step p (.call now) r) later cs' ∧
      (step p (.call now) r).reports ++ plain cs' = r.reports ++ plain cs ∧
      ((step p (.call now) r).reports = r.reports →
        (step p (.call now) r).buffer.contents.length < 2) := by
  obtain ⟨us, hus, hat⟩ := h
  have hloop := afterLoop_follows (p := p) now r
  obtain ⟨us', cs', hus', hat', hshown, hleft⟩ :=
    scan_at (s := begin r.decoder) now hp rfl hat hus
  rw [← hloop.pass] at hat' hshown hleft
  rw [← hloop.contents] at hus' hleft
  exact ⟨cs', call_of_loop hp hus' hat' hshown hleft htime hsees⟩

theorem run_awaits (hp : Sound p) {acts : List Act} (h : Awaits p hold r (stored acts ++ rest) cs)
    (hok : Meets (step p) (fun r a => InTime p r a ∧ (hold = true → ¬ SeesHold p r a)) r acts) :
    ∃ cs', Awaits p hold (run (step p) r acts) rest cs' ∧
      (run (step p) r acts).reports ++ plain cs' = r.reports ++ plain cs := by
  induction acts generalizing r cs with
  | nil => exact ⟨cs, h, rfl⟩
  | cons a acts ih =>
    cases a with
    | store len highLow => exact ih (store_awaits h hok.1.1) hok.2
    | call now =>
      obtain ⟨cs', hnext, hreports, -⟩ := call_awaits hp h hok.1.1 hok.1.2
      obtain ⟨cs'', hlast, hrest⟩ := ih hnext hok.2
      exact ⟨cs'', hlast, hrest.trans hreports⟩

theorem Awaits.drained (h : Awaits p hold r [] cs) (hlen : r.buffer.contents.length < 2) : cs = [] := by
  obtain ⟨us, hus, hat⟩ := h
  rw [samples_short hus hlen] at hat
  exact hat.codes_nil

theorem run_calls (hp : Sound p) {calls : List (ℕ → UInt32)} (h : Awaits p hold r [] cs)
    (hok : Meets (step p) (fun r a => InTime p r a ∧ (hold = true → ¬ SeesHold p r a)) r
      (calls.map Act.call))
    (hcalls : (shown cs).length ≤ calls.length) :
    (run (step p) r (calls.map Act.call)).reports = r.reports ++ plain cs := by
  induction calls generalizing r cs with
  | nil =>
    have hnil : shown cs = [] := List.length_eq_zero_iff.mp (Nat.le_zero.mp hcalls)
    rw [plain, hnil]
    exact (List.append_nil r.reports).symm
  | cons now calls ih =>
    obtain ⟨cs', hnext, hreports, hleft⟩ := call_awaits hp h hok.1.1 hok.1.2
    have hle : (shown cs').length ≤ calls.length := by
      rcases call_reports (p := p) now r with hsame | hmore
      · rw [hnext.drained (hleft hsame)]
        exact Nat.zero_le _
      · have hlen := congrArg List.length hreports
        rw [List.length_append, List.length_append, plain, plain, List.length_map,
          List.length_map] at hlen
        rw [List.length_cons] at hcalls
        omega
    exact (ih hnext hok.2 hle).trans hreports

end Runs

end SynaBoot.PairReceiver
