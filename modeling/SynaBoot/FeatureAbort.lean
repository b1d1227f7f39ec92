import SynaBoot.CecSrv

namespace SynaBoot.FeatureAbort

open SynaBoot.CecSrv

structure Frame where
  bytes : Bytes
  pos : 1 ≤ bytes.length
  le : bytes.length ≤ 16

structure LegalReply (f : Frame) (m : TxMsg) : Prop where
  length : 2 ≤ f.bytes.length
  directed : (header f.bytes).destAddr ≠ 0x0f
  registered : (header f.bytes).srcAddr ≠ 0x0f
  opcode : (header f.bytes).opcode ≠ Opcode.featureAbort
  initiator : m.destAddr = (header f.bytes).srcAddr

def AbortsLegally (host : Host) (sys : System) (f : Frame) : Prop :=
  ∀ m, Effect.send m ∈ rxMsg host sys f.bytes → m.opcode = Opcode.featureAbort → LegalReply f m

/-- The messages that a TV answers in another way or not at all. -/
def tvAnswered : List UInt8 :=
  [Opcode.imageViewOn, Opcode.textViewOn, Opcode.givePhyAddr, Opcode.getCecVersion,
   Opcode.giveDevicePowerStatus]

def Illegal (host : Host) (sys : System) (f : Frame) : Prop :=
  sys.hdmiCtrlState ≠ 0 ∧ (header f.bytes).destAddr ≠ 0x0f ∧
    match host with
    | .tv => (header f.bytes).opcode = Opcode.featureAbort ∨
        (header f.bytes).srcAddr = 0x0f ∧ (header f.bytes).opcode ∉ tvAnswered
    | .box => (header f.bytes).srcAddr = 0x0f ∧
        ((header f.bytes).opcode = Opcode.getMenuLang ∨
          (header f.bytes).opcode = Opcode.giveDeviceVendorId ∨
          (header f.bytes).opcode = Opcode.vendorCommandWithId ∧ 5 ≤ f.bytes.length)

section Reading

variable {table : List TableEntry} {bytes : Bytes} {m : Msg} {sys : System}

theorem getMsgMode_header (bytes : Bytes) :
    getMsgMode (header bytes).destAddr =
      if (header bytes).destAddr = 0x0f then broadcast else unicast := by
  have hand : (header bytes).destAddr &&& 0x0f = (header bytes).destAddr := by
    rw [header, UInt8.and_assoc]
    rfl
  rw [getMsgMode, hand]

theorem formatConvert_header (table : List TableEntry) (bytes : Bytes) :
    (formatConvert table bytes).2.srcAddr = (header bytes).srcAddr ∧
      (formatConvert table bytes).2.destAddr = (header bytes).destAddr ∧
      (formatConvert table bytes).2.opcode = (header bytes).opcode := by
  unfold formatConvert
  split
  · unfold fill
    dsimp only
    split_ifs <;> exact ⟨rfl, rfl, rfl⟩
  · exact ⟨rfl, rfl, rfl⟩

theorem formatConvert_ignored_iff :
    (formatConvert table bytes).1 = .ignored ↔ screen table (header bytes) = .ignored := by
  unfold formatConvert
  split
  · next hsuccess =>
    rw [hsuccess]
    unfold fill
    dsimp only
    split_ifs <;> exact ⟨fun h => (by cases h), fun h => (by cases h)⟩
  · exact Iff.rfl

theorem formatConvert_operand (h : screen table (header bytes) ≠ .success) :
    (formatConvert table bytes).2 = header bytes := by
  unfold formatConvert
  split
  · next hsuccess => exact absurd hsuccess h
  · rfl

theorem screen_cases (h : screen table m ≠ .ignored) :
    (m.srcAddr = 0x0f → m.opcode ∈ unregisteredOpcodes) ∧
      (m.destAddr ≠ 0x0f ∨ ∃ e ∈ table, e.opcode = m.opcode ∧ e.mode &&& getMsgMode m.destAddr ≠ 0 ∧
        e.rxactionReqd = true) := by
  unfold screen at h
  split at h
  · exact absurd rfl h
  · next hsrc =>
    refine ⟨fun hf => not_not.mp fun hmem => hsrc ⟨hf, hmem⟩, ?_⟩
    split at h
    · split at h
      · exact absurd rfl h
      · next hdest => exact .inl hdest
    · next e he =>
      split_ifs at h with hmode hlen haction
      · exact absurd rfl h
      · exact absurd rfl h
      · exact absurd rfl h
      · have hopcode := List.find?_some he
        exact .inr ⟨e, List.mem_of_find?_eq_some he, beq_iff_eq.mp hopcode, hmode,
          Bool.eq_true_of_not_eq_false haction⟩

theorem screen_ignored {e : TableEntry} (he : table.find? (fun e => e.opcode == m.opcode) = some e)
    (h : m.operandlen < e.len ∨ e.rxactionReqd = false) : screen table m = .ignored := by
  unfold screen
  rw [he]
  dsimp only
  split_ifs with hsrc hmode hlen haction
  · rfl
  · rfl
  · rfl
  · rfl
  · exact absurd h (not_or.mpr ⟨hlen, haction⟩)

theorem screen_success {e : TableEntry} (hsrc : m.opcode ∈ unregisteredOpcodes)
    (he : table.find? (fun e => e.opcode == m.opcode) = some e)
    (hmode : e.mode &&& getMsgMode m.destAddr ≠ 0) (hlen : ¬ m.operandlen < e.len)
    (haction : e.rxactionReqd = true) : screen table m = .success := by
  unfold screen
  rw [if_neg (fun h => h.2 hsrc), he]
  dsimp only
  rw [if_neg hmode, if_neg hlen, if_neg (by rw [haction]; decide)]

theorem opcode_short (h : bytes.length < 2) : (header bytes).opcode = Opcode.featureAbort := by
  have hnone : bytes[1]? = none := List.getElem?_eq_none (by omega)
  change bytes.getD 1 0 = 0
  rw [List.getD_eq_getElem?_getD, hnone]
  rfl

end Reading

section Switches

variable {sys : System} {m : Msg} {t : TxMsg}

def NoAbort (effects : List Effect) : Prop :=
  ∀ t, Effect.send t ∈ effects → t.opcode ≠ Opcode.featureAbort

theorem noAbort_nil : NoAbort [] := fun _ h => absurd h List.not_mem_nil

theorem noAbort_send (h : t.opcode ≠ Opcode.featureAbort) : NoAbort [.send t] := by
  intro t' ht'
  rw [Effect.send.inj (List.mem_singleton.mp ht')]
  exact h

theorem noAbort_wake (socReq : Option (List UInt8)) : NoAbort (wakeIfStandby sys m socReq) := by
  unfold wakeIfStandby
  split
  · intro t ht
    cases List.mem_singleton.mp ht
  · exact noAbort_nil

theorem noAbort_enterFlow : NoAbort [.enterFlow] := by
  intro t ht
  cases List.mem_singleton.mp ht

theorem noAbort_ite {p : Prop} [Decidable p] {a b : List Effect} (ha : NoAbort a) (hb : NoAbort b) :
    NoAbort (if p then a else b) := by
  split
  · exact ha
  · exact hb

theorem quiet_ite {p : Prop} [Decidable p] {a b : List Effect × Option AbortReason}
    (ha : NoAbort a.1) (hb : NoAbort b.1) : NoAbort (if p then a else b).1 := by
  split
  · exact ha
  · exact hb

theorem tvSwitch_noAbort : NoAbort (tvSwitch sys m).1 := by
  have hphy : Opcode.reportPhyAddr ≠ Opcode.featureAbort := by decide
  have hversion : Opcode.cecVersion ≠ Opcode.featureAbort := by decide
  have hpower : Opcode.reportPowerStatus ≠ Opcode.featureAbort := by decide
  have hnil : NoAbort [] := noAbort_nil
  unfold tvSwitch
  refine quiet_ite hnil ?_
  refine quiet_ite (noAbort_wake _) ?_
  refine quiet_ite (noAbort_send hphy) ?_
  refine quiet_ite (noAbort_send hversion) ?_
  refine quiet_ite (quiet_ite (noAbort_wake _) hnil) ?_
  refine quiet_ite (noAbort_send hpower) ?_
  exact quiet_ite hnil hnil

theorem boxUserControl_noAbort : NoAbort (boxUserControl sys m).1 := by
  unfold boxUserControl
  split
  · split
    · split
      · exact noAbort_wake _
      · exact noAbort_nil
    · exact noAbort_nil
  · split
    · exact noAbort_wake _
    · exact noAbort_nil

theorem boxSwitch_noAbort : NoAbort (boxSwitch sys m).1 := by
  have hphy : Opcode.reportPhyAddr ≠ Opcode.featureAbort := by decide
  have hversion : Opcode.cecVersion ≠ Opcode.featureAbort := by decide
  have hdeck : Opcode.deckStatus ≠ Opcode.featureAbort := by decide
  have hosd : Opcode.setOsdName ≠ Opcode.featureAbort := by decide
  have hpower : Opcode.reportPowerStatus ≠ Opcode.featureAbort := by decide
  have hnil : NoAbort [] := noAbort_nil
  unfold boxSwitch
  refine quiet_ite hnil ?_
  refine quiet_ite (noAbort_ite (noAbort_wake _) hnil) ?_
  refine quiet_ite (noAbort_ite (noAbort_wake _) hnil) ?_
  refine quiet_ite hnil ?_
  refine quiet_ite (noAbort_ite noAbort_enterFlow hnil) ?_
  refine quiet_ite (noAbort_send hphy) ?_
  refine quiet_ite hnil ?_
  refine quiet_ite (noAbort_send hversion) ?_
  refine quiet_ite (quiet_ite hnil (noAbort_send hdeck)) ?_
  refine quiet_ite (quiet_ite (noAbort_wake _) hnil) ?_
  refine quiet_ite (noAbort_ite (noAbort_wake _) hnil) ?_
  refine quiet_ite (noAbort_send hosd) ?_
  refine quiet_ite hnil ?_
  refine quiet_ite boxUserControl_noAbort ?_
  refine quiet_ite hnil ?_
  exact quiet_ite (noAbort_send hpower) hnil

theorem conclude_abort {r : List Effect × Option AbortReason} (hr : NoAbort r.1)
    (ht : t.opcode = Opcode.featureAbort) :
    Effect.send t ∈ conclude m r ↔ ∃ reason, r.2 = some reason ∧ t = featureAbort m reason := by
  unfold conclude
  split
  · next hnone =>
    refine ⟨fun h => absurd ht (hr t h), ?_⟩
    rintro ⟨reason, hsome, -⟩
    exact absurd (hnone.symm.trans hsome) (by simp)
  · next reason hsome =>
    rw [List.mem_append, List.mem_singleton, hsome]
    constructor
    · rintro (h | h)
      · exact absurd ht (hr t h)
      · exact ⟨reason, rfl, Effect.send.inj h⟩
    · rintro ⟨reason', heq, rfl⟩
      rw [Option.some.inj heq]
      exact .inr rfl

theorem tvSwitch_aborts (sys : System)
    (hop : m.opcode = Opcode.userControlPressed → m.operand.first = 0) (hm : m.opcode ∉ tvAnswered) :
    ∃ reason, (tvSwitch sys m).2 = some reason := by
  simp only [tvAnswered, List.mem_cons, List.not_mem_nil, or_false, not_or] at hm
  obtain ⟨himage, htext, hphy, hversion, hpower⟩ := hm
  unfold tvSwitch
  rw [if_neg (not_or.mpr ⟨himage, htext⟩), if_neg hphy, if_neg hversion, if_neg hpower]
  by_cases hpressed : m.opcode = Opcode.userControlPressed
  · have hfirst : m.operand.first ∉ ucPowerCodes := by
      rw [hop hpressed]
      decide
    rw [if_neg hfirst]
    split_ifs <;> exact ⟨_, rfl⟩
  · rw [if_neg hpressed]
    split_ifs <;> exact ⟨_, rfl⟩

theorem tvSwitch_answers (hm : m.opcode ∈ tvAnswered) : (tvSwitch sys m).2 = none := by
  simp only [tvAnswered, List.mem_cons, List.not_mem_nil, or_false] at hm
  rcases hm with h | h | h | h | h <;> rw [tvSwitch, h] <;> rfl

end Switches

section Tv

variable {sys : System} {bytes : Bytes} {t : TxMsg}

theorem screen_tv_broadcast (h : (header bytes).destAddr = 0x0f) :
    screen msgTableTv (header bytes) = .ignored := by
  by_contra hne
  rcases (screen_cases hne).2 with hdest | ⟨e, he, -, hmode, -⟩
  · exact hdest h
  · have hunicast : ∀ e ∈ msgTableTv, e.mode &&& broadcast = 0 := by decide
    rw [getMsgMode_header, if_pos h] at hmode
    exact hmode (hunicast e he)

theorem tv_send_iff (ht : t.opcode = Opcode.featureAbort) :
    Effect.send t ∈ rxMsg .tv sys bytes ↔ sys.hdmiCtrlState ≠ 0 ∧ (header bytes).destAddr ≠ 0x0f ∧
      ∃ reason, (tvSwitch sys (formatConvert msgTableTv bytes).2).2 = some reason ∧
        t = featureAbort (formatConvert msgTableTv bytes).2 reason := by
  change Effect.send t ∈ rxMsgTv sys bytes ↔ _
  unfold rxMsgTv
  by_cases hhdmi : sys.hdmiCtrlState = 0
  · rw [if_pos hhdmi]
    exact ⟨fun h => absurd h List.not_mem_nil, fun h => absurd hhdmi h.1⟩
  · rw [if_neg hhdmi]
    dsimp only
    rw [(formatConvert_header msgTableTv bytes).2.1]
    by_cases hdest : (header bytes).destAddr = 0x0f
    · rw [if_pos ⟨formatConvert_ignored_iff.mpr (screen_tv_broadcast hdest), hdest⟩]
      exact ⟨fun h => absurd h List.not_mem_nil, fun h => absurd hdest h.2.1⟩
    · rw [if_neg fun h => hdest h.2, conclude_abort tvSwitch_noAbort ht]
      exact ⟨fun h => ⟨hhdmi, hdest, h⟩, fun h => h.2.2⟩

theorem tv_operand (h : (header bytes).opcode = Opcode.featureAbort ∨ (header bytes).srcAddr = 0x0f)
    (hpressed : (formatConvert msgTableTv bytes).2.opcode = Opcode.userControlPressed) :
    (formatConvert msgTableTv bytes).2.operand.first = 0 := by
  rw [(formatConvert_header msgTableTv bytes).2.2] at hpressed
  have hignored : screen msgTableTv (header bytes) = .ignored := by
    rcases h with h | h
    · refine screen_ignored (e := ⟨Opcode.featureAbort, 2, unicast, false⟩) ?_ (.inr rfl)
      rw [h]
      rfl
    · refine if_pos ⟨h, ?_⟩
      rw [hpressed]
      decide
  rw [formatConvert_operand (by rw [hignored]; decide)]
  rfl

theorem tv_aborts_legally_iff (sys : System) (f : Frame) :
    AbortsLegally .tv sys f ↔ ¬ Illegal .tv sys f := by
  obtain ⟨hsrc, hdest, hopcode⟩ := formatConvert_header msgTableTv f.bytes
  constructor
  · rintro h ⟨hhdmi, hdirected, hbad⟩
    have hnot : (formatConvert msgTableTv f.bytes).2.opcode ∉ tvAnswered := by
      rw [hopcode]
      rcases hbad with hbad | hbad
      · rw [hbad]
        decide
      · exact hbad.2
    have hoperand := tv_operand (hbad.imp_right And.left)
    obtain ⟨reason, hreason⟩ := tvSwitch_aborts sys hoperand hnot
    have hsend := (tv_send_iff (t := featureAbort _ reason) rfl).mpr
      ⟨hhdmi, hdirected, reason, hreason, rfl⟩
    have hlegal := h _ hsend rfl
    rcases hbad with hbad | hbad
    · exact hlegal.opcode hbad
    · exact hlegal.registered hbad.1
  · intro h t hsend ht
    obtain ⟨hhdmi, hdirected, reason, hreason, rfl⟩ := (tv_send_iff ht).mp hsend
    have hne : (header f.bytes).opcode ≠ Opcode.featureAbort :=
      fun hop => h ⟨hhdmi, hdirected, .inl hop⟩
    refine ⟨?_, hdirected, fun hunreg => ?_, hne, hsrc⟩
    · by_contra hshort
      exact hne (opcode_short (Nat.not_le.mp hshort))
    · by_cases hanswered : (header f.bytes).opcode ∈ tvAnswered
      · rw [← hopcode] at hanswered
        rw [tvSwitch_answers hanswered] at hreason
        cases hreason
      · exact h ⟨hhdmi, hdirected, .inr ⟨hunreg, hanswered⟩⟩

end Tv

section Box

variable {sys : System} {bytes : Bytes} {t : TxMsg}

theorem box_send_iff (ht : t.opcode = Opcode.featureAbort) :
    Effect.send t ∈ rxMsg .box sys bytes ↔
      screen msgTableBox (header bytes) ≠ .ignored ∧ sys.hdmiCtrlState ≠ 0 ∧
      ∃ reason, (boxSwitch sys (formatConvert msgTableBox bytes).2).2 = some reason ∧
        t = featureAbort (formatConvert msgTableBox bytes).2 reason := by
  change Effect.send t ∈ rxMsgBox sys bytes ↔ _
  unfold rxMsgBox
  dsimp only
  by_cases hignored : screen msgTableBox (header bytes) = .ignored
  · rw [if_pos (formatConvert_ignored_iff.mpr hignored)]
    exact ⟨fun h => absurd h List.not_mem_nil, fun h => absurd hignored h.1⟩
  · rw [if_neg (mt formatConvert_ignored_iff.mp hignored)]
    by_cases hhdmi : sys.hdmiCtrlState = 0
    · rw [if_pos hhdmi]
      exact ⟨fun h => absurd h List.not_mem_nil, fun h => absurd hhdmi h.2.1⟩
    · rw [if_neg hhdmi, conclude_abort boxSwitch_noAbort ht]
      exact ⟨fun h => ⟨hignored, hhdmi, h⟩, fun h => h.2.2⟩

theorem box_broadcast (h : screen msgTableBox (header bytes) ≠ .ignored)
    (hdest : (header bytes).destAddr = 0x0f) {m : Msg} (hm : m.opcode = (header bytes).opcode) :
    (boxSwitch sys m).2 = none := by
  rcases (screen_cases h).2 with hne | ⟨e, he, hopcode, hmode, haction⟩
  · exact absurd hdest hne
  · rw [getMsgMode_header, if_pos hdest] at hmode
    have hrows : ∀ e ∈ msgTableBox, e.mode &&& broadcast ≠ 0 → e.rxactionReqd = true →
        e.opcode = Opcode.activeSource ∨ e.opcode = Opcode.setStreamPath ∨
          e.opcode = Opcode.routingChange := by decide
    have hrow := hrows e he hmode haction
    rw [hopcode, ← hm] at hrow
    rcases hrow with h | h | h <;> rw [boxSwitch, h] <;> rfl

theorem operandlen_lt_three (hlong : 2 ≤ bytes.length) (hlen : bytes.length ≤ 16) :
    (header bytes).operandlen < 3 ↔ bytes.length < 5 := by
  have hcases : ∀ n < 17, 2 ≤ n → (UInt8.ofNat n - 2 < 3 ↔ n < 5) := by decide
  exact hcases bytes.length (by omega) hlong

theorem box_unregistered (h : screen msgTableBox (header bytes) ≠ .ignored)
    (hsrc : (header bytes).srcAddr = 0x0f) (hlen : bytes.length ≤ 16) {m : Msg}
    (hm : m.opcode = (header bytes).opcode) {reason : AbortReason}
    (hreason : (boxSwitch sys m).2 = some reason) :
    (header bytes).opcode = Opcode.getMenuLang ∨ (header bytes).opcode = Opcode.giveDeviceVendorId ∨
      (header bytes).opcode = Opcode.vendorCommandWithId ∧ 5 ≤ bytes.length := by
  have hmem := (screen_cases h).1 hsrc
  have hignored {e : TableEntry} (he : e ∈ msgTableBox) (hop : (header bytes).opcode = e.opcode)
      (hrow : (header bytes).operandlen < e.len ∨ e.rxactionReqd = false) : False := by
    have hfind : ∀ e ∈ msgTableBox, msgTableBox.find? (fun r => r.opcode == e.opcode) = some e := by
      decide
    refine h (screen_ignored ?_ hrow)
    rw [hop]
    exact hfind e he
  have hnone (hans : (boxSwitch sys m).2 = none) : False := by
    rw [hans] at hreason
    cases hreason
  rw [← hm] at hmem
  simp only [unregisteredOpcodes, List.mem_cons, List.not_mem_nil, or_false] at hmem
  rcases hmem with hop | hop | hop | hop | hop | hop | hop | hop | hop | hop
  · exact absurd (.inr rfl)
      (hignored (e := ⟨Opcode.requestActiveSource, 0, broadcast, false⟩) (by decide) (hm ▸ hop))
  · exact (hnone (by rw [boxSwitch, hop]; rfl)).elim
  · exact (hnone (by rw [boxSwitch, hop]; rfl)).elim
  · exact (hnone (by rw [boxSwitch, hop]; rfl)).elim
  · exact absurd (.inr rfl)
      (hignored (e := ⟨Opcode.routingInfo, 2, broadcast, false⟩) (by decide) (hm ▸ hop))
  · exact (hnone (by rw [boxSwitch, hop]; rfl)).elim
  · exact (hnone (by rw [boxSwitch, hop]; rfl)).elim
  · exact .inl (hm ▸ hop)
  · refine .inr (.inr ⟨hm ▸ hop, ?_⟩)
    by_contra hshort
    have hlong : 2 ≤ bytes.length := by
      by_contra hone
      rw [hm, opcode_short (Nat.not_le.mp hone)] at hop
      exact absurd hop (by decide)
    exact hignored (e := ⟨Opcode.vendorCommandWithId, 3, unicast, true⟩) (by decide) (hm ▸ hop)
      (.inl ((operandlen_lt_three hlong hlen).mpr (Nat.not_le.mp hshort)))
  · exact .inr (.inl (hm ▸ hop))

theorem box_illegal (sys : System) (hdest : (header bytes).destAddr ≠ 0x0f)
    (hlen : bytes.length ≤ 16)
    (h : (header bytes).opcode = Opcode.getMenuLang ∨
      (header bytes).opcode = Opcode.giveDeviceVendorId ∨
      (header bytes).opcode = Opcode.vendorCommandWithId ∧ 5 ≤ bytes.length) :
    screen msgTableBox (header bytes) ≠ .ignored ∧
      ∃ reason, (boxSwitch sys (formatConvert msgTableBox bytes).2).2 = some reason := by
  have hmode : unicast &&& getMsgMode (header bytes).destAddr ≠ 0 := by
    rw [getMsgMode_header, if_neg hdest]
    decide
  have hzero : ¬ (header bytes).operandlen < 0 := Nat.not_lt_zero _
  have hop := (formatConvert_header msgTableBox bytes).2.2
  rcases h with h | h | ⟨h, hlong⟩
  · have hs : screen msgTableBox (header bytes) = .success := screen_success
      (e := ⟨Opcode.getMenuLang, 0, unicast, true⟩) (by rw [h]; decide) (by rw [h]; rfl)
      hmode hzero rfl
    exact ⟨by rw [hs]; decide, .invModeToRespond, by rw [boxSwitch, hop, h]; rfl⟩
  · have hs : screen msgTableBox (header bytes) = .success := screen_success
      (e := ⟨Opcode.giveDeviceVendorId, 0, unicast, true⟩) (by rw [h]; decide) (by rw [h]; rfl)
      hmode hzero rfl
    exact ⟨by rw [hs]; decide, .unrecOpcode, by rw [boxSwitch, hop, h]; rfl⟩
  · have hthree := mt (operandlen_lt_three (by omega) hlen).mp (by omega)
    have hs : screen msgTableBox (header bytes) = .success := screen_success
      (e := ⟨Opcode.vendorCommandWithId, 3, unicast, true⟩) (by rw [h]; decide) (by rw [h]; rfl)
      hmode hthree rfl
    exact ⟨by rw [hs]; decide, .unrecOpcode, by rw [boxSwitch, hop, h]; rfl⟩

theorem box_aborts_legally_iff (sys : System) (f : Frame) :
    AbortsLegally .box sys f ↔ ¬ Illegal .box sys f := by
  obtain ⟨hsrc, -, hopcode⟩ := formatConvert_header msgTableBox f.bytes
  constructor
  · rintro h ⟨hhdmi, hdirected, hunreg, hbad⟩
    obtain ⟨hpass, reason, hreason⟩ := box_illegal sys hdirected f.le hbad
    have hsend := (box_send_iff (t := featureAbort _ reason) rfl).mpr
      ⟨hpass, hhdmi, reason, hreason, rfl⟩
    exact (h _ hsend rfl).registered hunreg
  · intro h t hsend ht
    obtain ⟨hpass, hhdmi, reason, hreason, rfl⟩ := (box_send_iff ht).mp hsend
    have hne : (header f.bytes).opcode ≠ Opcode.featureAbort := by
      intro hop
      refine hpass (screen_ignored (e := ⟨Opcode.featureAbort, 2, unicast, false⟩) ?_ (.inr rfl))
      rw [hop]
      rfl
    have hdirected : (header f.bytes).destAddr ≠ 0x0f := by
      intro hdest
      rw [box_broadcast hpass hdest hopcode] at hreason
      cases hreason
    refine ⟨?_, hdirected, fun hunreg => ?_, hne, hsrc⟩
    · by_contra hshort
      exact hne (opcode_short (Nat.not_le.mp hshort))
    · exact h ⟨hhdmi, hdirected, hunreg, box_unregistered hpass hunreg f.le hopcode hreason⟩

end Box

/-- Every <Feature Abort> is a legal answer except to the frames of `Illegal`. -/
theorem aborts_legally_iff (host : Host) (sys : System) (f : Frame) :
    AbortsLegally host sys f ↔ ¬ Illegal host sys f := by
  cases host with
  | tv => exact tv_aborts_legally_iff sys f
  | box => exact box_aborts_legally_iff sys f

theorem feature_abort_answered :
    let sys : System := ⟨.active, 1, 0, 0, 0, []⟩
    let box : System := ⟨.active, 1, 4, 0x1000, 4, []⟩
    rxMsg .tv sys [0x40] = [.send ⟨4, Opcode.featureAbort, [0x00, 0]⟩] ∧
      rxMsg .tv sys [0x40, 0x00, 0x36, 0] = [.send ⟨4, Opcode.featureAbort, [0x00, 0]⟩] ∧
      rxMsg .tv sys [0xf0, 0x91] = [.send ⟨15, Opcode.featureAbort, [0x91, 1]⟩] ∧
      rxMsg .box box [0xf4, 0x91] = [.send ⟨15, Opcode.featureAbort, [0x91, 1]⟩] ∧
      ¬ AbortsLegally .tv sys ⟨[0x40, 0x00, 0x36, 0], by decide, by decide⟩ ∧
      ¬ AbortsLegally .box box ⟨[0xf4, 0x91], by decide, by decide⟩ := by
  refine ⟨by decide, by decide, by decide, by decide, fun h => ?_, fun h => ?_⟩
  · exact (h ⟨4, Opcode.featureAbort, [0x00, 0]⟩ (by decide) rfl).opcode rfl
  · exact (h ⟨15, Opcode.featureAbort, [0x91, 1]⟩ (by decide) rfl).registered rfl

end SynaBoot.FeatureAbort
