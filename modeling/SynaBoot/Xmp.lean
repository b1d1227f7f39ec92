import SynaBoot.CText
import SynaBoot.IrSamples
import SynaBoot.PairLoop

namespace SynaBoot.Xmp

open SynaBoot.CircularBuffer SynaBoot.CText SynaBoot.IrSamples SynaBoot.Schedules

def vendorIdXfinity : UInt32 := 0x170F443E

def xmpHeaderMinHighTime : ℤ := (972 - 68) * smSystemHz

def xmpHeaderMaxHighTime : ℤ := (972 + 68 + 15 * 137) * smSystemHz

structure Decoder where
  code : UInt32
  codeNibble : UInt32
  preambleFound : Bool
  vendorid : UInt32
  checksum : UInt32
  prevCode : UInt32
  deriving DecidableEq, Repr

def poweron : Decoder := ⟨0, 0, false, 0, 0, 0⟩

structure Pass where
  decoder : Decoder
  rcvCode : UInt32
  isHold : Bool
  deriving DecidableEq, Repr

/-- 699 T and 126 T are 18960.375 and 3417.75, here times eight. The quotient is cut towards zero;
as it is never nearly whole, its rounding does not matter. -/
def dataOf (highLevel : ℕ) : ℤ := (8 * highLevel - 151683 + 27342 : ℤ).tdiv 27342

def shift (word : UInt32) (data : ℤ) : UInt32 := word <<< 4 ||| UInt32.ofInt data

/-- A packet is returned if the checksum allows it. -/
def endPacket (s : Pass) : Pass :=
  if s.decoder.codeNibble = 8 then
    let d := { s.decoder with preambleFound := false }
    if d.checksum % 16 = 0 then
      { decoder := { d with prevCode := d.code }
        rcvCode := d.code
        isHold := s.isHold || d.code &&& (0x00800000 : UInt32) != 0 }
    else { s with decoder := d }
  else s

/-- The checksum is set to the code, not increased. -/
def takeNibble (data : ℤ) (s : Pass) : Pass :=
  let d := { s.decoder with vendorid := shift s.decoder.vendorid data }
  if d.vendorid = vendorIdXfinity then
    { s with decoder := { d with
        preambleFound := true, code := 0, codeNibble := 0, vendorid := 0, checksum := 0 } }
  else if d.preambleFound then
    if d.codeNibble ≤ 8 then
      let code := shift d.code data
      endPacket { s with decoder := { d with
        code := code, codeNibble := d.codeNibble + 1, checksum := code } }
    else { s with decoder := d }
  else { s with decoder := d }

def isNibble (lowLevel highLevel : ℕ) : Bool :=
  let twinLevel := int32 (lowLevel + highLevel)
  xmpHeaderMinHighTime < twinLevel && twinLevel < xmpHeaderMaxHighTime

def pair (w v : UInt32) (s : Pass) : Pass :=
  if isNibble (levelLen w) (levelLen v) then takeNibble (dataOf (levelLen v)) s else s

def goesOn (s : Pass) : Bool := s.rcvCode == noCode

structure Result where
  rcvCode : UInt32
  isHold : Bool
  buffer : Cbuffer
  decoder : Decoder

def readXmp (b : Cbuffer) (isHold : Bool) (d : Decoder) : Result :=
  let (b, s) := PairLoop.loop goesOn isHigh pair 256 b ⟨d, noCode, isHold⟩
  ⟨s.rcvCode, s.isHold, b, s.decoder⟩

structure Receiver where
  buffer : Cbuffer
  decoder : Decoder
  reports : List (UInt32 × Bool)

inductive Act where
  | store (len highLow : UInt32)
  | call

def report (code : UInt32) (isHold : Bool) : List (UInt32 × Bool) :=
  if code = noCode then [] else [(code, isHold)]

def step : Act → Receiver → Receiver
  | .store len highLow, r => { r with buffer := storeIrcbuffer len highLow r.buffer }
  | .call, r =>
    let result := readXmp r.buffer false r.decoder
    ⟨result.buffer, result.decoder, r.reports ++ report result.rcvCode result.isHold⟩

def stored : List Act → List UInt32
  | [] => []
  | .store len highLow :: as => sample len highLow :: stored as
  | .call :: as => stored as

def Fits (r : Receiver) : Act → Prop
  | .store _ _ => r.buffer.pending < 255
  | .call => True

instance (r : Receiver) : (a : Act) → Decidable (Fits r a)
  | .store _ _ => inferInstanceAs (Decidable (_ < 255))
  | .call => inferInstanceAs (Decidable True)

def decode : List UInt32 → List ℤ
  | w :: v :: ws =>
    if isHigh w then decode (v :: ws)
    else if isNibble (levelLen w) (levelLen v) then dataOf (levelLen v) :: decode ws
    else decode ws
  | _ => []

def collect : List ℤ → Decoder → Decoder × List (UInt32 × Bool)
  | [], d => (d, [])
  | x :: xs, d =>
    let s := takeNibble x ⟨d, noCode, false⟩
    let rest := collect xs s.decoder
    (rest.1, report s.rcvCode s.isHold ++ rest.2)

section Chunks

variable {d : Decoder} {s : Pass} {x : ℤ} {ws later : List UInt32}

theorem takeNibble_none (h : (takeNibble x ⟨d, noCode, false⟩).rcvCode = noCode) :
    takeNibble x ⟨d, noCode, false⟩ = ⟨(takeNibble x ⟨d, noCode, false⟩).decoder, noCode, false⟩ := by
  unfold takeNibble at h ⊢
  dsimp only at h ⊢
  split_ifs at h ⊢
  · rfl
  · unfold endPacket at h ⊢
    dsimp only at h ⊢
    split_ifs at h ⊢ with hnibble hsum
    · have hones : shift d.code x = noCode := h
      rw [hones] at hsum
      exact absurd hsum (by decide)
    · rfl
    · rfl
  · rfl
  · rfl

theorem report_none {isHold : Bool} : report noCode isHold = [] := if_pos rfl

theorem scan_collect (ws later : List UInt32) (d : Decoder) :
    let l := PairLoop.scan goesOn isHigh pair ws ⟨d, noCode, false⟩
    let rest := collect (decode (l.1 ++ later)) l.2.decoder
    collect (decode (ws ++ later)) d = (rest.1, report l.2.rcvCode l.2.isHold ++ rest.2) ∧
      (l.2.rcvCode = noCode → l.1.length < 2) := by
  match ws with
  | [] => exact ⟨rfl, fun _ => Nat.zero_lt_two⟩
  | [_] => exact ⟨rfl, fun _ => Nat.one_lt_two⟩
  | w :: v :: ws =>
    rw [PairLoop.scan, if_pos (by rfl), List.cons_append, List.cons_append, decode]
    by_cases hhigh : isHigh w = true
    · rw [if_pos hhigh, if_pos hhigh]
      exact scan_collect (v :: ws) later d
    · rw [if_neg hhigh, if_neg hhigh, pair]
      by_cases hnibble : isNibble (levelLen w) (levelLen v) = true
      · rw [if_pos hnibble, if_pos hnibble, collect]
        by_cases hcode : (takeNibble (dataOf (levelLen v)) ⟨d, noCode, false⟩).rcvCode = noCode
        · have hrest := scan_collect ws later (takeNibble (dataOf (levelLen v)) ⟨d, noCode, false⟩).decoder
          rw [← takeNibble_none hcode] at hrest
          rw [hcode, report_none, List.nil_append]
          exact hrest
        · have hdone : goesOn (takeNibble (dataOf (levelLen v)) ⟨d, noCode, false⟩) = false :=
            beq_false_of_ne hcode
          rw [PairLoop.scan_of_done hdone]
          exact ⟨rfl, fun h => absurd h hcode⟩
      · rw [if_neg hnibble, if_neg hnibble]
        exact scan_collect ws later d

structure Awaits (r : Receiver) (later : List UInt32) (d : Decoder) (reports : List (UInt32 × Bool)) :
    Prop where
  decoder : (collect (decode (r.buffer.contents ++ later)) r.decoder).1 = d
  reports : r.reports ++ (collect (decode (r.buffer.contents ++ later)) r.decoder).2 = reports

variable {r : Receiver} {reports : List (UInt32 × Bool)} {acts : List Act}

theorem store_awaits {len highLow : UInt32} (h : Awaits r (sample len highLow :: later) d reports)
    (hfits : r.buffer.pending < 255) : Awaits (step (.store len highLow) r) later d reports := by
  have hcontents : (step (.store len highLow) r).buffer.contents ++ later =
      r.buffer.contents ++ sample len highLow :: later := by
    rw [step, contents_store hfits, List.append_assoc]
    rfl
  exact ⟨by rw [hcontents]; exact h.decoder, by rw [hcontents]; exact h.reports⟩

theorem call_awaits (h : Awaits r later d reports) : Awaits (step .call r) later d reports := by
  have hfuel : r.buffer.contents.length ≤ 256 := by
    rw [Buffer.length_contents]
    exact Nat.le_of_lt (r.buffer.stop - r.buffer.start).isLt
  have hfollows : PairLoop.Follows r.buffer
      (PairLoop.loop goesOn isHigh pair 256 r.buffer ⟨r.decoder, noCode, false⟩) _ :=
    PairLoop.loop_follows hfuel
  obtain ⟨hcollect, -⟩ := scan_collect r.buffer.contents later r.decoder
  have hdecoder := h.decoder
  have hreports := h.reports
  rw [hcollect, ← hfollows.contents, ← hfollows.state] at hdecoder hreports
  rw [← List.append_assoc] at hreports
  exact ⟨hdecoder, hreports⟩

theorem run_awaits (h : Awaits r (stored acts ++ later) d reports) (hfits : Meets step Fits r acts) :
    Awaits (run step r acts) later d reports := by
  induction acts generalizing r with
  | nil => exact h
  | cons a acts ih =>
    obtain ⟨ha, hrest⟩ := hfits
    cases a with
    | store len highLow => exact ih (store_awaits h ha) hrest
    | call => exact ih (call_awaits h) hrest

theorem run_collect {b : Cbuffer} (hb : b.start = b.stop) (hfits : Meets step Fits ⟨b, d, []⟩ acts)
    (hread : (run step ⟨b, d, []⟩ acts).buffer.pending < 2) :
    (run step ⟨b, d, []⟩ acts).decoder = (collect (decode (stored acts)) d).1 ∧
      (run step ⟨b, d, []⟩ acts).reports = (collect (decode (stored acts)) d).2 := by
  have hstart : Awaits ⟨b, d, []⟩ (stored acts ++ []) (collect (decode (stored acts)) d).1
      (collect (decode (stored acts)) d).2 := by
    rw [List.append_nil]
    constructor
    · dsimp only
      rw [Buffer.contents_eq_nil_iff.mpr hb, List.nil_append]
    · dsimp only
      rw [Buffer.contents_eq_nil_iff.mpr hb, List.nil_append, List.nil_append]
  have hend := run_awaits hstart hfits
  have hnil : decode ((run step ⟨b, d, []⟩ acts).buffer.contents ++ []) = [] := by
    rw [List.append_nil]
    rw [← Buffer.length_contents] at hread
    match hcontents : (run step ⟨b, d, []⟩ acts).buffer.contents with
    | [] | [_] => rfl
    | _ :: _ :: _ =>
      rw [hcontents] at hread
      exact absurd hread (by simp)
  have hdecoder := hend.decoder
  have hreports := hend.reports
  rw [hnil] at hdecoder hreports
  rw [collect, List.append_nil] at hreports
  exact ⟨hdecoder, hreports⟩

end Chunks

def value (xs : List (Fin 16)) : ℕ := Nat.ofDigits 16 (xs.reverse.map Fin.val)

def asData (xs : List (Fin 16)) : List ℤ := xs.map fun x => (x.val : ℤ)

def vendorNibbles : List (Fin 16) := [1, 7, 0, 15, 4, 4, 3, 14]

structure Packet where
  nibbles : List (Fin 16)
  length : nibbles.length = 8
  vendor : nibbles ≠ vendorNibbles
  ones : nibbles ≠ List.replicate 8 15

def Packet.code (p : Packet) : UInt32 := UInt32.ofNat (value p.nibbles)

def Packet.sum (p : Packet) : ℕ := (p.nibbles.map Fin.val).sum

structure Enforced (d : Decoder) (p : Packet) (r : Receiver) : Prop where
  codes : r.reports.map Prod.fst =
    (collect (asData vendorNibbles) d).2.map Prod.fst ++ if p.sum % 16 = 0 then [p.code] else []
  searching : r.decoder.preambleFound = false

section Packets

variable {d : Decoder} {xs ys : List (Fin 16)} {x : Fin 16} {w : UInt32}

theorem value_concat : value (xs ++ [x]) = 16 * value xs + x.val := by
  rw [value, List.reverse_append, List.reverse_singleton, List.singleton_append, List.map_cons,
    Nat.ofDigits_cons, Nat.add_comm]
  rfl

theorem value_lt : value xs < 16 ^ xs.length := by
  have hlt := Nat.ofDigits_lt_base_pow_length (b := 16) (l := xs.reverse.map Fin.val) (by decide) ?_
  · rwa [List.length_map, List.length_reverse] at hlt
  · intro y hy
    obtain ⟨z, -, rfl⟩ := List.mem_map.mp hy
    exact z.isLt

theorem value_inj (hlen : xs.length = ys.length) (h : value xs = value ys) : xs = ys := by
  have hlt (zs : List (Fin 16)) (y : ℕ) (hy : y ∈ zs.reverse.map Fin.val) : y < 16 := by
    obtain ⟨z, -, rfl⟩ := List.mem_map.mp hy
    exact z.isLt
  have hdigits := Nat.ofDigits_inj_of_len_eq (b := 16) (by decide)
    (by rw [List.length_map, List.length_map, List.length_reverse, List.length_reverse, hlen])
    (hlt xs) (hlt ys) h
  exact List.reverse_injective (List.map_injective_iff.mpr Fin.val_injective hdigits)

theorem toNat_shift : (shift w (x.val : ℤ)).toNat = (16 * w.toNat + x.val) % 2 ^ 32 := by
  have hx : (UInt32.ofInt (x.val : ℤ)).toNat = x.val := by
    rw [toNat_ofInt]
    omega
  have hmul : (w <<< (4 : UInt32)).toNat = (w.toNat % 2 ^ 28) <<< 4 := by
    rw [UInt32.toNat_shiftLeft, Nat.shiftLeft_eq, Nat.shiftLeft_eq]
    change w.toNat * 2 ^ 4 % 2 ^ 32 = _
    omega
  rw [shift, UInt32.toNat_or, hx, hmul, ← Nat.shiftLeft_add_eq_or_of_lt x.isLt, Nat.shiftLeft_eq]
  have hlt := x.isLt
  omega

def Ends (w : UInt32) (xs : List (Fin 16)) : Prop := w.toNat % 16 ^ xs.length = value xs

theorem Ends.shift (h : Ends w xs) (hlen : xs.length < 8) : Ends (shift w (x.val : ℤ)) (xs ++ [x]) := by
  have hdvd : 16 ^ (xs.length + 1) ∣ 2 ^ 32 := Nat.pow_dvd_pow 16 (show xs.length + 1 ≤ 8 by omega)
  have hlt := x.isLt
  rw [Ends, toNat_shift, List.length_append, List.length_singleton, Nat.mod_mod_of_dvd _ hdvd,
    value_concat, ← h, Nat.pow_succ', Nat.mod_mul]
  have hmod : (16 * w.toNat + x.val) % 16 = x.val := by omega
  have hdiv : (16 * w.toNat + x.val) / 16 = w.toNat := by omega
  rw [hmod, hdiv, Nat.add_comm]

theorem Ends.eq_vendor (h : Ends w vendorNibbles) : w = vendorIdXfinity := by
  have hlt : w.toNat < 16 ^ 8 := w.toNat_lt
  rw [Ends, show vendorNibbles.length = 8 from rfl, Nat.mod_eq_of_lt hlt] at h
  exact UInt32.toNat_inj.mp (h.trans (by decide))

theorem Ends.ne_vendor (h : Ends w xs) (hsplit : xs ++ ys = vendorNibbles) (hxs : xs ≠ [])
    (hys : ys ≠ []) : w ≠ vendorIdXfinity := by
  rintro rfl
  have htake : xs = vendorNibbles.take xs.length := by rw [← hsplit, List.take_left']; rfl
  have hlen : xs.length + ys.length = 8 := by rw [← List.length_append, hsplit]; rfl
  have hxlen := List.length_pos_iff.mpr hxs
  have hylen := List.length_pos_iff.mpr hys
  have hall : ∀ n < 8, 0 < n → vendorIdXfinity.toNat % 16 ^ n ≠ value (vendorNibbles.take n) := by decide
  rw [Ends] at h
  exact hall xs.length (by omega) hxlen (h.trans (congrArg value htake))

def found (prevCode : UInt32) : Decoder := ⟨0, 0, true, 0, 0, prevCode⟩

theorem takeNibble_vendorid {y : ℤ} (h : shift d.vendorid y ≠ vendorIdXfinity) :
    (takeNibble y ⟨d, noCode, false⟩).decoder.vendorid = shift d.vendorid y := by
  rw [takeNibble]
  dsimp only
  rw [if_neg h]
  split
  · split
    · unfold endPacket
      split
      · dsimp only
        split <;> rfl
      · rfl
    · rfl
  · rfl

theorem asData_cons : asData (x :: xs) = (x.val : ℤ) :: asData xs := rfl

theorem collect_vendor (hsplit : xs ++ ys = vendorNibbles) (hys : ys ≠ []) (h : Ends d.vendorid xs) :
    ∃ prev, (collect (asData ys) d).1 = found prev := by
  induction ys generalizing xs d with
  | nil => exact absurd rfl hys
  | cons y ys ih =>
    have hsplit' : (xs ++ [y]) ++ ys = vendorNibbles := by rw [List.append_assoc]; exact hsplit
    have hlen : xs.length + (ys.length + 1) = 8 := by
      rw [← List.length_cons (a := y), ← List.length_append, hsplit]
      rfl
    have hends : Ends (Xmp.shift d.vendorid (y.val : ℤ)) (xs ++ [y]) := h.shift (by omega)
    rw [asData_cons, collect]
    dsimp only
    by_cases hnil : ys = []
    · subst hnil
      rw [List.append_nil] at hsplit'
      rw [hsplit'] at hends
      refine ⟨d.prevCode, ?_⟩
      rw [takeNibble]
      dsimp only
      rw [if_pos hends.eq_vendor]
      rfl
    · refine ih hsplit' hnil ?_
      rw [takeNibble_vendorid (hends.ne_vendor hsplit' (by simp) hnil)]
      exact hends

def reading (xs : List (Fin 16)) (prevCode : UInt32) : Decoder :=
  ⟨UInt32.ofNat (value xs), UInt32.ofNat xs.length, true, UInt32.ofNat (value xs),
    UInt32.ofNat (value xs), prevCode⟩

theorem shift_value (hlen : xs.length < 8) :
    shift (UInt32.ofNat (value xs)) (x.val : ℤ) = UInt32.ofNat (value (xs ++ [x])) := by
  have hlt : value xs < 2 ^ 32 :=
    value_lt.trans_le (Nat.pow_le_pow_right (by decide) (show xs.length ≤ 8 by omega))
  rw [← UInt32.toNat_inj, toNat_shift, UInt32.toNat_ofNat', UInt32.toNat_ofNat', value_concat,
    Nat.mod_eq_of_lt hlt]

theorem takeNibble_reading (prev : UInt32) (hlen : xs.length < 8)
    (hvendor : UInt32.ofNat (value (xs ++ [x])) ≠ vendorIdXfinity) :
    takeNibble (x.val : ℤ) ⟨reading xs prev, noCode, false⟩ =
      endPacket ⟨reading (xs ++ [x]) prev, noCode, false⟩ := by
  have hle : UInt32.ofNat xs.length ≤ 8 := by
    rw [UInt32.le_iff_toNat_le, UInt32.toNat_ofNat', Nat.mod_eq_of_lt (by omega)]
    exact Nat.le_of_lt hlen
  have hsucc : UInt32.ofNat xs.length + 1 = UInt32.ofNat (xs ++ [x]).length := by
    rw [List.length_append, UInt32.ofNat_add]
    rfl
  rw [takeNibble, reading]
  dsimp only
  rw [shift_value hlen, if_neg hvendor, if_pos rfl, if_pos hle, hsucc]
  rfl

theorem value_ne_vendor (hlen : xs.length < 8) : UInt32.ofNat (value xs) ≠ vendorIdXfinity := by
  intro h
  have hlt : value xs < 16 ^ 7 :=
    value_lt.trans_le (Nat.pow_le_pow_right (by decide) (show xs.length ≤ 7 by omega))
  have hval := congrArg UInt32.toNat h
  rw [UInt32.toNat_ofNat', Nat.mod_eq_of_lt (by omega)] at hval
  rw [hval] at hlt
  exact absurd hlt (by decide)

theorem Packet.value_lt (p : Packet) : value p.nibbles < 2 ^ 32 := by
  have hlt : value p.nibbles < 16 ^ p.nibbles.length := Xmp.value_lt
  rwa [p.length] at hlt

theorem Packet.code_ne_vendor (p : Packet) : p.code ≠ vendorIdXfinity := by
  intro h
  have hval := congrArg UInt32.toNat h
  rw [Packet.code, UInt32.toNat_ofNat', Nat.mod_eq_of_lt p.value_lt] at hval
  exact p.vendor (value_inj p.length (hval.trans (by decide)))

theorem collect_packet (p : Packet) (prev : UInt32) (hsplit : xs ++ ys = p.nibbles) (hys : ys ≠ []) :
    (collect (asData ys) (reading xs prev)).1.preambleFound = false ∧
      (collect (asData ys) (reading xs prev)).2.map Prod.fst =
        if p.code % 16 = 0 then [p.code] else [] := by
  induction ys generalizing xs with
  | nil => exact absurd rfl hys
  | cons y ys ih =>
    have hsplit' : (xs ++ [y]) ++ ys = p.nibbles := by rw [List.append_assoc]; exact hsplit
    have hlen : xs.length + (ys.length + 1) = 8 := by
      rw [← List.length_cons (a := y), ← List.length_append, hsplit, p.length]
    rw [asData_cons, collect]
    dsimp only
    by_cases hnil : ys = []
    · subst hnil
      rw [List.append_nil] at hsplit'
      have hcode : UInt32.ofNat (value (xs ++ [y])) = p.code := by rw [hsplit', Packet.code]
      have hvendor : UInt32.ofNat (value (xs ++ [y])) ≠ vendorIdXfinity := hcode ▸ p.code_ne_vendor
      rw [takeNibble_reading prev (by omega) hvendor, endPacket, reading, hcode, hsplit', p.length]
      dsimp only
      rw [if_pos (by rfl)]
      split
      · next hsum =>
        have hne : p.code ≠ noCode := by
          intro h
          rw [h] at hsum
          exact absurd hsum (by decide)
        rw [report, if_neg hne]
        exact ⟨rfl, rfl⟩
      · rw [report_none]
        exact ⟨rfl, rfl⟩
    · have hmore : (xs ++ [y]).length < 8 := by
        have hpos := List.length_pos_iff.mpr hnil
        rw [List.length_append, List.length_singleton]
        omega
      have hcontinues : endPacket ⟨reading (xs ++ [y]) prev, noCode, false⟩ =
          ⟨reading (xs ++ [y]) prev, noCode, false⟩ := by
        refine if_neg fun h => ?_
        have hval := congrArg UInt32.toNat h
        change (UInt32.ofNat (xs ++ [y]).length).toNat = 8 at hval
        rw [UInt32.toNat_ofNat', Nat.mod_eq_of_lt (by omega)] at hval
        omega
      rw [takeNibble_reading prev (by omega) (value_ne_vendor hmore), hcontinues, report_none,
        List.nil_append]
      exact ih hsplit' hnil

theorem collect_append (zs zs' : List ℤ) (d : Decoder) :
    collect (zs ++ zs') d =
      ((collect zs' (collect zs d).1).1, (collect zs d).2 ++ (collect zs' (collect zs d).1).2) := by
  induction zs generalizing d with
  | nil => rfl
  | cons z zs ih =>
    rw [List.cons_append, collect, collect, ih]
    dsimp only
    rw [List.append_assoc]

theorem Packet.ne_nil (p : Packet) : p.nibbles ≠ [] := by
  intro h
  have hlen := p.length
  rw [h] at hlen
  cases hlen

theorem Packet.code_mod (p : Packet) : p.code % 16 = 0 ↔ p.nibbles.getLast? = some 0 := by
  have hne := p.ne_nil
  have hsplit := List.dropLast_append_getLast hne
  have hval : value p.nibbles % 16 = (p.nibbles.getLast hne).val := by
    have hlt := (p.nibbles.getLast hne).isLt
    rw [← congrArg value hsplit, value_concat]
    omega
  rw [List.getLast?_eq_getLast_of_ne_nil hne, Option.some_inj, ← UInt32.toNat_inj, UInt32.toNat_mod,
    Packet.code, UInt32.toNat_ofNat', Nat.mod_eq_of_lt p.value_lt]
  change value p.nibbles % 16 = 0 ↔ _
  rw [hval, ← Fin.val_inj]
  rfl

end Packets

/-- The checksum is enforced for packets whose last nibble and sum are right or wrong together. -/
theorem checksum_enforced_iff {b : Cbuffer} {d : Decoder} {p : Packet} {acts : List Act}
    (hb : b.start = b.stop) (hdecoded : decode (stored acts) = asData (vendorNibbles ++ p.nibbles))
    (hfits : Meets step Fits ⟨b, d, []⟩ acts)
    (hread : (run step ⟨b, d, []⟩ acts).buffer.pending < 2) :
    Enforced d p (run step ⟨b, d, []⟩ acts) ↔ (p.nibbles.getLast? = some 0 ↔ p.sum % 16 = 0) := by
  obtain ⟨hdecoder, hreports⟩ := run_collect hb hfits hread
  obtain ⟨prev, hfound⟩ := collect_vendor (d := d) (List.nil_append vendorNibbles) (by decide)
    (Nat.mod_one _)
  obtain ⟨hsearch, hcodes⟩ := collect_packet p prev (List.nil_append p.nibbles) p.ne_nil
  have hstate : reading [] prev = found prev := rfl
  rw [hstate, ← hfound] at hsearch hcodes
  rw [hdecoded, asData, List.map_append, collect_append] at hdecoder hreports
  have hrun : (run step ⟨b, d, []⟩ acts).reports.map Prod.fst =
      (collect (asData vendorNibbles) d).2.map Prod.fst ++ if p.code % 16 = 0 then [p.code] else [] := by
    rw [hreports, List.map_append, ← hcodes]
    rfl
  rw [← p.code_mod]
  constructor
  · intro h
    have hsame := List.append_cancel_left (hrun.symm.trans h.codes)
    by_cases hlast : p.code % 16 = 0 <;> by_cases hsum : p.sum % 16 = 0
    · exact iff_of_true hlast hsum
    · rw [if_pos hlast, if_neg hsum] at hsame
      cases hsame
    · rw [if_neg hlast, if_pos hsum] at hsame
      cases hsame
    · exact iff_of_false hlast hsum
  · intro h
    refine ⟨?_, by rw [hdecoder]; exact hsearch⟩
    rw [hrun]
    by_cases hlast : p.code % 16 = 0
    · rw [if_pos hlast, if_pos (h.mp hlast)]
    · rw [if_neg hlast, if_neg fun hsum => hlast (h.mpr hsum)]

def nominal (x : Fin 16) : List Act := [.store 5262 0, .store (UInt32.ofNat (17400 + 3418 * x.val)) 1]

def line (xs : List (Fin 16)) : List Act := (vendorNibbles ++ xs).flatMap nominal ++ [.call]

def emptyBuffer : Cbuffer := ⟨fun _ => 0, 250, 250⟩

theorem right_packet_returned :
    let p : Packet := ⟨[1, 2, 3, 4, 5, 1, 0, 0], rfl, by decide, by decide⟩
    (run step ⟨emptyBuffer, poweron, []⟩ (line p.nibbles)).reports = [(0x12345100, false)] ∧
      Enforced poweron p (run step ⟨emptyBuffer, poweron, []⟩ (line p.nibbles)) := by
  refine ⟨by decide +kernel, (checksum_enforced_iff rfl ?_ ?_ ?_).mpr ?_⟩
  · decide +kernel
  · decide +kernel
  · decide +kernel
  · decide

theorem wrong_packet_returned :
    let p : Packet := ⟨[1, 0, 0, 0, 0, 0, 0, 0], rfl, by decide, by decide⟩
    let p' : Packet := ⟨[0, 0, 0, 0, 0, 0, 1, 15], rfl, by decide, by decide⟩
    let r := run step ⟨emptyBuffer, poweron, []⟩ (line p.nibbles)
    let r' := run step ⟨emptyBuffer, poweron, []⟩ (line p'.nibbles)
    decode (stored (line p.nibbles)) = asData (vendorNibbles ++ p.nibbles) ∧
      decode (stored (line p'.nibbles)) = asData (vendorNibbles ++ p'.nibbles) ∧
      Meets step Fits ⟨emptyBuffer, poweron, []⟩ (line p.nibbles) ∧
      Meets step Fits ⟨emptyBuffer, poweron, []⟩ (line p'.nibbles) ∧
      p.sum % 16 = 1 ∧ r.reports = [(0x10000000, false)] ∧ p'.sum % 16 = 0 ∧ r'.reports = [] ∧
      ¬ Enforced poweron p r ∧ ¬ Enforced poweron p' r' := by
  refine ⟨by decide +kernel, by decide +kernel, by decide +kernel, by decide +kernel, by decide,
    by decide +kernel, by decide, by decide +kernel, fun h => ?_, fun h => ?_⟩
  · exact absurd h.codes (by decide +kernel)
  · exact absurd h.codes (by decide +kernel)

end SynaBoot.Xmp
