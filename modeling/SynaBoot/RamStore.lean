import SynaBoot.TsArea

namespace SynaBoot.RamStore

open SynaBoot.FlashRecord SynaBoot.StringArea SynaBoot.CheckedStrings SynaBoot.TsArea
open SynaBoot.FlashTs (CString equalsSign)

def ramTsMaxSize : ℕ := 0x200
def ramTsHdrSize : ℕ := 16
def ramTsMaxDataSize : ℕ := ramTsMaxSize - ramTsHdrSize
def ramTsMagic : UInt32 := 0x53544d52

def einval : Int := 1
def enospc : Int := 2

/-- `struct ram_ts`, which is the whole region. -/
structure RamTs where
  magic : UInt32
  crc : UInt32
  len : UInt32
  version : UInt32
  data : Bytes ramTsMaxDataSize

/- The functions of the store; `none` is an access outside the region. -/

def ramTsKeySearch (data : Bytes ramTsMaxDataSize) (key : List UInt8) : Option (Option ℕ) :=
  tsKeySearch data key

def ramTsCrc (w : SizeT) (ts : RamTs) : Option UInt32 := tsCrc w ts.len ts.version ts.data

def defaultTs (w : SizeT) : Option RamTs := do
  let zeros : Bytes ramTsMaxDataSize := ⟨List.replicate ramTsMaxDataSize 0, List.length_replicate⟩
  let data ← store zeros 0 [0]
  let ts : RamTs := ⟨ramTsMagic, 0, 1, 1, data⟩
  let crc ← ramTsCrc w ts
  return { ts with crc := crc }

def ramTsInit (w : SizeT) (ts : RamTs) : Option RamTs := do
  if ts.magic ≠ ramTsMagic then defaultTs w
  else
    let crc ← ramTsCrc w ts
    if ts.crc ≠ crc then defaultTs w else return ts

def ramTsSet (w : SizeT) (key value : CString) (ts : RamTs) : Option (Int × RamTs) := do
  let crc ← ramTsCrc w ts
  if ts.crc ≠ crc then return (-einval, ts)
  else
    match ← tsUpdate ts.data ts.len.toNat key.1 value.1 with
    | .same => return (0, ts)
    | .noSpace => return (-enospc, ts)
    | .changed data len =>
      let ts := { ts with data := data, len := UInt32.ofNat len }
      let crc ← ramTsCrc w ts
      return (0, { ts with crc := crc })

def ramTsGet (w : SizeT) (key : CString) (value : List UInt8) (ts : RamTs) :
    Option (List UInt8) := do
  let value := value.set 0 0
  let crc ← ramTsCrc w ts
  if ts.crc ≠ crc then return value
  else
    match ← ramTsKeySearch ts.data key.1 with
    | some p => strncpy 0 (ts.data.1.drop (p + key.1.length + 1)) value.length
    | none => return value

inductive Call where
  | set (key value : CString)
  | get (key : CString) (value : List UInt8)

def call (w : SizeT) (ts : RamTs) : Call → Option RamTs
  | .set key value => (ramTsSet w key value ts).map Prod.snd
  | .get key value => (ramTsGet w key value ts).map fun _ => ts

def runCalls (w : SizeT) (ts : RamTs) : List Call → Option RamTs
  | [] => some ts
  | c :: cs => (call w ts c).bind fun ts => runCalls w ts cs

structure WellFormed (ts : RamTs) : Prop where
  pos : 1 ≤ ts.len.toNat
  le : ts.len.toNat ≤ ramTsMaxDataSize
  terminated : ∃ i < ts.len.toNat, ts.data.1[i]? = some 0 ∧ (i = 0 ∨ ts.data.1[i - 1]? = some 0)

def Safe (w : SizeT) (ts : RamTs) : Prop :=
  ∃ ts', ramTsInit w ts = some ts' ∧ WellFormed ts' ∧ ∀ cs, ∃ ts'', runCalls w ts' cs = some ts''

variable {ts : RamTs}

theorem wellFormed_iff : WellFormed ts ↔ Holds ts.data ts.len.toNat := by
  rw [holds_iff]
  constructor
  · rintro ⟨-, hle, i, hi, hz, hprev⟩
    have hlt : i < ts.data.1.length := by
      rw [ts.data.2]
      omega
    rw [List.getElem?_eq_getElem hlt, Option.some.injEq] at hz
    exact ⟨hle, i + 1, hi, (closes_take hlt).mpr ⟨hz, hprev⟩⟩
  · rintro ⟨hle, k, hk, hclose⟩
    cases k with
    | zero => exact absurd rfl hclose.ne_nil
    | succ i =>
      have hlt : i < ts.data.1.length := by
        rw [ts.data.2]
        omega
      obtain ⟨hz, hprev⟩ := (closes_take hlt).mp hclose
      refine ⟨by omega, hle, i, hk, ?_, hprev⟩
      rw [List.getElem?_eq_getElem hlt, hz]

theorem ramTsCrc_inside (w : SizeT) (ts : RamTs) (h : ts.len.toNat ≤ ramTsMaxDataSize) :
    ∃ crc, ramTsCrc w ts = some crc := ⟨_, tsCrc_of_le w h (by decide)⟩

theorem ramTsCrc_none (w : SizeT) (ts : RamTs) :
    ramTsCrc w ts = none ↔ 8 + ramTsMaxDataSize < (ts.len.toNat + 8) % w.modulus := by
  have hlen : (le32 ts.len ++ le32 ts.version ++ ts.data.1).length = 8 + ramTsMaxDataSize := by
    rw [List.length_append, ts.data.2]
    rfl
  simp only [ramTsCrc, tsCrc, hlen]
  split
  case isTrue h => exact ⟨fun he => (by cases he), fun hlt => absurd h (not_le.mpr hlt)⟩
  case isFalse h => exact ⟨fun _ => not_le.mp h, fun _ => rfl⟩

theorem defaultTs_wellFormed (w : SizeT) : ∃ ts, defaultTs w = some ts ∧ WellFormed ts := by
  have hle : 0 + [(0 : UInt8)].length ≤ ramTsMaxDataSize := by decide
  have hlen : ((1 : UInt32)).toNat ≤ ramTsMaxDataSize := by decide
  simp only [defaultTs, store_of_le hle, Option.bind_eq_bind, Option.bind_some, ramTsCrc,
    tsCrc_of_le w hlen (by decide), Option.pure_def]
  refine ⟨_, rfl, by decide, hlen, 0, by decide, ?_, .inl rfl⟩
  rw [overwrite_eq _ _ _ hle]
  rfl

theorem ramTsSet_ok (w : SizeT) (h : WellFormed ts) (key value : CString) :
    ∃ res ts', ramTsSet w key value ts = some (res, ts') ∧ WellFormed ts' := by
  obtain ⟨crc, hcrc⟩ := ramTsCrc_inside w ts h.le
  simp only [ramTsSet, hcrc, Option.bind_eq_bind, Option.bind_some, Option.pure_def]
  split
  case isTrue => exact ⟨_, _, rfl, h⟩
  case isFalse =>
    obtain ⟨u, new, hu, hbec, ⟨ss, junk, hnew, hss⟩, -⟩ :=
      tsUpdate_holds (wellFormed_iff.mp h) key.2 value.2
    rw [hu, Option.bind_some]
    cases u with
    | same => exact ⟨_, _, rfl, h⟩
    | noSpace => exact ⟨_, _, rfl, h⟩
    | changed data len =>
      have hholds := hbec.holds hnew hss
      have hle : len ≤ ramTsMaxDataSize := hholds.le
      have hlen : (UInt32.ofNat len).toNat = len := by
        rw [UInt32.toNat_ofNat']
        exact Nat.mod_eq_of_lt (hle.trans_lt (by decide))
      obtain ⟨crc', hcrc'⟩ := ramTsCrc_inside w
        { ts with data := data, len := UInt32.ofNat len } (hlen.le.trans hle)
      simp only [hcrc', Option.bind_some]
      refine ⟨_, _, rfl, wellFormed_iff.mpr ?_⟩
      rw [hlen]
      exact hholds

theorem ramTsGet_ok (w : SizeT) (h : WellFormed ts) (key : CString) (value : List UInt8) :
    ∃ buf, ramTsGet w key value ts = some buf := by
  obtain ⟨crc, hcrc⟩ := ramTsCrc_inside w ts h.le
  simp only [ramTsGet, hcrc, Option.bind_eq_bind, Option.bind_some, Option.pure_def]
  split
  case isTrue => exact ⟨_, rfl⟩
  case isFalse =>
    obtain ⟨ss, junk, t, hss, hdata, -⟩ := wellFormed_iff.mp h
    obtain ⟨xs, w, ys, rfl, hw, -, hr, -⟩ | ⟨-, hr, -⟩ := tsKeySearch_cases key.2 hss hdata
    · obtain ⟨hno, rest, htext⟩ := value_behind hdata hw
      rw [ramTsKeySearch, hr, Option.bind_some]
      simp only [htext, strncpy_terminated hno]
      exact ⟨_, rfl⟩
    · rw [ramTsKeySearch, hr, Option.bind_some]
      exact ⟨_, rfl⟩

theorem call_ok (w : SizeT) (h : WellFormed ts) (c : Call) :
    ∃ ts', call w ts c = some ts' ∧ WellFormed ts' := by
  cases c with
  | set key value =>
    obtain ⟨res, ts', hset, hts'⟩ := ramTsSet_ok w h key value
    exact ⟨ts', by rw [call, hset]; rfl, hts'⟩
  | get key value =>
    obtain ⟨buf, hget⟩ := ramTsGet_ok w h key value
    exact ⟨ts, by rw [call, hget]; rfl, h⟩

theorem runCalls_ok (w : SizeT) (h : WellFormed ts) (cs : List Call) :
    ∃ ts', runCalls w ts cs = some ts' := by
  induction cs generalizing ts with
  | nil => exact ⟨ts, rfl⟩
  | cons c cs ih =>
    obtain ⟨ts', hcall, hts'⟩ := call_ok w h c
    rw [runCalls, hcall, Option.bind_some]
    exact ih hts'

theorem safe_of_wellFormed (w : SizeT) {ts ts' : RamTs} (hinit : ramTsInit w ts = some ts')
    (h : WellFormed ts') : Safe w ts := ⟨ts', hinit, h, runCalls_ok w h⟩

theorem ramTsInit_eq (w : SizeT) (hm : ts.magic = ramTsMagic) :
    ramTsInit w ts = (ramTsCrc w ts).bind fun crc =>
      if ts.crc ≠ crc then defaultTs w else some ts := by
  rw [ramTsInit, if_neg (not_not.mpr hm)]
  rfl

/-- The store is safe exactly if the region is no store, or its checksum or its data are right. -/
theorem ram_ts_safe_iff (w : SizeT) (ts : RamTs) :
    Safe w ts ↔ ts.magic ≠ ramTsMagic ∨
      (ts.len.toNat + 8) % w.modulus ≤ 8 + ramTsMaxDataSize ∧
        (ramTsCrc w ts ≠ some ts.crc ∨ WellFormed ts) := by
  obtain ⟨fresh, hfresh, hwf⟩ := defaultTs_wellFormed w
  by_cases hm : ts.magic = ramTsMagic
  · have hinit := ramTsInit_eq w hm
    cases hcrc : ramTsCrc w ts with
    | none =>
      have hbig := (ramTsCrc_none w ts).mp hcrc
      rw [hcrc] at hinit
      constructor
      · rintro ⟨ts', hts', -⟩
        cases hinit.symm.trans hts'
      · rintro (hne | ⟨hle, -⟩)
        · exact absurd hm hne
        · exact absurd hle (not_le.mpr hbig)
    | some crc =>
      have hle : (ts.len.toNat + 8) % w.modulus ≤ 8 + ramTsMaxDataSize := by
        refine not_lt.mp fun hbig => ?_
        cases hcrc.symm.trans ((ramTsCrc_none w ts).mpr hbig)
      rw [hcrc, Option.bind_some] at hinit
      by_cases heq : ts.crc = crc
      · subst heq
        rw [if_neg (not_not.mpr rfl)] at hinit
        constructor
        · rintro ⟨ts', hts', hwf', -⟩
          cases hinit.symm.trans hts'
          exact .inr ⟨hle, .inr hwf'⟩
        · rintro (hne | ⟨-, hne | hwf'⟩)
          · exact absurd hm hne
          · exact absurd rfl hne
          · exact safe_of_wellFormed w hinit hwf'
      · rw [if_pos heq, hfresh] at hinit
        refine ⟨fun _ => .inr ⟨hle, .inl fun he => heq (Option.some.inj he).symm⟩, fun _ => ?_⟩
        exact safe_of_wellFormed w hinit hwf
  · have hinit : ramTsInit w ts = some fresh := by
      rw [ramTsInit, if_pos hm, hfresh]
    exact ⟨fun _ => .inl hm, fun _ => safe_of_wellFormed w hinit hwf⟩

def letters : Bytes ramTsMaxDataSize := ⟨List.replicate ramTsMaxDataSize 97, List.length_replicate⟩

def overlong : RamTs := ⟨ramTsMagic, 0, 497, 1, letters⟩

def unclosed : RamTs := ⟨ramTsMagic, 0xef5193c2, 1, 1, letters⟩

def keyZ : CString := ⟨[122], by decide⟩

theorem unclosed_crc (w : SizeT) : ramTsCrc w unclosed = some unclosed.crc := by
  cases w with
  | bits32 => decide +kernel
  | bits64 => decide +kernel

def Overruns (w : SizeT) : Prop :=
  ramTsInit w overlong = none ∧ ramTsInit w unclosed = some unclosed ∧
    ramTsGet w keyZ [0, 0] unclosed = none

theorem overruns (w : SizeT) : Overruns w := by
  have hbig : 8 + ramTsMaxDataSize < (overlong.len.toNat + 8) % w.modulus := by
    cases w with
    | bits32 => decide
    | bits64 => decide
  have hsearch : ramTsKeySearch unclosed.data keyZ.1 = none := by decide +kernel
  refine ⟨?_, ?_, ?_⟩
  · rw [ramTsInit_eq w rfl, (ramTsCrc_none w overlong).mpr hbig, Option.bind_none]
  · rw [ramTsInit_eq w rfl, unclosed_crc, Option.bind_some]
    exact if_neg (not_not.mpr rfl)
  · rw [ramTsGet, unclosed_crc]
    simp only [Option.bind_eq_bind, Option.bind_some, ne_eq, not_true_eq_false, if_false, hsearch,
      Option.bind_none]

theorem ram_ts_overruns : Overruns .bits32 ∧ Overruns .bits64 := ⟨overruns _, overruns _⟩

end SynaBoot.RamStore
