import SynaBoot.FlashMap
import SynaBoot.TsArea

namespace SynaBoot.FlashBounds

open SynaBoot.PowerCut SynaBoot.FlashDevice SynaBoot.FlashRecord SynaBoot.FlashTs
open SynaBoot.FlashScan SynaBoot.FlashStrings SynaBoot.FlashCommit SynaBoot.FlashMap
open SynaBoot.StringArea SynaBoot.TsArea
open SynaBoot.CheckedStrings (strncpy_terminated)

/- The store with every access to a record checked: `none` is an access outside. -/

def crcChecked (w : SizeT) (r : FlashTs) : Option UInt32 := tsCrc w r.len r.version r.data

/-- `flash_ts_check_header`, test by test. -/
def checkHeader (w : SizeT) (r : FlashTs) : Option UInt32 := do
  if ¬(r.magic = flashTsMagic ∧ r.version ≠ 0 ∧ r.len ≠ 0 ∧ r.len.toNat ≤ flashTsMaxDataSize) then
    return 0
  else
    let crc ← crcChecked w r
    if r.crc ≠ crc then return 0
    else
      let last ← load r.data (r.len.toNat - 1) 1
      if last ≠ [0] then return 0
      else if r.len = 1 then return r.version
      else
        let previous ← load r.data (r.len.toNat - 2) 1
        if previous ≠ [0] then return 0 else return r.version

def fillChecked (c : FlashTs) : Option FlashTs := do
  let size ← sub flashTsMaxDataSize c.len.toNat
  let data ← store c.data c.len.toNat (List.replicate size 0xff)
  return { c with data := data }

def commitFilled (g : Geometry) (fate : Nat → Fate) (ts : Priv) : Prog Flash (Int × Priv) :=
  let y := flashTsHdrSize + ts.cache.len.toNat + chunk g - 1
  let buf := (toBytes ts.cache).take (alignDown y (chunk g))
  commitLoop g ts fate buf (partitionSize g / g.blockSize * 2) 0 (ts.offset + chunk g)

def setChecked (w : SizeT) (key value : CString) (c : FlashTs) : Option (Int ⊕ FlashTs) := do
  let crc ← crcChecked w c
  if c.crc ≠ crc then return .inl (-einval)
  else
    match ← tsUpdate c.data c.len.toNat key.1 value.1 with
    | .same => return .inl 0
    | .noSpace => return .inl (-enospc)
    | .changed data len =>
      let c := { c with data := data, len := UInt32.ofNat len, version := c.version + 1 }
      let crc ← crcChecked w c
      let c ← fillChecked { c with crc := crc }
      return .inr c

def checkedSet (w : SizeT) (g : Geometry) (fate : Nat → Fate) (key value : CString) (ts : Priv) :
    Prog Flash (Option (Int × Priv)) :=
  match setChecked w key value ts.cache with
  | none => pure none
  | some (.inl res) => pure (some (res, ts))
  | some (.inr c) => do
    let (res, ts') ← commitFilled g fate { ts with cache := c }
    if res ≠ 0 then return some (res, { ts' with cache := ts.cache })
    return some (res, ts')

def checkedGet (w : SizeT) (ts : Priv) (key : CString) (value : List UInt8) :
    Option (List UInt8) := do
  let value := value.set 0 0
  let crc ← crcChecked w ts.cache
  if ts.cache.crc ≠ crc then return value
  else
    match ← tsKeySearch ts.cache.data key.1 with
    | some p => CheckedStrings.strncpy 0 (ts.cache.data.1.drop (p + key.1.length + 1)) value.length
    | none => return value

inductive Access where
  | set (key value : CString) (fate : Nat → Fate)
  | get (key : CString) (value : List UInt8)

def runAccesses (w : SizeT) (g : Geometry) : List Access → Priv → Prog Flash (Option Priv)
  | [], ts => pure (some ts)
  | .set key value fate :: cs, ts => do
    match ← checkedSet w g fate key value ts with
    | some (_, ts) => runAccesses w g cs ts
    | none => pure none
  | .get key value :: cs, ts =>
    match checkedGet w ts key value with
    | some _ => runAccesses w g cs ts
    | none => pure none

structure Closed (c : FlashTs) : Prop where
  pos : 1 ≤ c.len.toNat
  le : c.len.toNat ≤ flashTsMaxDataSize
  last : c.data.1[c.len.toNat - 1]? = some 0
  previous : c.len.toNat = 1 ∨ c.data.1[c.len.toNat - 2]? = some 0

variable {c : FlashTs}

theorem closed_iff : Closed c ↔ c.len.toNat ≤ flashTsMaxDataSize ∧ Closes 0 (contents c) := by
  have hclose (hpos : 1 ≤ c.len.toNat) (hle : c.len.toNat ≤ flashTsMaxDataSize) :
      Closes 0 (contents c) ↔ c.data.1[c.len.toNat - 1]? = some 0 ∧
        (c.len.toNat = 1 ∨ c.data.1[c.len.toNat - 2]? = some 0) := by
    have hlt : c.len.toNat - 1 < c.data.1.length := by
      rw [c.data.2]
      omega
    have hzero : c.len.toNat - 1 = 0 ↔ c.len.toNat = 1 := by omega
    have hsub : c.len.toNat - 1 - 1 = c.len.toNat - 2 := rfl
    have hend := closes_take (z := 0) hlt
    rw [Nat.sub_add_cancel hpos, hzero, hsub] at hend
    rw [contents, hend, List.getElem?_eq_getElem hlt, Option.some.injEq]
  constructor
  · intro h
    exact ⟨h.le, (hclose h.pos h.le).mpr ⟨h.last, h.previous⟩⟩
  · rintro ⟨hle, hc⟩
    have hpos : 1 ≤ c.len.toNat := by
      refine Nat.pos_of_ne_zero fun h0 => hc.ne_nil ?_
      rw [contents, h0, List.take_zero]
    obtain ⟨hlast, hprevious⟩ := (hclose hpos hle).mp hc
    exact ⟨hpos, hle, hlast, hprevious⟩

theorem Closed.holds (h : Closed c) : Holds c.data c.len.toNat :=
  holds_iff.mpr ⟨h.le, c.len.toNat, le_rfl, (closed_iff.mp h).2⟩

theorem crcChecked_eq (w : SizeT) (h : c.len.toNat ≤ flashTsMaxDataSize) :
    crcChecked w c = some (flashTsCrc c) := tsCrc_of_le w h (by decide)

theorem load_one {n : ℕ} {data : Bytes n} {p : ℕ} (h : p < n) :
    load data p 1 = some [data.1.getD p 0] := by
  have hlt : p < data.1.length := by rwa [data.2]
  rw [load_of_le h, List.drop_eq_getElem_cons hlt, List.getD_eq_getElem _ _ hlt]
  rfl

theorem checkHeader_eq (w : SizeT) (r : FlashTs) : checkHeader w r = some (flashTsCheckHeader r) := by
  unfold checkHeader flashTsCheckHeader
  by_cases hhead : r.magic = flashTsMagic ∧ r.version ≠ 0 ∧ r.len ≠ 0 ∧
      r.len.toNat ≤ flashTsMaxDataSize
  · obtain ⟨hm, hv, hl, hle⟩ := hhead
    have hpos : 0 < r.len.toNat := Nat.pos_of_ne_zero fun h0 => hl (UInt32.toNat_inj.mp h0)
    rw [if_neg (not_not.mpr ⟨hm, hv, hl, hle⟩), crcChecked_eq w hle, load_one (by omega),
      load_one (by omega)]
    simp only [Option.bind_eq_bind, Option.bind_some, Option.pure_def, ne_eq, List.cons.injEq,
      and_true, hm, hv, hl, hle, true_and, not_false_eq_true]
    generalize r.data.1.getD (r.len.toNat - 1) 0 = last
    generalize r.data.1.getD (r.len.toNat - 2) 0 = previous
    grind
  · rw [if_pos hhead, if_neg]
    · rfl
    · rintro ⟨hm, hv, hl, hle, -⟩
      exact hhead ⟨hm, hv, hl, hle⟩

def toChange : Update → Change flashTsMaxDataSize
  | .same => .same
  | .noSpace => .noSpace
  | .changed c => .changed c.data c.len.toNat

theorem toChange_writeValue (c : FlashTs) (p klen : ℕ) (value : List UInt8) :
    toChange (.changed (writeValue c p klen value)) =
      .changed (TsArea.written c.data p klen value) c.len.toNat := by
  unfold writeValue TsArea.written
  split
  · rfl
  · rfl

theorem tsUpdate_eq (h : Holds c.data c.len.toNat) {key value : List UInt8}
    (hkey : (0 : UInt8) ∉ key) (hvalue : (0 : UInt8) ∉ value) :
    tsUpdate c.data c.len.toNat key value = some (toChange (updateCache c key value)) := by
  have hpos := h.pos
  have hofNat {k : ℕ} (hk : k ≤ flashTsMaxDataSize) : (UInt32.ofNat k).toNat = k := by
    rw [UInt32.toNat_ofNat']
    exact Nat.mod_eq_of_lt (hk.trans_lt (by decide))
  obtain ⟨ss, junk, t, hss, hdata, hlen⟩ := h
  obtain ⟨xs, w, ys, rfl, hw, -, hr, hr'⟩ | ⟨-, hr, hr'⟩ := tsKeySearch_cases hkey hss hdata
  · have hsplit : c.data.1 = table 0 xs ++ (entry key w ++ 0 :: ((area 0 ys ++ junk) ++ t)) := by
      rw [hdata]
      simp [area_split]
    have hlen' : c.len.toNat = (table 0 xs).length + ((entry key w).length + 1) +
        (area 0 ys ++ junk).length := by
      rw [hlen, area_split]
      simp only [List.length_append, List.length_cons]
      omega
    simp only [tsUpdate, updateCache, hr, hr', Option.bind_eq_bind, Option.bind_some]
    rw [tsReplace_eq hsplit hw hvalue hlen' _ rfl]
    have hcount : c.len.toNat - ((table 0 xs).length + ((entry key w).length + 1)) =
        (area 0 ys ++ junk).length := by omega
    have hw' : (0 : UInt8) ∉ w := fun hm => hw (by simp [entry, hm])
    simp only [replaceEntry, strlen, drop_before hsplit, drop_key hsplit,
      takeWhile_terminated 0 hw, takeWhile_terminated 0 hw', hcount, take_rest hsplit]
    congr 1
    generalize (if value.length ≠ 0 then key.length + 1 + value.length + 1 else 0) = newLen
    split
    case isTrue =>
      split
      case isTrue => rfl
      case isFalse hle => rw [toChange_writeValue, hofNat (not_lt.mp hle)]
    case isFalse =>
      split
      case isTrue => rfl
      case isFalse => rw [toChange_writeValue]
  · simp only [tsUpdate, updateCache, hr, hr', Option.bind_eq_bind, Option.bind_some]
    rw [tsAppend_eq hpos, appendEntry]
    congr 1
    split
    · rfl
    · split
      · rfl
      · simp only [toChange]
        rw [hofNat (by omega)]

theorem updateCache_frame {c c' : FlashTs} {key value : List UInt8}
    (h : updateCache c key value = .changed c') :
    c' = { c with data := c'.data, len := c'.len } := by
  have hwrite (d : FlashTs) (p klen : ℕ) (v : List UInt8) :
      writeValue d p klen v = { d with data := (writeValue d p klen v).data } := by
    unfold writeValue
    split
    · rfl
    · rfl
  unfold updateCache at h
  split at h
  · simp only [replaceEntry] at h
    generalize (if value.length ≠ 0 then key.length + 1 + value.length + 1 else 0) = newLen at h
    split at h
    · split at h
      · cases h
      · cases h
        rw [hwrite]
    · split at h
      · cases h
      · cases h
        rw [hwrite]
  · simp only [appendEntry] at h
    split at h
    · cases h
    · split at h
      · cases h
      · cases h
        rfl

def planned (key value : CString) (c : FlashTs) : Int ⊕ FlashTs :=
  if c.crc ≠ flashTsCrc c then .inl (-einval)
  else
    match updateCache c key.1 value.1 with
    | .same => .inl 0
    | .noSpace => .inl (-enospc)
    | .changed c => .inr (fillUnused (nextVersion c))

theorem fillChecked_eq (h : c.len.toNat ≤ flashTsMaxDataSize) :
    fillChecked c = some (fillUnused c) := by
  have hle : c.len.toNat + (List.replicate (flashTsMaxDataSize - c.len.toNat) (0xff : UInt8)).length ≤
      flashTsMaxDataSize := by
    rw [List.length_replicate]
    omega
  simp only [fillChecked, sub_of_le h, store_of_le hle, Option.bind_eq_bind, Option.bind_some,
    Option.pure_def]
  rfl

variable {key value : CString} {ts : Priv} {f f' : Flash} {g : Geometry} {res : Int}

theorem Closed.update {c c' : FlashTs} (h : Closed c)
    (hc : updateCache c key.1 value.1 = .changed c') : Closed c' := by
  obtain ⟨u, new, hu, hbec, ⟨ss, junk, hnew, hss⟩, hclose⟩ :=
    tsUpdate_holds h.holds key.2 value.2
  rw [tsUpdate_eq h.holds key.2 value.2, hc, Option.some.injEq] at hu
  subst hu
  refine closed_iff.mpr ⟨(hbec.holds hnew hss).le, ?_⟩
  rw [contents, hbec.take]
  exact hclose (closed_iff.mp h).2

theorem Closed.fill (h : Closed c) : Closed (fillUnused (nextVersion c)) := by
  have hle : (nextVersion c).len.toNat ≤ flashTsMaxDataSize := h.le
  refine closed_iff.mpr ⟨hle, ?_⟩
  rw [contents_fillUnused hle, contents_nextVersion]
  exact (closed_iff.mp h).2

theorem setChecked_eq (w : SizeT) (h : Closed c) (key value : CString) :
    setChecked w key value c = some (planned key value c) := by
  simp only [setChecked, planned, crcChecked_eq w h.le, Option.bind_eq_bind, Option.bind_some,
    Option.pure_def]
  split
  · rfl
  · rw [tsUpdate_eq h.holds key.2 value.2, Option.bind_some]
    cases hu : updateCache c key.1 value.1 with
    | same => rfl
    | noSpace => rfl
    | changed c' =>
      have hle := (h.update hu).le
      have hframe := updateCache_frame hu
      have hm : c.magic = c'.magic := (congrArg FlashTs.magic hframe).symm
      have hcrc : c.crc = c'.crc := (congrArg FlashTs.crc hframe).symm
      have hv : c.version = c'.version := (congrArg FlashTs.version hframe).symm
      simp only [toChange, UInt32.ofNat_toNat, hm, hcrc, hv]
      rw [crcChecked_eq w (c := { c' with version := c'.version + 1 }) hle, Option.bind_some]
      change (fillChecked (nextVersion c')).bind _ = _
      rw [fillChecked_eq (c := nextVersion c') hle, Option.bind_some]

theorem checkedSet_eq (w : SizeT) (g : Geometry) (fate : Nat → Fate) (key value : CString)
    (h : Closed ts.cache) :
    checkedSet w g fate key value ts = flashTsSet g fate key value ts >>= fun r => pure (some r) := by
  rw [checkedSet, flashTsSet, setChecked_eq w h, planned]
  by_cases hcrc : ts.cache.crc ≠ flashTsCrc ts.cache
  · rw [if_pos hcrc, if_pos hcrc]
    rfl
  · rw [if_neg hcrc, if_neg hcrc]
    cases updateCache ts.cache key.1 value.1 with
    | same => rfl
    | noSpace => rfl
    | changed c =>
      dsimp only
      rw [bind_bind]
      refine congrArg (bind _) (funext fun r => ?_)
      split
      · rfl
      · rfl

theorem flashTsSet_cache {P : FlashTs → Prop} {fate : Nat → Fate} {ts ts' : Priv} (h : P ts.cache)
    (hnew : ∀ c, updateCache ts.cache key.1 value.1 = .changed c → P (fillUnused (nextVersion c)))
    (hret : flashTsSet g fate key value ts f = .ret (res, ts') f') : P ts'.cache := by
  rw [flashTsSet] at hret
  split at hret
  · cases hret
    exact h
  · cases hu : updateCache ts.cache key.1 value.1 with
    | same =>
      rw [hu] at hret
      cases hret
      exact h
    | noSpace =>
      rw [hu] at hret
      cases hret
      exact h
    | changed c =>
      rw [hu] at hret
      obtain ⟨⟨res', ts₁⟩, f₁, hloop, hend⟩ := bind_eq_ret hret
      dsimp only at hend
      split at hend
      · cases hend
        exact h
      · cases hend
        obtain ⟨off, hok⟩ | hfail := commitLoop_ret hloop
        · cases hok
          exact hnew c hu
        · cases hfail
          exact hnew c hu

theorem flashTsSet_closed {fate : Nat → Fate} {ts ts' : Priv} (h : Closed ts.cache)
    (hret : flashTsSet g fate key value ts f = .ret (res, ts') f') : Closed ts'.cache :=
  flashTsSet_cache h (fun _ hu => (h.update hu).fill) hret

theorem checkedGet_ok (w : SizeT) (h : Closed ts.cache) (key : CString) (value : List UInt8) :
    checkedGet w ts key value = some (flashTsGet ts key value) := by
  simp only [checkedGet, flashTsGet, crcChecked_eq w h.le, Option.bind_eq_bind, Option.bind_some,
    Option.pure_def]
  split
  · rfl
  · obtain ⟨ss, junk, t, hss, hdata, -⟩ := h.holds
    obtain ⟨xs, v, ys, rfl, hv, -, hr, hr'⟩ | ⟨-, hr, hr'⟩ := tsKeySearch_cases key.2 hss hdata
    · obtain ⟨hno, rest, htext⟩ := value_behind hdata hv
      simp only [hr, hr', Option.bind_some, htext, strncpy_terminated hno, strncpy,
        takeWhile_terminated 0 hno]
    · simp only [hr, hr', Option.bind_some]

theorem closed_of_check {r : FlashTs} (h : flashTsCheckHeader r ≠ 0) : Closed r := by
  obtain ⟨-, -, -, hpos, hle⟩ := check_ne_zero h
  unfold flashTsCheckHeader at h
  split at h
  case isFalse => exact absurd rfl h
  case isTrue hc =>
    obtain ⟨-, -, -, -, -, hlast, hprev⟩ := hc
    have hget {i : ℕ} (hi : i < flashTsMaxDataSize) (h0 : r.data.1.getD i 0 = 0) :
        r.data.1[i]? = some 0 := by
      have hlt : i < r.data.1.length := by rwa [r.data.2]
      rw [List.getD_eq_getElem _ _ hlt] at h0
      rw [List.getElem?_eq_getElem hlt, h0]
    refine ⟨hpos, hle, hget (by omega) hlast, hprev.imp (fun h1 => ?_) (hget (by omega))⟩
    rw [h1]
    rfl

theorem closed_of_init {rd : Nat → Nat → Outcome} {old : Bytes flashTsMaxDataSize}
    (h : flashTsInit g rd old f = .ret (res, some ts) f') : Closed ts.cache := by
  obtain ⟨-, -, -, gb, -, hloop⟩ := scan_of_init h
  refine scanLoop_cache (fun r hr => closed_of_check hr) hloop ?_
  have hempty := (sound_emptyCache old).represents
  refine closed_iff.mpr ⟨len_fits hempty, ?_⟩
  have hcontents : contents (emptyPriv g old).cache = area 0 [] := hempty.contents
  rw [hcontents]
  exact closes_area []

theorem runAccesses_closed (w : SizeT) (g : Geometry) (cs : List Access) (h : Closed ts.cache)
    (f : Flash) :
    Yields (runAccesses w g cs ts) (fun r => ∃ ts', r = some ts' ∧ Closed ts'.cache) f := by
  induction cs generalizing ts f with
  | nil => exact yields_pure ⟨ts, rfl, h⟩ f
  | cons c cs ih =>
    cases c with
    | set key value fate =>
      rw [runAccesses, checkedSet_eq w g fate key value h]
      refine yields_bind fun r f' hr => ?_
      obtain ⟨⟨res, ts'⟩, f₁, hset, hr⟩ := bind_eq_ret hr
      cases hr
      exact ih (flashTsSet_closed h hset) _
    | get key value =>
      rw [runAccesses, checkedGet_ok w h]
      exact ih h f

/-- Whatever the flash holds, the store is only accessed inside its record. -/
theorem flash_ts_inside (w : SizeT) (g : Geometry) (rd : Nat → Nat → Outcome)
    (old : Bytes flashTsMaxDataSize) (f : Flash) :
    (∀ r, checkHeader w r = some (flashTsCheckHeader r)) ∧
      crcChecked w (emptyCache old) = some (emptyCache old).crc ∧
      Yields (flashTsInit g rd old) (fun r => ∀ ts ∈ r.2, Closed ts.cache ∧ ∀ cs f',
        Yields (runAccesses w g cs ts) (fun r => ∃ ts', r = some ts' ∧ Closed ts'.cache) f') f := by
  have hempty := sound_emptyCache old
  refine ⟨checkHeader_eq w, ?_, yields_of_ret fun r f' hr ts hts => ?_⟩
  · rw [crcChecked_eq w (len_fits hempty.represents), hempty.crc]
  · obtain ⟨res, o⟩ := r
    rw [Option.mem_def] at hts
    dsimp only at hts
    subst hts
    have hclosed := closed_of_init hr
    exact ⟨hclosed, fun cs f₁ => runAccesses_closed w g cs hclosed f₁⟩

end SynaBoot.FlashBounds
