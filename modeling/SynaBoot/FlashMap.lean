import SynaBoot.Bindings
import SynaBoot.FlashReturns
import SynaBoot.FlashSets

namespace SynaBoot.FlashMap

open SynaBoot.PowerCut SynaBoot.FlashDevice SynaBoot.FlashRecord SynaBoot.FlashTs
open SynaBoot.FlashSlots SynaBoot.FlashScan SynaBoot.FlashStrings SynaBoot.FlashCommit
open SynaBoot.FlashReturns SynaBoot.FlashDurable SynaBoot.FlashSets
open SynaBoot.StringArea SynaBoot.Bindings

abbrev Key := { key : CString // equalsSign ∉ key.1 }

structure Call where
  key : Key
  value : CString
  code : Int

def lastValue (key : Key) : List Call → List UInt8
  | [] => []
  | c :: h => if c.code = 0 ∧ c.key = key then c.value.1 else lastValue key h

def bindingSize (key : Key) (value : List UInt8) : Nat := key.1.1.length + 1 + value.length + 1

def encodedSize (h : List Call) : Nat :=
  1 + ∑ key ∈ (h.map Call.key).toFinset,
    if lastValue key h = [] then 0 else bindingSize key (lastValue key h)

def text (buf : List UInt8) : List UInt8 := buf.takeWhile (· ≠ 0)

def encode (b : Key × List UInt8) : List UInt8 := entry b.1.1.1 b.2

theorem takeWhile_entry (key : Key) (value : List UInt8) :
    (entry key.1.1 value).takeWhile (· ≠ equalsSign) = key.1.1 :=
  takeWhile_terminated equalsSign key.2 value

theorem isEntry_encode (key : Key) (b : Key × List UInt8) : IsEntry key.1.1 (encode b) ↔ b.1 = key := by
  constructor
  · rintro ⟨w, he⟩
    have hk := takeWhile_entry b.1 b.2
    rw [encode] at he
    rw [he, takeWhile_entry] at hk
    exact Subtype.ext (Subtype.ext hk.symm)
  · rintro rfl
    exact ⟨b.2, rfl⟩

theorem put_encode (key : Key) (value : List UInt8) (bs : List (Key × List UInt8)) :
    put key.1.1 value (bs.map encode) = (update [] key value bs).map encode := by
  induction bs with
  | nil =>
    rw [update, List.map_nil, put]
    split <;> rfl
  | cons b bs ih =>
    rw [List.map_cons, put, update]
    by_cases hb : b.1 = key
    · rw [if_pos ((isEntry_encode key b).mpr hb), if_pos hb]
      split <;> rfl
    · rw [if_neg (fun he => hb ((isEntry_encode key b).mp he)), if_neg hb, ih]
      rfl

theorem length_area_encode (bs : List (Key × List UInt8)) :
    (area 0 (bs.map encode)).length = 1 + (bs.map fun b => bindingSize b.1 b.2).sum := by
  induction bs with
  | nil => rfl
  | cons b bs ih =>
    rw [List.map_cons, area_cons, List.length_append, List.length_cons, ih, encode, length_entry,
      List.map_cons, List.sum_cons, bindingSize]
    omega

structure Bound (h : List Call) (bs : List (Key × List UInt8)) : Prop where
  valid : Valid [] bs
  value : ∀ key, lookup [] key bs = lastValue key h

variable {h : List Call} {bs : List (Key × List UInt8)}

theorem lastValue_cons_ne {c : Call} {key : Key} (hne : c.code ≠ 0 ∨ c.key ≠ key) :
    lastValue key (c :: h) = lastValue key h := by
  rw [lastValue, if_neg]
  rintro ⟨h0, hk⟩
  rcases hne with hne | hne
  · exact hne h0
  · exact hne hk

theorem mem_keys_of_lastValue {key : Key} (hv : lastValue key h ≠ []) : key ∈ h.map Call.key := by
  induction h with
  | nil => exact absurd rfl hv
  | cons c h ih =>
    by_cases hc : c.key = key
    · rw [List.map_cons, hc]
      exact List.mem_cons_self
    · rw [lastValue_cons_ne (.inr hc)] at hv
      exact List.mem_cons_of_mem _ (ih hv)

theorem Bound.length (hb : Bound h bs) : (area 0 (bs.map encode)).length = encodedSize h := by
  have hs : ∀ key, lookup [] key bs ≠ [] → key ∈ (h.map Call.key).toFinset := by
    intro key hne
    rw [hb.value] at hne
    exact List.mem_toFinset.mpr (mem_keys_of_lastValue hne)
  rw [length_area_encode, sum_bindings bindingSize hb.valid hs, encodedSize]
  simp only [hb.value]

theorem Bound.set (hb : Bound h bs) (key : Key) (value : CString) :
    Bound (⟨key, value, 0⟩ :: h) (update [] key value.1 bs) := by
  refine ⟨hb.valid.update key value.1, fun key' => ?_⟩
  by_cases hk : key = key'
  · subst hk
    rw [lookup_update_self hb.valid, lastValue, if_pos ⟨rfl, rfl⟩]
  · rw [lookup_update_ne (Ne.symm hk), lastValue_cons_ne (.inr hk)]
    exact hb.value key'

theorem Bound.fail (hb : Bound h bs) {c : Call} (hc : c.code ≠ 0) : Bound (c :: h) bs :=
  ⟨hb.valid, fun key => by rw [lastValue_cons_ne (.inl hc), hb.value]⟩

def received (value buf : List UInt8) : List UInt8 :=
  if value = [] then buf.set 0 0
  else value.take buf.length ++ List.replicate (buf.length - (value.take buf.length).length) 0

theorem flashTsGet_eq {ts : Priv} (h : Sound ts.cache (bs.map encode)) (hb : Valid [] bs)
    (key : Key) (buf : List UInt8) : flashTsGet ts key.1 buf = received (lookup [] key bs) buf := by
  rw [flashTsGet, if_neg (not_not.mpr h.crc), List.length_set]
  rcases keySearch_eq h.represents key.1.1 key.1.2 with ⟨xs, s, ys, hsplit, hs, -, hr⟩ | ⟨hno, hr⟩
  · obtain ⟨b, hmem, rfl⟩ : ∃ b ∈ bs, encode b = s := by
      refine List.mem_map.mp ?_
      rw [hsplit]
      exact List.mem_append_right xs List.mem_cons_self
    have hkey := (isEntry_encode key b).mp hs
    subst hkey
    have hrep := h.represents
    rw [hsplit] at hrep
    have hvalue := value_at hrep (hrep.strings _ (List.mem_append_right xs List.mem_cons_self)).2
    rw [hr, lookup_of_mem hb hmem, received, if_neg (hb.value_ne b hmem)]
    simp only [strncpy]
    rw [hvalue]
  · have hlookup : lookup [] key bs = [] := by
      refine lookup_of_notMem fun hmem => ?_
      obtain ⟨b, hmem, he⟩ := List.mem_map.mp hmem
      exact hno (encode b) (List.mem_map_of_mem hmem) ((isEntry_encode key b).mpr he)
    rw [hr, hlookup, received, if_pos rfl]

theorem text_received {value buf : List UInt8} (h0 : (0 : UInt8) ∉ value)
    (hlt : value.length < buf.length) : text (received value buf) = value := by
  rw [received]
  split
  · next hnil =>
    rw [hnil] at hlt ⊢
    cases buf with
    | nil => cases hlt
    | cons b buf => rfl
  · obtain ⟨n, hn⟩ := Nat.exists_eq_add_of_lt hlt
    have hfill : buf.length - value.length = n + 1 := by omega
    rw [List.take_of_length_le hlt.le, hfill, List.replicate_succ]
    exact takeWhile_terminated 0 h0 _

theorem lastValue_no_zero (key : Key) (h : List Call) : (0 : UInt8) ∉ lastValue key h := by
  induction h with
  | nil => exact List.not_mem_nil
  | cons c h ih =>
    rw [lastValue]
    split
    · exact c.value.2
    · exact ih

variable {f f' : Flash} {g : Geometry} {ts ts' : Priv} {rd : Nat → Nat → Outcome}

theorem commitLoop_ret {ts : Priv} {fate : Nat → Fate} {buf : List UInt8} {n i off : Nat}
    {x : Int × Priv} (h : commitLoop g ts fate buf n i off f = .ret x f') :
    (∃ off', x = (0, { ts with offset := off' })) ∨ x = (-eio, ts) := by
  induction n generalizing i off f with
  | zero =>
    cases h
    exact .inr rfl
  | succ n ih =>
    rw [commitLoop] at h
    generalize (if partitionSize g ≤ off then 0 else off) = p at h
    split at h
    · exact ih h
    · obtain ⟨res, f₁, -, h⟩ := bind_eq_ret h
      split at h
      · exact ih h
      · obtain ⟨verified, f₂, -, h⟩ := bind_eq_ret h
        split at h
        · obtain ⟨_, f₃, -, h⟩ := bind_eq_ret h
          cases h
          exact .inl ⟨_, rfl⟩
        · exact ih h

theorem set_cases (hg : Usable g) {ss : List (List UInt8)} (h : Sound ts.cache ss)
    {fate : Nat → Fate} {key value : CString} {res : Int}
    (hret : flashTsSet g fate key value ts f = .ret (res, ts') f') :
    (res = 0 ∧ Sound ts'.cache (put key.1 value.1 ss)) ∨
      (res = -enospc ∧ ts' = ts ∧ flashTsMaxDataSize < (area 0 (put key.1 value.1 ss)).length) ∨
      (res = -eio ∧ ts' = ts ∧ (area 0 (put key.1 value.1 ss)).length ≤ flashTsMaxDataSize) := by
  cases hr : attempt ts key value with
  | none =>
    rcases flashTsSet_none h hr g fate with ⟨hp, hput⟩ | ⟨hp, hbig⟩
    · rw [hp] at hret
      cases hret
      rw [hput]
      exact .inl ⟨rfl, h⟩
    · rw [hp] at hret
      cases hret
      exact .inr (.inl ⟨rfl, rfl, hbig⟩)
  | some r =>
    have hs := (attempt_spec h hr).1
    rw [flashTsSet_attempt hg h hr] at hret
    obtain ⟨x, f₁, hloop, hend⟩ := bind_eq_ret hret
    rcases commitLoop_ret hloop with ⟨off, rfl⟩ | rfl
    · rw [finish_ok] at hend
      cases hend
      exact .inl ⟨rfl, hs⟩
    · rw [finish_eio] at hend
      cases hend
      exact .inr (.inr ⟨rfl, rfl, hs.represents.fits⟩)

theorem scanLoop_cache {P : FlashTs → Prop} (hP : ∀ r, flashTsCheckHeader r ≠ 0 → P r)
    {fuel off gb gb' : Nat} (h : scanLoop g rd fuel off gb ts f = .ret (gb', ts') f')
    (hts : P ts.cache) : P ts'.cache := by
  induction fuel generalizing off gb ts f with
  | zero =>
    cases h
    exact hts
  | succ fuel ih =>
    rw [scanLoop] at h
    split at h
    · simp only at h
      split at h
      · exact ih h hts
      · cases h
        exact hts
    · obtain ⟨⟨res, verify⟩, f₁, -, h⟩ := bind_eq_ret h
      simp only at h
      generalize hnew : (if res = 0 ∧ ts.cache.version < flashTsCheckHeader (ofBytes verify) then
        { offset := off, cache := ofBytes verify } else ts) = t at h
      generalize (if res = 0 ∧ flashTsCheckHeader (ofBytes verify) = 0 ∧ isBlank verify = true then
        alignDown (off + g.blockSize) g.blockSize else off + chunk g) = off' at h
      have ht : P t.cache := by
        rw [← hnew]
        split
        · next hlt =>
          refine hP _ fun h0 => ?_
          rw [h0] at hlt
          exact absurd hlt.2 (by simp)
        · exact hts
      split at h
      · exact ih h ht
      · cases h
        exact ht

theorem scanLoop_sealed {fuel off gb gb' : Nat}
    (h : scanLoop g rd fuel off gb ts f = .ret (gb', ts') f')
    (hts : ts.cache.magic = flashTsMagic ∧ ts.cache.crc = flashTsCrc ts.cache) :
    ts'.cache.magic = flashTsMagic ∧ ts'.cache.crc = flashTsCrc ts'.cache := by
  refine scanLoop_cache (P := fun c => c.magic = flashTsMagic ∧ c.crc = flashTsCrc c) ?_ h hts
  intro r hr
  obtain ⟨hm, -, hc, -⟩ := check_ne_zero hr
  exact ⟨hm, hc⟩

inductive Calls (g : Geometry) : List Call → Flash → Priv → Prop
  | init {rd : Nat → Nat → Outcome} {old : Bytes flashTsMaxDataSize} {f f' : Flash} {ts : Priv}
      (hret : flashTsInit g rd old f = .ret (0, some ts) f') (hempty : contents ts.cache = [0]) :
      Calls g [] f' ts
  | set {h : List Call} {f f' : Flash} {ts ts' : Priv} {fate : Nat → Fate} {key : Key}
      {value : CString} {res : Int} (hrun : Calls g h f ts)
      (hret : flashTsSet g fate key.1 value ts f = .ret (res, ts') f') :
      Calls g (⟨key, value, res⟩ :: h) f' ts'

theorem sound_of_init {old : Bytes flashTsMaxDataSize} {ts : Priv}
    (hret : flashTsInit g rd old f = .ret (0, some ts) f') (hempty : contents ts.cache = [0]) :
    Sound ts.cache [] := by
  obtain ⟨-, -, -, gb, -, hloop⟩ := scan_of_init hret
  obtain ⟨hm, hc⟩ := scanLoop_sealed hloop ⟨rfl, (sound_emptyCache old).crc⟩
  refine ⟨⟨by simp [Strings], ?_, hempty⟩, hm, hc⟩
  have hlen := congrArg List.length hempty
  rw [contents, List.length_take, ts.cache.data.2] at hlen
  have hmax : 1 < flashTsMaxDataSize := by decide
  change min ts.cache.len.toNat flashTsMaxDataSize = 1 at hlen
  change ts.cache.len.toNat = 1
  omega

theorem Calls.bound {f : Flash} {ts : Priv} (hrun : Calls g h f ts) :
    Usable g ∧ ∃ bs, Bound h bs ∧ Sound ts.cache (bs.map encode) := by
  induction hrun with
  | init hret hempty =>
    refine ⟨usable_of_init hret, [], ⟨⟨List.nodup_nil, ?_⟩, fun _ => rfl⟩, sound_of_init hret hempty⟩
    exact fun b hb => absurd hb List.not_mem_nil
  | @set h f f' ts ts' fate key value res hrun hret ih =>
    obtain ⟨hg, bs, hb, hs⟩ := ih
    refine ⟨hg, ?_⟩
    rcases set_cases hg hs hret with ⟨rfl, hs'⟩ | ⟨rfl, rfl, -⟩ | ⟨rfl, rfl, -⟩
    · rw [put_encode] at hs'
      exact ⟨_, hb.set key value, hs'⟩
    · exact ⟨bs, hb.fail (show (-enospc : Int) ≠ 0 by decide), hs⟩
    · exact ⟨bs, hb.fail (show (-eio : Int) ≠ 0 by decide), hs⟩

/-- The store is a finite map from keys to values. -/
theorem finite_map {g : Geometry} {h : List Call} {f : Flash} {ts : Priv} (hrun : Calls g h f ts) :
    (∀ (key : Key) (buf : List UInt8), (lastValue key h).length < buf.length →
      text (flashTsGet ts key.1 buf) = lastValue key h) ∧
    (∀ (key : Key) (value : CString) (fate : Nat → Fate), (∀ i, NoCut (fate i)) →
      ∃ res ts' f', flashTsSet g fate key.1 value ts f = .ret (res, ts') f') ∧
    ∀ (key : Key) (value : CString) (fate : Nat → Fate) (res : Int) (ts' : Priv) (f' : Flash),
      flashTsSet g fate key.1 value ts f = .ret (res, ts') f' →
        (res = 0 ∨ res = -enospc ∨ res = -eio) ∧
        (res = -enospc ↔ flashTsMaxDataSize < encodedSize (⟨key, value, 0⟩ :: h)) ∧
        (∀ (key' : Key) (buf : List UInt8), key' ≠ key →
          flashTsGet ts' key'.1 buf = flashTsGet ts key'.1 buf) ∧
        (res ≠ 0 → ts' = ts) := by
  obtain ⟨hg, bs, hb, hs⟩ := hrun.bound
  refine ⟨fun key buf hlt => ?_, fun key value fate hfate => ?_, ?_⟩
  · rw [flashTsGet_eq hs hb.valid, hb.value]
    exact text_received (lastValue_no_zero key h) hlt
  · obtain ⟨x, f', hret⟩ := returns_flashTsSet (transferable_eq hg) hfate key.1 value ts f
    exact ⟨x.1, x.2, f', hret⟩
  · intro key value fate res ts' f' hret
    have hcases := set_cases hg hs hret
    have hlen := (hb.set key value).length
    rw [put_encode, hlen] at hcases
    rcases hcases with ⟨rfl, hs'⟩ | ⟨rfl, rfl, hbig⟩ | ⟨rfl, rfl, hle⟩
    · have hfits := hs'.represents.fits
      rw [hlen] at hfits
      refine ⟨.inl rfl, ⟨fun he => absurd he (by decide), fun hbig => absurd hfits (not_le.mpr hbig)⟩,
        fun key' buf hne => ?_, fun h0 => absurd rfl h0⟩
      rw [flashTsGet_eq hs' (hb.set key value).valid, flashTsGet_eq hs hb.valid,
        lookup_update_ne hne]
    · exact ⟨.inr (.inl rfl), ⟨fun _ => hbig, fun _ => rfl⟩, fun _ _ _ => rfl, fun _ => rfl⟩
    · refine ⟨.inr (.inr rfl), ⟨fun he => ?_, fun hbig => absurd hle (not_le.mpr hbig)⟩,
        fun _ _ _ => rfl, fun _ => rfl⟩
      exact absurd he (by decide)

theorem finite_map_first : ∃ ts f,
    flashTsSet twoBlocks (fun _ => allOk) keyA valueOne (emptyPriv twoBlocks zeroBytes) blankFlash =
        .ret (0, ts) f ∧
      text (flashTsGet ts keyA [7, 7, 7, 7]) = [49] ∧ text (flashTsGet ts keyB [7, 7, 7, 7]) = [] := by
  obtain ⟨r, f, -, -, hset, -⟩ := first_set
  have hrun : Calls twoBlocks [⟨⟨keyA, by decide⟩, valueOne, 0⟩] f ⟨0 * flashTsMaxSize, r⟩ :=
    .set (.init init_twoBlocks (sound_emptyCache zeroBytes).represents.contents) hset
  obtain ⟨hget, -, -⟩ := finite_map hrun
  exact ⟨_, f, hset, hget ⟨keyA, by decide⟩ _ (by decide), hget ⟨keyB, by decide⟩ _ (by decide)⟩

end SynaBoot.FlashMap
