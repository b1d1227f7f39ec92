import SynaBoot.CheckedStrings
import SynaBoot.FlashStrings

namespace SynaBoot.TsArea

open SynaBoot.FlashRecord SynaBoot.StringArea SynaBoot.CheckedStrings
open SynaBoot.FlashTs (equalsSign flashTsKeySearchLoop flashTsKeySearch)
open SynaBoot.FlashStrings (entry IsEntry length_entry string_entry move_data match_iff keySearchLoop_eq)

variable {n : ℕ}

/- The data area that both stores keep and what they do to it, with every access checked:
`none` is an access outside the data. -/

inductive SizeT where
  | bits32
  | bits64
  deriving DecidableEq, Repr

def SizeT.modulus : SizeT → ℕ
  | .bits32 => 2 ^ 32
  | .bits64 => 2 ^ 64

def load (data : Bytes n) (p k : ℕ) : Option (List UInt8) :=
  if k = 0 ∨ p + k ≤ n then some ((data.1.drop p).take k) else none

def store (data : Bytes n) (p : ℕ) (bs : List UInt8) : Option (Bytes n) :=
  if bs = [] ∨ p + bs.length ≤ n then some (overwrite data p bs) else none

/-- A difference that wraps is taken for a wrong access. -/
def sub (a b : ℕ) : Option ℕ := if b ≤ a then some (a - b) else none

def tsCrc (w : SizeT) (len version : UInt32) (data : Bytes n) : Option UInt32 :=
  let bytes := le32 len ++ le32 version ++ data.1
  let size := (len.toNat + 8) % w.modulus
  if size ≤ bytes.length then some ((bytes.take size).foldl crcByte 0 ^^^ 0xffffffff) else none

def keyMatches (key l : List UInt8) : Option Bool := do
  let same ← strncmp 0 l key
  if same then
    let c ← l[key.length]?
    return decide (c = equalsSign)
  else return false

def tsKeySearchLoop (key : List UInt8) : ℕ → ℕ → List UInt8 → Option (Option ℕ)
  | 0, _, _ => none
  | fuel + 1, pos, l => do
    let c ← l.head?
    if c = 0 then return none
    else
      let found ← keyMatches key l
      if found then return some pos
      else
        let size ← strlen 0 l
        tsKeySearchLoop key fuel (pos + (size + 1)) (l.drop (size + 1))

def tsKeySearch (data : Bytes n) (key : List UInt8) : Option (Option ℕ) :=
  tsKeySearchLoop key n 0 data.1

inductive Change (n : ℕ) where
  | same
  | noSpace
  | changed (data : Bytes n) (len : ℕ)

def tsWriteValue (data : Bytes n) (p klen : ℕ) (value : List UInt8) : Option (Bytes n) :=
  if value.length ≠ 0 then store data (p + klen + 1) (value ++ [0]) else some data

def tsReplace (data : Bytes n) (len p klen : ℕ) (value : List UInt8) : Option (Change n) := do
  let size ← strlen 0 (data.1.drop p)
  let curLen := size + 1
  let newLen := if value.length ≠ 0 then klen + 1 + value.length + 1 else 0
  if curLen ≠ newLen then
    let others ← sub len curLen
    if n < others + newLen then return .noSpace
    else
      let count ← sub len (p + curLen)
      let rest ← load data (p + curLen) count
      let data ← store data (p + newLen) rest
      let data ← tsWriteValue data p klen value
      return .changed data (others + newLen)
  else
    let same ← strcmp 0 (data.1.drop (p + klen + 1)) value
    if same then return .same
    else
      let data ← tsWriteValue data p klen value
      return .changed data len

def tsAppend (data : Bytes n) (len : ℕ) (key value : List UInt8) : Option (Change n) := do
  let size := key.length + 1 + value.length + 1
  if value.length = 0 then return .same
  else if n < len + size then return .noSpace
  else
    let p ← sub len 1
    let data ← store data p (key ++ equalsSign :: (value ++ [0, 0]))
    return .changed data (len + size)

def tsUpdate (data : Bytes n) (len : ℕ) (key value : List UInt8) : Option (Change n) := do
  match ← tsKeySearch data key with
  | some p => tsReplace data len p key.length value
  | none => tsAppend data len key value

theorem sub_of_le {a b : ℕ} (h : b ≤ a) : sub a b = some (a - b) := if_pos h

variable {data : Bytes n}

theorem load_of_le {p k : ℕ} (h : p + k ≤ n) :
    load data p k = some ((data.1.drop p).take k) := if_pos (.inr h)

theorem store_of_le {p : ℕ} {bs : List UInt8} (h : p + bs.length ≤ n) :
    store data p bs = some (overwrite data p bs) := if_pos (.inr h)

theorem SizeT.mod_modulus (w : SizeT) {k : ℕ} (h : k < 2 ^ 32) : k % w.modulus = k := by
  have hle : 2 ^ 32 ≤ w.modulus := by
    cases w with
    | bits32 => exact le_rfl
    | bits64 => exact Nat.pow_le_pow_right (by decide) (by decide)
  exact Nat.mod_eq_of_lt (h.trans_le hle)

theorem tsCrc_of_le (w : SizeT) {len version : UInt32} (h : len.toNat ≤ n) (hn : n + 8 < 2 ^ 32) :
    tsCrc w len version data =
      some ((le32 len ++ le32 version ++ data.1.take len.toNat).foldl crcByte 0 ^^^ 0xffffffff) := by
  have hhdr : (le32 len ++ le32 version).length = 8 := rfl
  have hsize : (len.toNat + 8) % w.modulus = 8 + len.toNat := by
    rw [w.mod_modulus (by omega), Nat.add_comm]
  have hle : 8 + len.toNat ≤ (le32 len ++ le32 version ++ data.1).length := by
    rw [List.length_append, hhdr, data.2]
    omega
  simp only [tsCrc, hsize, if_pos hle]
  rw [← hhdr, List.take_length_add_append]

section Search

variable {key s : List UInt8}

theorem keyMatches_eq (hkey : (0 : UInt8) ∉ key) (hs : (0 : UInt8) ∉ s) (t : List UInt8) :
    keyMatches key (s ++ 0 :: t) = some (decide (IsEntry key s)) := by
  simp only [keyMatches, strncmp_terminated hkey hs, Option.bind_eq_bind, Option.bind_some]
  by_cases hp : key <+: s
  · have hlt : key.length < (s ++ 0 :: t).length := by
      have hle := hp.length_le
      simp only [List.length_append, List.length_cons]
      omega
    have htake : (s ++ 0 :: t).take key.length = key :=
      (List.prefix_iff_eq_take.mp (hp.trans (List.prefix_append s _))).symm
    have hiff := match_iff (s := s) (t := t) hkey
    rw [List.getD_eq_getElem _ _ hlt] at hiff
    simp only [hp, decide_true, if_true, List.getElem?_eq_getElem hlt, Option.bind_some,
      Option.pure_def]
    congr 1
    exact decide_eq_decide.mpr ⟨fun he => hiff.mp ⟨htake, he⟩, fun he => (hiff.mpr he).2⟩
  · have hno : ¬IsEntry key s := by
      rintro ⟨w, rfl⟩
      exact hp ⟨_, rfl⟩
    simp [hp, hno]

theorem tsKeySearchLoop_eq (hkey : (0 : UInt8) ∉ key) (fuel pos : ℕ) (ss : List (List UInt8))
    (tail : List UInt8) (hss : Strings 0 ss) (hf : ss.length < fuel) :
    tsKeySearchLoop key fuel pos (area 0 ss ++ tail) =
      some (flashTsKeySearchLoop key fuel pos (area 0 ss ++ tail)) := by
  induction ss generalizing fuel pos with
  | nil =>
    cases fuel with
    | zero => cases hf
    | succ fuel => rfl
  | cons s ss ih =>
    cases fuel with
    | zero => cases hf
    | succ fuel =>
      obtain ⟨hne, hs⟩ := hss s List.mem_cons_self
      have hl : area 0 (s :: ss) ++ tail = s ++ 0 :: (area 0 ss ++ tail) := by
        rw [area_cons, List.append_assoc, List.cons_append]
      obtain ⟨b, s', rfl⟩ := List.exists_cons_of_ne_nil hne
      have hb : b ≠ 0 := (List.ne_of_not_mem_cons hs).symm
      have hlen : FlashTs.strlen (b :: s' ++ 0 :: (area 0 ss ++ tail)) = (b :: s').length := by
        rw [FlashTs.strlen, takeWhile_terminated 0 hs]
      have hrest : (b :: s' ++ 0 :: (area 0 ss ++ tail)).drop ((b :: s').length + 1) =
          area 0 ss ++ tail := by simp
      have hhead : (b :: s' ++ 0 :: (area 0 ss ++ tail)).head? = some b := rfl
      have hheadD : (b :: s' ++ 0 :: (area 0 ss ++ tail)).headD 0 = b := rfl
      rw [hl, tsKeySearchLoop, flashTsKeySearchLoop, keyMatches_eq hkey hs,
        strlen_terminated hs, hlen, hrest, hhead, hheadD, if_neg hb]
      simp only [Option.bind_eq_bind, Option.bind_some, if_neg hb, match_iff hkey,
        decide_eq_true_eq, Option.pure_def]
      split
      · rfl
      · rw [hrest]
        exact ih fuel _ (fun x hx => hss x (List.mem_cons_of_mem _ hx)) (Nat.lt_of_succ_lt_succ hf)

theorem tsKeySearch_cases {data : Bytes n} {ss : List (List UInt8)} {tail : List UInt8}
    (hkey : (0 : UInt8) ∉ key) (hss : Strings 0 ss) (hdata : data.1 = area 0 ss ++ tail) :
    (∃ xs w ys, ss = xs ++ entry key w :: ys ∧ (0 : UInt8) ∉ entry key w ∧
        (∀ x ∈ xs, ¬IsEntry key x) ∧ tsKeySearch data key = some (some (table 0 xs).length) ∧
        flashTsKeySearch data.1 key = some (table 0 xs).length) ∨
      (∀ x ∈ ss, ¬IsEntry key x) ∧ tsKeySearch data key = some none ∧
        flashTsKeySearch data.1 key = none := by
  have hlt : ss.length < n := by
    have hl := congrArg List.length hdata
    rw [data.2, List.length_append] at hl
    have hs := FlashStrings.strings_length_lt ss
    omega
  have hchecked : tsKeySearch data key = some (flashTsKeySearch data.1 key) := by
    rw [tsKeySearch, flashTsKeySearch, data.2, hdata]
    exact tsKeySearchLoop_eq hkey n 0 ss tail hss hlt
  have hcases := keySearchLoop_eq key hkey n 0 ss tail hss hlt
  have hloop : flashTsKeySearchLoop key n 0 (area 0 ss ++ tail) = flashTsKeySearch data.1 key := by
    rw [flashTsKeySearch, data.2, hdata]
  rw [hloop] at hcases
  obtain ⟨xs, s, ys, rfl, ⟨w, rfl⟩, hxs, hr⟩ | ⟨hno, hr⟩ := hcases
  · rw [Nat.zero_add] at hr
    refine .inl ⟨xs, w, ys, rfl, ?_, hxs, ?_, hr⟩
    · exact (hss _ (List.mem_append_right xs List.mem_cons_self)).2
    · rw [hchecked, hr]
  · exact .inr ⟨hno, by rw [hchecked, hr], hr⟩

theorem value_behind {data : Bytes n} {xs ys : List (List UInt8)} {w tail : List UInt8}
    (hdata : data.1 = area 0 (xs ++ entry key w :: ys) ++ tail) (hw : (0 : UInt8) ∉ entry key w) :
    (0 : UInt8) ∉ w ∧
      ∃ rest, data.1.drop ((table 0 xs).length + key.length + 1) = w ++ 0 :: rest := by
  refine ⟨fun hm => hw (by simp [entry, hm]), area 0 ys ++ tail, ?_⟩
  rw [hdata, area_split, List.append_assoc, Nat.add_assoc, ← List.drop_drop, List.drop_left]
  simp [entry]

end Search

def written (data : Bytes n) (p klen : ℕ) (value : List UInt8) : Bytes n :=
  if value.length ≠ 0 then overwrite data (p + klen + 1) (value ++ [0]) else data

section Replace

variable {data : Bytes n} {a r t key w value : List UInt8} {len : ℕ}

theorem tsWriteValue_of_le {p klen : ℕ}
    (h : value.length ≠ 0 → p + (klen + 1 + value.length + 1) ≤ n) :
    tsWriteValue data p klen value = some (written data p klen value) := by
  unfold tsWriteValue written
  split
  case isTrue h0 =>
    have hle := h h0
    refine store_of_le ?_
    simp only [List.length_append, List.length_singleton]
    omega
  case isFalse => rfl

theorem length_around (hdata : data.1 = a ++ (entry key w ++ 0 :: (r ++ t))) :
    a.length + ((entry key w).length + 1) + r.length + t.length = n := by
  rw [← data.2, hdata]
  simp only [List.length_append, List.length_cons]
  omega

theorem drop_before (hdata : data.1 = a ++ (entry key w ++ 0 :: (r ++ t))) :
    data.1.drop a.length = entry key w ++ 0 :: (r ++ t) := by
  rw [hdata, List.drop_left]

theorem drop_key (hdata : data.1 = a ++ (entry key w ++ 0 :: (r ++ t))) :
    data.1.drop (a.length + key.length + 1) = w ++ 0 :: (r ++ t) := by
  rw [Nat.add_assoc, ← List.drop_drop, drop_before hdata]
  simp [entry]

theorem take_rest (hdata : data.1 = a ++ (entry key w ++ 0 :: (r ++ t))) :
    (data.1.drop (a.length + ((entry key w).length + 1))).take r.length = r := by
  rw [← List.drop_drop, drop_before hdata]
  simp

theorem tsReplace_eq (hdata : data.1 = a ++ (entry key w ++ 0 :: (r ++ t)))
    (hw : (0 : UInt8) ∉ entry key w) (hv : (0 : UInt8) ∉ value)
    (hlen : len = a.length + ((entry key w).length + 1) + r.length) (newLen : ℕ)
    (hnew : newLen = if value.length ≠ 0 then key.length + 1 + value.length + 1 else 0) :
    tsReplace data len a.length key.length value = some (
      if (entry key w).length + 1 ≠ newLen then
        if n < len - ((entry key w).length + 1) + newLen then .noSpace
        else .changed (written (overwrite data (a.length + newLen) r) a.length key.length value)
          (len - ((entry key w).length + 1) + newLen)
      else if w = value then .same
      else .changed (written data a.length key.length value) len) := by
  have hn := length_around hdata
  have hvalue : value.length ≠ 0 → newLen = key.length + 1 + value.length + 1 :=
    fun h0 => hnew.trans (if_pos h0)
  have hcount : len - (a.length + ((entry key w).length + 1)) = r.length := by omega
  have hw' : (0 : UInt8) ∉ w := fun hm => hw (by simp [entry, hm])
  simp only [tsReplace, drop_before hdata, strlen_terminated hw, Option.bind_eq_bind, Option.bind_some, ← hnew,
    Option.pure_def]
  split
  case isTrue hne =>
    rw [sub_of_le (by omega), Option.bind_some]
    split
    case isTrue => rfl
    case isFalse hle =>
      rw [sub_of_le (by omega), Option.bind_some, hcount, load_of_le (by omega), Option.bind_some,
        take_rest hdata, store_of_le (by omega), Option.bind_some,
        tsWriteValue_of_le (fun h0 => by rw [← hvalue h0]; omega), Option.bind_some]
  case isFalse heq =>
    rw [drop_key hdata, strcmp_terminated hw' hv, Option.bind_some,
      tsWriteValue_of_le (fun h0 => by rw [← hvalue h0]; omega), Option.bind_some]
    simp only [decide_eq_true_eq]
    split
    · rfl
    · rfl

theorem written_data (hv : value ≠ []) (htake : data.1.take (a.length + key.length + 1) =
      a ++ (key ++ [equalsSign]))
    (hdrop : data.1.drop (a.length + (key.length + 1 + value.length + 1)) = r ++ t)
    (hle : a.length + (key.length + 1 + value.length + 1) ≤ n) :
    (written data a.length key.length value).1 = a ++ (entry key value ++ 0 :: (r ++ t)) := by
  have hsize : a.length + key.length + 1 + (value ++ [(0 : UInt8)]).length =
      a.length + (key.length + 1 + value.length + 1) := by
    simp only [List.length_append, List.length_singleton]
    omega
  have hv0 : value.length ≠ 0 := fun h0 => hv (List.eq_nil_of_length_eq_zero h0)
  rw [written, if_pos hv0, overwrite_eq _ _ _ (by omega), hsize, htake, hdrop]
  simp [entry]

def Becomes (old new : List UInt8) : Change n → Prop
  | .same => new = old
  | .noSpace => n < new.length
  | .changed data len => new <+: data.1 ∧ len = new.length

theorem tsReplace_removes (hdata : data.1 = a ++ (entry key w ++ 0 :: (r ++ t)))
    (hw : (0 : UInt8) ∉ entry key w)
    (hlen : len = a.length + ((entry key w).length + 1) + r.length) :
    ∃ u, tsReplace data len a.length key.length [] = some u ∧
      Becomes (a ++ (entry key w ++ 0 :: r)) (a ++ r) u := by
  have hn := length_around hdata
  refine ⟨_, tsReplace_eq hdata hw List.not_mem_nil hlen 0 rfl, ?_⟩
  rw [if_pos (Nat.succ_ne_zero _), if_neg (by omega)]
  refine ⟨?_, by rw [List.length_append]; omega⟩
  have hnone : written (overwrite data (a.length + 0) r) a.length key.length [] =
      overwrite data a.length r := rfl
  rw [hnone, overwrite_eq _ _ _ (by omega), hdata, List.take_left, ← List.append_assoc]
  exact List.prefix_append _ _

theorem tsReplace_writes (hdata : data.1 = a ++ (entry key w ++ 0 :: (r ++ t)))
    (hw : (0 : UInt8) ∉ entry key w) (hv : (0 : UInt8) ∉ value) (hnil : value ≠ [])
    (hlen : len = a.length + ((entry key w).length + 1) + r.length) :
    ∃ u, tsReplace data len a.length key.length value = some u ∧
      Becomes (a ++ (entry key w ++ 0 :: r)) (a ++ (entry key value ++ 0 :: r)) u := by
  have hn := length_around hdata
  have hv0 : value.length ≠ 0 := fun h0 => hnil (List.eq_nil_of_length_eq_zero h0)
  have hkey : data.1.take (a.length + key.length + 1) = a ++ (key ++ [equalsSign]) := by
    rw [hdata, Nat.add_assoc, List.take_length_add_append]
    simp [entry, List.take_append]
  have hlength : (a ++ (entry key value ++ 0 :: r)).length =
      a.length + (key.length + 1 + value.length + 1) + r.length := by
    simp only [List.length_append, List.length_cons, length_entry]
    omega
  have hfront (t' : List UInt8) :
      a ++ (entry key value ++ 0 :: r) <+: a ++ (entry key value ++ 0 :: (r ++ t')) :=
    ⟨t', by simp⟩
  refine ⟨_, tsReplace_eq hdata hw hv hlen _ (if_pos hv0).symm, ?_⟩
  split
  case isTrue hne =>
    split
    case isTrue hbig =>
      change n < _
      omega
    case isFalse hle =>
      obtain ⟨htake, t', hdrop⟩ := move_data
        (p := a.length + (key.length + 1 + value.length + 1)) data (a := r) (by omega)
      refine ⟨?_, by omega⟩
      rw [written_data hnil ?_ hdrop (by omega)]
      · exact hfront t'
      · have hmin : a.length + key.length + 1 = min (a.length + key.length + 1)
            (a.length + (key.length + 1 + value.length + 1)) := by omega
        rw [hmin, ← List.take_take, htake, List.take_take, ← hmin, hkey]
  case isFalse heq =>
    split
    case isTrue hsame => exact congrArg (fun v => a ++ (entry key v ++ 0 :: r)) hsame.symm
    case isFalse =>
      have hdrop : data.1.drop (a.length + (key.length + 1 + value.length + 1)) = r ++ t := by
        rw [← not_not.mp heq, ← List.drop_drop, hdata, List.drop_left]
        simp
      refine ⟨?_, by omega⟩
      rw [written_data hnil hkey hdrop (by omega)]
      exact hfront t

end Replace

variable {len : ℕ}

theorem tsAppend_eq (hpos : 0 < len) (key value : List UInt8) :
    tsAppend data len key value = some (
      if value.length = 0 then .same
      else if n < len + (key.length + 1 + value.length + 1) then .noSpace
      else .changed (overwrite data (len - 1) (key ++ equalsSign :: (value ++ [0, 0])))
        (len + (key.length + 1 + value.length + 1))) := by
  have hsize : (key ++ equalsSign :: (value ++ [0, 0])).length =
      key.length + 1 + value.length + 1 + 1 := by
    simp only [List.length_append, List.length_cons, List.length_nil]
    omega
  simp only [tsAppend, Option.pure_def, Option.bind_eq_bind]
  split
  · rfl
  · split
    · rfl
    · rw [sub_of_le hpos, Option.bind_some, store_of_le (by omega), Option.bind_some]

theorem tsAppend_spec (data : Bytes n) (hpos : 0 < len) (hle : len ≤ n) (key : List UInt8)
    {value : List UInt8} (hnil : value ≠ []) :
    ∃ u, tsAppend data len key value = some u ∧
      Becomes (data.1.take len) (data.1.take (len - 1) ++ (entry key value ++ [0, 0])) u := by
  have hv0 : value.length ≠ 0 := fun h0 => hnil (List.eq_nil_of_length_eq_zero h0)
  have htake : (data.1.take (len - 1)).length = len - 1 := by
    rw [List.length_take, data.2]
    omega
  have hbytes : key ++ equalsSign :: (value ++ [0, 0]) = entry key value ++ [0, 0] := by simp [entry]
  have hlength : (data.1.take (len - 1) ++ (entry key value ++ [0, 0])).length =
      len + (key.length + 1 + value.length + 1) := by
    simp only [List.length_append, htake, length_entry, List.length_cons, List.length_nil]
    omega
  refine ⟨_, tsAppend_eq hpos key value, ?_⟩
  rw [if_neg hv0, hbytes]
  split
  case isTrue hbig =>
    change n < _
    omega
  case isFalse hfits =>
    refine ⟨?_, hlength.symm⟩
    rw [List.length_append, htake] at hlength
    rw [overwrite_eq _ _ _ (by omega)]
    exact (List.prefix_append_right_inj _).mpr (List.prefix_append _ _)

def Holds (data : Bytes n) (len : ℕ) : Prop :=
  ∃ ss junk t, Strings 0 ss ∧ data.1 = area 0 ss ++ (junk ++ t) ∧ len = (area 0 ss ++ junk).length

theorem Holds.pos (h : Holds data len) : 0 < len := by
  obtain ⟨ss, junk, t, -, -, rfl⟩ := h
  have hpos := List.length_pos_of_ne_nil (closes_area (z := (0 : UInt8)) ss).ne_nil
  rw [List.length_append]
  omega

theorem Holds.le (h : Holds data len) : len ≤ n := by
  obtain ⟨ss, junk, t, -, hdata, rfl⟩ := h
  rw [← data.2, hdata, ← List.append_assoc]
  exact (List.prefix_append _ t).length_le

theorem holds_iff : Holds data len ↔ len ≤ n ∧ ∃ k ≤ len, Closes 0 (data.1.take k) := by
  constructor
  · intro h
    refine ⟨h.le, ?_⟩
    obtain ⟨ss, junk, t, -, hdata, rfl⟩ := h
    refine ⟨(area 0 ss).length, by simp, ?_⟩
    rw [hdata, List.take_left]
    exact closes_area ss
  · rintro ⟨hle, k, hk, hclose⟩
    obtain ⟨ss, junk, harea, hss⟩ := hclose.exists_area
    have hlen : (data.1.take len).length = len := by
      rw [List.length_take, data.2]
      omega
    have hfront : area 0 ss <+: data.1.take len :=
      (harea ▸ List.prefix_append (area 0 ss) junk).trans (List.take_prefix_take_left hk)
    obtain ⟨junk', hjunk⟩ := hfront
    refine ⟨ss, junk', data.1.drop len, hss, ?_, ?_⟩
    · rw [← List.append_assoc, hjunk, List.take_append_drop]
    · rw [hjunk, hlen]

theorem Becomes.take {old new : List UInt8} {d : Bytes n} {l : ℕ}
    (h : Becomes old new (.changed d l)) : d.1.take l = new := by
  obtain ⟨hfront, rfl⟩ := h
  exact (List.prefix_iff_eq_take.mp hfront).symm

theorem Becomes.holds {old new junk : List UInt8} {d : Bytes n} {l : ℕ} {ss : List (List UInt8)}
    (h : Becomes old new (.changed d l)) (hnew : new = area 0 ss ++ junk) (hss : Strings 0 ss) :
    Holds d l := by
  obtain ⟨⟨t, ht⟩, rfl⟩ := h
  refine ⟨ss, junk, t, hss, ?_, congrArg List.length hnew⟩
  rw [← ht, hnew, List.append_assoc]

section Update

variable {data : Bytes n} {len : ℕ} {key value : List UInt8}

theorem tsReplace_holds {xs ys : List (List UInt8)} {w junk t : List UInt8}
    (hss : Strings 0 (xs ++ entry key w :: ys)) (hkey : (0 : UInt8) ∉ key)
    (hvalue : (0 : UInt8) ∉ value)
    (hdata : data.1 = area 0 (xs ++ entry key w :: ys) ++ (junk ++ t))
    (hlen : len = (area 0 (xs ++ entry key w :: ys) ++ junk).length) :
    ∃ u new, tsReplace data len (table 0 xs).length key.length value = some u ∧
      Becomes (area 0 (xs ++ entry key w :: ys) ++ junk) new u ∧
      (∃ ss junk, new = area 0 ss ++ junk ∧ Strings 0 ss) ∧
      (Closes 0 (area 0 (xs ++ entry key w :: ys) ++ junk) → Closes 0 new) := by
  obtain ⟨hxs, hys⟩ := List.forall_mem_append.mp hss
  obtain ⟨hw, hys⟩ := List.forall_mem_cons.mp hys
  have hne : area 0 ys ++ junk ≠ [] := List.append_ne_nil_of_left_ne_nil (closes_area ys).ne_nil _
  have hold : area 0 (xs ++ entry key w :: ys) ++ junk =
      table 0 xs ++ (entry key w ++ 0 :: (area 0 ys ++ junk)) := by simp [area_split]
  have hsplit : data.1 = table 0 xs ++ (entry key w ++ 0 :: ((area 0 ys ++ junk) ++ t)) := by
    rw [hdata, ← List.append_assoc, hold]
    simp
  have hlen' : len = (table 0 xs).length + ((entry key w).length + 1) +
      (area 0 ys ++ junk).length := by
    rw [hlen, hold]
    simp only [List.length_append, List.length_cons]
    omega
  have hrest : Closes 0 (area 0 (xs ++ entry key w :: ys) ++ junk) →
      Closes 0 (area 0 ys ++ junk) := by
    rw [hold, ← List.append_assoc]
    exact (closes_behind _ hne).mp
  rw [hold] at hrest ⊢
  by_cases hnil : value = []
  · subst hnil
    obtain ⟨u, hu, hbec⟩ := tsReplace_removes hsplit hw.2 hlen'
    refine ⟨u, _, hu, hbec, ⟨xs ++ ys, junk, by simp [area, table_append], ?_⟩, fun hc => ?_⟩
    · exact List.forall_mem_append.mpr ⟨hxs, hys⟩
    · exact closes_table_append xs (hrest hc)
  · obtain ⟨u, hu, hbec⟩ := tsReplace_writes hsplit hw.2 hvalue hnil hlen'
    have hentry := string_entry hkey hvalue
    refine ⟨u, _, hu, hbec, ⟨xs ++ entry key value :: ys, junk, by simp [area_split], ?_⟩,
      fun hc => ?_⟩
    · exact List.forall_mem_append.mpr ⟨hxs, List.forall_mem_cons.mpr ⟨hentry, hys⟩⟩
    · rw [← List.append_assoc]
      exact (closes_behind _ hne).mpr (hrest hc)

theorem tsUpdate_holds (h : Holds data len) (hkey : (0 : UInt8) ∉ key)
    (hvalue : (0 : UInt8) ∉ value) :
    ∃ u new, tsUpdate data len key value = some u ∧ Becomes (data.1.take len) new u ∧
      (∃ ss junk, new = area 0 ss ++ junk ∧ Strings 0 ss) ∧
      (Closes 0 (data.1.take len) → Closes 0 new) := by
  have hpos := h.pos
  have hle := h.le
  obtain ⟨ss, junk, t, hss, hdata, hlen⟩ := h
  have htake : data.1.take len = area 0 ss ++ junk := by
    rw [hdata, ← List.append_assoc, hlen, List.take_left]
  obtain ⟨xs, w, ys, rfl, -, -, hr, -⟩ | ⟨-, hr, -⟩ := tsKeySearch_cases hkey hss hdata
  · simp only [tsUpdate, hr, Option.bind_eq_bind, Option.bind_some]
    rw [htake]
    exact tsReplace_holds hss hkey hvalue hdata hlen
  · simp only [tsUpdate, hr, Option.bind_eq_bind, Option.bind_some]
    by_cases hnil : value = []
    · subst hnil
      refine ⟨.same, _, tsAppend_eq hpos key [], rfl, ⟨ss, junk, htake, hss⟩, id⟩
    · obtain ⟨u, hu, hbec⟩ := tsAppend_spec data hpos hle key hnil
      have hclose : Closes 0 (data.1.take (len - 1) ++ (entry key value ++ [0, 0])) := by
        refine ⟨0 :: (data.1.take (len - 1) ++ entry key value), ?_⟩
        simp
      exact ⟨u, _, hu, hbec, hclose.exists_area, fun _ => hclose⟩

end Update

end SynaBoot.TsArea
