import SynaBoot.FlashBounds

namespace SynaBoot.FlashGet

open SynaBoot.PowerCut SynaBoot.FlashDevice SynaBoot.FlashRecord SynaBoot.FlashTs
open SynaBoot.FlashScan SynaBoot.FlashStrings SynaBoot.FlashCommit SynaBoot.FlashDurable
open SynaBoot.FlashSets SynaBoot.FlashMap SynaBoot.FlashBounds
open SynaBoot.StringArea SynaBoot.TsArea

/- Numbers of `ctype.c`, read from a memory that ends: `none` is a read past its end. -/

def isdigit (c : UInt8) : Bool := 0x30 ≤ c && c ≤ 0x39
def islower (c : UInt8) : Bool := 0x61 ≤ c && c ≤ 0x7a

def isxdigit (c : UInt8) : Bool :=
  isdigit c || 0x61 ≤ c && c ≤ 0x66 || 0x41 ≤ c && c ≤ 0x46

def digitValue (c : UInt8) : ℕ :=
  if isdigit c then c.toNat - 0x30 else if islower c then c.toNat - 0x20 - 0x41 + 10
  else c.toNat - 0x41 + 10

def isDigitOf (base : ℕ) (c : UInt8) : Bool := isxdigit c && decide (digitValue c < base)

def str2ulLoop (w : SizeT) (base : ℕ) : ℕ → List UInt8 → Option ℕ
  | _, [] => none
  | ret, c :: l =>
    if isDigitOf base c then str2ulLoop w base ((ret * base + digitValue c) % w.modulus) l
    else some ret

/-- Base 0; an `unsigned long` is as wide as a `size_t`. -/
def str2ul (w : SizeT) : List UInt8 → Option ℕ
  | [] => none
  | c :: l =>
    if c ≠ 0x30 then str2ulLoop w 10 0 (c :: l)
    else
      match l with
      | [] => none
      | x :: l =>
        if x ≠ 0x78 then str2ulLoop w 8 0 (x :: l)
        else
          match l with
          | [] => none
          | d :: l => if isxdigit d then str2ulLoop w 16 0 (d :: l) else str2ulLoop w 8 0 (x :: d :: l)

def flashTsGetInt (w : SizeT) (ts : Priv) (key : CString) (defaultValue : Int) (value : Bytes 16) :
    Option Int :=
  let value := flashTsGet ts key value.1
  if value.headD 0 = 0 then some defaultValue
  else (str2ul w value).map fun n : ℕ => Int.bmod (n : Int) (2 ^ 32)

def stored (c : FlashTs) (key : List UInt8) : List UInt8 :=
  match (strings 0 c.data.1).find? (fun s => decide (IsEntry key s)) with
  | some s => s.drop (key.length + 1)
  | none => []

inductive Reached (g : Geometry) : Flash → Priv → Prop
  | init {rd : Nat → Nat → Outcome} {old : Bytes flashTsMaxDataSize} {f f' : Flash} {res : Int}
      {ts : Priv} (hret : flashTsInit g rd old f = .ret (res, some ts) f') : Reached g f' ts
  | set {f f' : Flash} {ts ts' : Priv} {fate : Nat → Fate} {key value : CString} {res : Int}
      (hrun : Reached g f ts) (hret : flashTsSet g fate key value ts f = .ret (res, ts') f') :
      Reached g f' ts'

def IsNumeral (l : List UInt8) : Prop :=
  if l.head? ≠ some 0x30 then ∀ c ∈ l, isDigitOf 10 c = true
  else if l.tail.head? ≠ some 0x78 then ∀ c ∈ l.tail, isDigitOf 8 c = true
  else ∀ c ∈ l.tail.tail, isDigitOf 16 c = true

section Numbers

theorem str2ulLoop_none (w : SizeT) (base ret : ℕ) (l : List UInt8) :
    str2ulLoop w base ret l = none ↔ ∀ c ∈ l, isDigitOf base c = true := by
  induction l generalizing ret with
  | nil => simp [str2ulLoop]
  | cons c l ih =>
    rw [str2ulLoop, List.forall_mem_cons]
    split
    case isTrue hc =>
      rw [ih]
      exact ⟨fun h => ⟨hc, h⟩, fun h => h.2⟩
    case isFalse hc =>
      exact ⟨fun h => (by cases h), fun h => absurd h.1 hc⟩

theorem str2ul_none (w : SizeT) (l : List UInt8) : str2ul w l = none ↔ IsNumeral l := by
  cases l with
  | nil => simp [str2ul, IsNumeral]
  | cons c l =>
    simp only [str2ul, IsNumeral, List.head?_cons, List.tail_cons, ne_eq, Option.some.injEq]
    split
    case isTrue => exact str2ulLoop_none w 10 0 (c :: l)
    case isFalse =>
      cases l with
      | nil => simp
      | cons x l =>
        simp only [List.head?_cons, List.tail_cons, Option.some.injEq]
        split
        case isTrue => exact str2ulLoop_none w 8 0 (x :: l)
        case isFalse hx =>
          cases l with
          | nil => simp
          | cons d l =>
            -- without a digit behind the `x` the parser stops at the `x`
            dsimp only
            split
            case isTrue => exact str2ulLoop_none w 16 0 (d :: l)
            case isFalse hd =>
              have hstop : isDigitOf 8 x = false := by
                rw [not_not.mp hx]
                decide
              refine ⟨fun h => ?_, fun h => absurd (h d List.mem_cons_self) ?_⟩
              · have hall := (str2ulLoop_none w 8 0 (x :: d :: l)).mp h x List.mem_cons_self
                rw [hstop] at hall
                cases hall
              · simp [isDigitOf, hd]

theorem not_digit_zero (base : ℕ) : ¬isDigitOf base 0 = true := by
  have h0 : isxdigit 0 = false := by decide
  simp [isDigitOf, h0]

theorem IsNumeral.no_zero {l : List UInt8} (h : IsNumeral l) : (0 : UInt8) ∉ l := by
  unfold IsNumeral at h
  intro hmem
  split at h
  case isTrue => exact not_digit_zero 10 (h 0 hmem)
  case isFalse hc =>
    obtain ⟨l, rfl⟩ := List.head?_eq_some_iff.mp (not_not.mp hc)
    have hl : (0 : UInt8) ∈ l := (List.mem_cons.mp hmem).resolve_left (by decide)
    rw [List.tail_cons] at h
    split at h
    case isTrue => exact not_digit_zero 8 (h 0 hl)
    case isFalse hx =>
      obtain ⟨l, rfl⟩ := List.head?_eq_some_iff.mp (not_not.mp hx)
      exact not_digit_zero 16 (h 0 ((List.mem_cons.mp hl).resolve_left (by decide)))

end Numbers

section Stores

variable {g : Geometry} {f : Flash} {ts : Priv}

theorem Reached.closed (h : Reached g f ts) : Closed ts.cache := by
  induction h with
  | init hret => exact closed_of_init hret
  | set hrun hret ih => exact flashTsSet_closed ih hret

theorem crc_fill {c : FlashTs} (h : Closed c) :
    (fillUnused (nextVersion c)).crc = flashTsCrc (fillUnused (nextVersion c)) :=
  crc_congr rfl rfl (contents_fillUnused (c := nextVersion c) h.le).symm

theorem Reached.sealed (h : Reached g f ts) : ts.cache.crc = flashTsCrc ts.cache := by
  induction h with
  | @init rd old f f' res ts hret =>
    obtain ⟨-, -, -, gb, -, hloop⟩ := scan_of_init hret
    exact (scanLoop_sealed hloop ⟨rfl, (sound_emptyCache old).crc⟩).2
  | set hrun hret ih =>
    exact flashTsSet_cache (P := fun c => c.crc = flashTsCrc c) ih
      (fun _ hu => crc_fill (hrun.closed.update hu)) hret

theorem get_cases (h : Reached g f ts) (key : CString) (buf : List UInt8) :
    (0 : UInt8) ∉ stored ts.cache key.1 ∧
      (flashTsGet ts key buf = (stored ts.cache key.1).take buf.length ++
          List.replicate (buf.length - ((stored ts.cache key.1).take buf.length).length) 0 ∨
        stored ts.cache key.1 = [] ∧ flashTsGet ts key buf = buf.set 0 0) := by
  obtain ⟨ss, junk, t, hss, hdata, -⟩ := h.closed.holds
  have hstrings : strings 0 ts.cache.data.1 = ss := by rw [hdata, strings_area hss]
  obtain ⟨xs, v, ys, rfl, hv, hxs, -, hr⟩ | ⟨hno, -, hr⟩ := tsKeySearch_cases key.2 hss hdata
  · obtain ⟨hv0, rest, htext⟩ := value_behind hdata hv
    have hentry : decide (IsEntry key.1 (entry key.1 v)) = true := decide_eq_true ⟨v, rfl⟩
    have hfind : (xs ++ entry key.1 v :: ys).find? (fun s => decide (IsEntry key.1 s)) =
        some (entry key.1 v) := by
      rw [List.find?_append, List.find?_eq_none.mpr (by simpa using hxs), Option.none_or]
      exact List.find?_cons_of_pos hentry
    have hvalue : stored ts.cache key.1 = v := by
      simp only [stored, hstrings, hfind]
      simp [entry]
    rw [hvalue]
    refine ⟨hv0, .inl ?_⟩
    simp only [flashTsGet, if_neg (not_not.mpr h.sealed), hr, strncpy, htext,
      takeWhile_terminated 0 hv0, List.length_set]
  · have hfind : ss.find? (fun s => decide (IsEntry key.1 s)) = none :=
      List.find?_eq_none.mpr (by simpa using hno)
    have hvalue : stored ts.cache key.1 = [] := by simp only [stored, hstrings, hfind]
    rw [hvalue]
    refine ⟨List.not_mem_nil, .inr ⟨rfl, ?_⟩⟩
    simp only [flashTsGet, if_neg (not_not.mpr h.sealed), hr]

def HoldsText (buf text : List UInt8) : Prop :=
  ∃ i < buf.length, buf[i]? = some 0 ∧ buf.take i = text.take (buf.length - 1)

theorem length_get (h : Reached g f ts) (key : CString) (buf : List UInt8) :
    (flashTsGet ts key buf).length = buf.length := by
  obtain ⟨-, hget | ⟨-, hget⟩⟩ := get_cases h key buf
  · rw [hget]
    simp only [List.length_append, List.length_take, List.length_replicate]
    omega
  · rw [hget, List.length_set]

theorem holdsText_of_lt (h : Reached g f ts) (key : CString) {buf : List UInt8}
    (hlt : (stored ts.cache key.1).length < buf.length) :
    HoldsText (flashTsGet ts key buf) (stored ts.cache key.1) := by
  have hlen := length_get h key buf
  refine ⟨(stored ts.cache key.1).length, by omega, ?_⟩
  obtain ⟨-, hget | ⟨hnil, hget⟩⟩ := get_cases h key buf
  · rw [hlen, hget, List.take_of_length_le hlt.le, List.take_of_length_le (by omega : _ ≤ _ - 1)]
    refine ⟨?_, List.take_left⟩
    rw [List.getElem?_append_right le_rfl, Nat.sub_self, List.getElem?_replicate,
      if_pos (Nat.sub_pos_of_lt hlt)]
  · rw [hnil] at hlt ⊢
    rw [hget]
    refine ⟨?_, by simp⟩
    exact List.getElem?_set_self hlt

theorem get_of_le (h : Reached g f ts) (key : CString) {buf : List UInt8} (hne : buf ≠ [])
    (hle : buf.length ≤ (stored ts.cache key.1).length) :
    flashTsGet ts key buf = (stored ts.cache key.1).take buf.length := by
  obtain ⟨-, hget | ⟨hnil, -⟩⟩ := get_cases h key buf
  · rw [hget, List.length_take, Nat.min_eq_left hle, Nat.sub_self, List.replicate_zero,
      List.append_nil]
  · rw [hnil] at hle
    exact absurd (List.eq_nil_of_length_eq_zero (Nat.le_zero.mp hle)) hne

theorem holdsText_iff (h : Reached g f ts) (key : CString) (buf : List UInt8) (hne : buf ≠ []) :
    HoldsText (flashTsGet ts key buf) (stored ts.cache key.1) ↔
      (stored ts.cache key.1).length < buf.length := by
  refine ⟨fun htext => ?_, holdsText_of_lt h key⟩
  by_contra hle
  obtain ⟨i, -, hi, -⟩ := htext
  rw [get_of_le h key hne (not_lt.mp hle)] at hi
  exact (get_cases h key buf).1 (List.mem_of_mem_take (List.mem_of_getElem? hi))

theorem getInt_none_iff (w : SizeT) (h : Reached g f ts) (key : CString) (defaultValue : Int)
    (buf : Bytes 16) : flashTsGetInt w ts key defaultValue buf = none ↔
      16 ≤ (stored ts.cache key.1).length ∧ IsNumeral ((stored ts.cache key.1).take 16) := by
  have hne : buf.1 ≠ [] := fun hnil => absurd (hnil ▸ buf.2) (by decide)
  have hno := (get_cases h key buf.1).1
  by_cases hle : 16 ≤ (stored ts.cache key.1).length
  · have hget := get_of_le h key hne (buf.2.trans_le hle)
    rw [buf.2] at hget
    obtain ⟨c, v, hv⟩ := List.exists_cons_of_length_pos (Nat.lt_of_lt_of_le (by decide) hle)
    have hhead : ((stored ts.cache key.1).take 16).headD 0 ≠ 0 := by
      rw [hv] at hno ⊢
      exact (List.ne_of_not_mem_cons hno).symm
    simp only [flashTsGetInt, hget, if_neg hhead, Option.map_eq_none_iff, str2ul_none, hle, true_and]
  · -- the terminator in the buffer stops the parser
    obtain ⟨i, -, hi, -⟩ := (holdsText_iff h key buf.1 hne).mpr (by rw [buf.2]; omega)
    have hzero : (0 : UInt8) ∈ flashTsGet ts key buf.1 := List.mem_of_getElem? hi
    refine ⟨fun hnone => ?_, fun hc => absurd hc.1 hle⟩
    simp only [flashTsGetInt] at hnone
    split at hnone
    case isTrue => cases hnone
    case isFalse =>
      rw [Option.map_eq_none_iff, str2ul_none] at hnone
      exact absurd hzero hnone.no_zero

/-- A get leaves a string exactly if the value is shorter than the buffer. -/
theorem get_string_iff (w : SizeT) (h : Reached g f ts) (key : CString) (buf : List UInt8)
    (hsize : 1 ≤ buf.length) (defaultValue : Int) (buf16 : Bytes 16) :
    (HoldsText (flashTsGet ts key buf) (stored ts.cache key.1) ↔
        (stored ts.cache key.1).length < buf.length) ∧
      (flashTsGetInt w ts key defaultValue buf16 = none ↔
        16 ≤ (stored ts.cache key.1).length ∧ IsNumeral ((stored ts.cache key.1).take 16)) :=
  ⟨holdsText_iff h key buf (List.ne_nil_of_length_pos hsize),
    getInt_none_iff w h key defaultValue buf16⟩

end Stores

def sixteen : CString := ⟨[49, 50, 51, 52, 53, 54, 55, 56, 57, 48, 49, 50, 51, 52, 53, 54], by decide⟩

theorem reached_first_set (value : CString) (hne : value.1 ≠ [])
    (hle : value.1.length ≤ 1000) :
    ∃ f ts, Reached twoBlocks f ts ∧ stored ts.cache keyA.1 = value.1 := by
  have hempty : Sound (emptyPriv twoBlocks zeroBytes).cache [] := sound_emptyCache zeroBytes
  have hput : put keyA.1 value.1 [] = [entry keyA.1 value.1] := by rw [put, if_neg hne]
  obtain ⟨r, hr⟩ : ∃ r, attempt (emptyPriv twoBlocks zeroBytes) keyA value = some r := by
    refine attempt_of_put hempty (by rw [hput]; exact List.cons_ne_nil _ _) ?_
    rw [hput, area_cons, List.length_append, List.length_cons, length_entry, area_nil]
    simp only [List.length_cons, List.length_nil, keyA, flashTsMaxDataSize, flashTsMaxSize,
      flashTsHdrSize]
    omega
  obtain ⟨f, hset, -, -⟩ := set_ok usable_twoBlocks (by decide) hempty hr offset_twoBlocks (s := 0)
    (by decide) (good_twoBlocks (by decide)) blankFlash
  have hs := (attempt_spec hempty hr).1
  rw [hput] at hs
  refine ⟨f, _, .set (.init init_twoBlocks) hset, ?_⟩
  have hdata : strings 0 r.data.1 = [entry keyA.1 value.1] := by
    rw [hs.represents.data, strings_area hs.represents.strings]
  have hentry : decide (IsEntry keyA.1 (entry keyA.1 value.1)) = true := decide_eq_true ⟨_, rfl⟩
  have hfind : [entry keyA.1 value.1].find? (fun s => decide (IsEntry keyA.1 s)) =
      some (entry keyA.1 value.1) := List.find?_cons_of_pos hentry
  simp only [stored, hdata, hfind]
  simp [entry]

def buf16 : Bytes 16 := ⟨List.replicate 16 0, rfl⟩

theorem get_string_one : ∃ f ts, Reached twoBlocks f ts ∧ stored ts.cache keyA.1 = [49] ∧
    HoldsText (flashTsGet ts keyA [7, 7]) [49] := by
  obtain ⟨f, ts, hrun, hvalue⟩ := reached_first_set valueOne (by decide) (by decide)
  have hiff := (get_string_iff .bits32 hrun keyA [7, 7] (by decide) 0 buf16).1
  rw [hvalue] at hiff
  exact ⟨f, ts, hrun, hvalue, hiff.mpr (by decide)⟩

theorem get_int_overruns : ∃ f ts, Reached twoBlocks f ts ∧ stored ts.cache keyA.1 = sixteen.1 ∧
    ¬HoldsText (flashTsGet ts keyA buf16.1) sixteen.1 ∧
      flashTsGetInt .bits64 ts keyA 0 buf16 = none := by
  obtain ⟨f, ts, hrun, hvalue⟩ := reached_first_set sixteen (by decide) (by decide)
  have htext := holdsText_iff hrun keyA buf16.1 (by decide)
  have hint := getInt_none_iff .bits64 hrun keyA 0 buf16
  rw [hvalue] at htext hint
  refine ⟨f, ts, hrun, hvalue, fun hc => absurd (htext.mp hc) (by decide), hint.mpr ⟨by decide, ?_⟩⟩
  exact (str2ul_none .bits64 _).mp (by decide +kernel)

end SynaBoot.FlashGet
