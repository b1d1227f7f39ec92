import Mathlib.Data.List.TakeWhile
import SynaBoot.PartTool

namespace SynaBoot.PartLayout

open SynaBoot.CText SynaBoot.PartTool

variable {blockSize chipSize : Int} {k : Nat} {e e' : TableEntry}

def InInt (x : Int) : Prop := -2 ^ 31 ≤ x ∧ x < 2 ^ 31
  deriving Decidable

def plain (text : List Char) : Int := number (text.dropWhile isSpace)

def value (blockSize : Int) (text : List Char) : Int :=
  match text.getLast? with
  | some 'B' | some 'b' => plain text.dropLast * blockSize
  | some 'M' | some 'm' => plain text.dropLast * 2 ^ 20
  | some 'K' | some 'k' => plain text.dropLast * 1024
  | _ => plain text

/-- The numbers and their `int` products do not overflow. -/
def NoOverflow (blockSize : Int) (text : List Char) : Prop :=
  match text.getLast? with
  | some 'B' | some 'b' => InInt (plain text.dropLast) ∧ InInt (plain text.dropLast * blockSize)
  | some 'M' | some 'm' => InInt (plain text.dropLast)
  | some 'K' | some 'k' => InInt (plain text.dropLast) ∧ InInt (plain text.dropLast * 1024)
  | _ => InInt (plain text)

instance (text : List Char) : Decidable (NoOverflow blockSize text) := by
  unfold NoOverflow
  split <;> infer_instance

variable {text : List Char}

theorem atoi_of_inInt (h : InInt (plain text)) : atoi text = plain text :=
  int32_of_range h

theorem value_range (h : NoOverflow blockSize text) :
    -2 ^ 51 ≤ value blockSize text ∧ value blockSize text < 2 ^ 51 := by
  unfold NoOverflow at h
  unfold value
  split at h
  all_goals unfold InInt at h; omega

theorem amount_eq (h : NoOverflow blockSize text) :
    amount blockSize text = uint64 (value blockSize text) := by
  have hm (x : Int) : x * 1024 * 1024 = x * 2 ^ 20 := by omega
  unfold NoOverflow at h
  unfold amount value
  generalize text.getLast? = last at h ⊢
  split at h
  · simp only [atoi_of_inInt h.1, int32_of_range h.2]
  · simp only [atoi_of_inInt h.1, int32_of_range h.2]
  · simp only [atoi_of_inInt h, hm]
  · simp only [atoi_of_inInt h, hm]
  · simp only [atoi_of_inInt h.1, int32_of_range h.2]
  · simp only [atoi_of_inInt h.1, int32_of_range h.2]
  · simp only [atoi_of_inInt h]

theorem dvd_of_aligned (hk : blockSize = 2 ^ k) {x : Nat} (h : unaligned blockSize x = false) :
    blockSize ∣ x := by
  have hm : (blockSize - 1).toNat = 2 ^ k - 1 := by
    have : (2 : Int) ^ k = ((2 ^ k : Nat) : Int) := by push_cast; rfl
    rw [hk, this]
    omega
  have hx : x % 2 ^ k = 0 := by
    rw [← Nat.and_two_pow_sub_one_eq_mod, ← hm]
    simpa [unaligned] using h
  rw [hk]
  exact_mod_cast Nat.dvd_of_mod_eq_zero hx

theorem dvd_of_dvd_uint64 (hk : blockSize = 2 ^ k) (hlt : blockSize < 2 ^ 31) {x : Int}
    (h : blockSize ∣ (uint64 x : Int)) : blockSize ∣ x := by
  have hk' : k ≤ 64 := by
    by_contra hc
    have : (2 : Int) ^ 64 ≤ 2 ^ k := pow_le_pow_right₀ (by decide) (by omega)
    omega
  have hd : blockSize ∣ 2 ^ 64 := hk ▸ pow_dvd_pow 2 hk'
  rw [uint64_cast] at h
  exact (EuclideanDomain.dvd_mod_iff hd).mp h

def size (blockSize : Int) (layout : List Char) : Int := value blockSize (layoutSize layout)
def pos (blockSize : Int) (layout : List Char) : Int := value blockSize (layoutPos layout)

def InRange (blockSize : Int) (layout : List Char) : Prop :=
  NoOverflow blockSize (layoutSize layout) ∧ NoOverflow blockSize (layoutPos layout)
  deriving Decidable

structure Recorded (blockSize : Int) (e : TableEntry) : Prop where
  size_eq : e.size = uint64 (size blockSize e.layout)
  size_dvd : blockSize ∣ e.size
  start_eq : pos blockSize e.layout ≠ 0 → e.start = pos blockSize e.layout
  pos_dvd : blockSize ∣ pos blockSize e.layout

theorem parseLayout_spec (hk : blockSize = 2 ^ k) (hlt : blockSize < 2 ^ 31)
    (hr : InRange blockSize e.layout) (h : parseLayout blockSize e = some e') :
    e'.layout = e.layout ∧ Recorded blockSize e' ∧ e'.start = pos blockSize e.layout := by
  have hp : (if '@' ∈ e.layout then amount blockSize (layoutPos e.layout) else 0) =
      uint64 (pos blockSize e.layout) := by
    split
    case isTrue => exact amount_eq hr.2
    case isFalse hc =>
      have hn : layoutPos e.layout = [] := by
        unfold layoutPos
        rw [List.dropWhile_eq_nil_iff.mpr]
        · rfl
        · intro c hce
          simpa using fun hca : c = '@' => hc (hca ▸ hce)
      rw [pos, hn]
      rfl
  have hs : int64 (uint64 (pos blockSize e.layout)) = pos blockSize e.layout := by
    have := value_range hr.2
    rw [int64_uint64]
    exact int64_of_range ⟨by unfold pos; omega, by unfold pos; omega⟩
  unfold parseLayout at h
  rw [hp, amount_eq hr.1] at h
  dsimp only at h
  split at h
  case isTrue => simp at h
  case isFalse hu =>
    simp only [Bool.or_eq_true, not_or, Bool.not_eq_true] at hu
    rw [hs] at h
    obtain rfl := Option.some.inj h
    refine ⟨rfl, ⟨rfl, dvd_of_aligned hk hu.2, fun _ => rfl, ?_⟩, rfl⟩
    exact dvd_of_dvd_uint64 hk hlt (dvd_of_aligned hk hu.1)

theorem parseLayout_layout (h : parseLayout blockSize e = some e') : e'.layout = e.layout := by
  simp only [parseLayout, Option.ite_none_left_eq_some, Option.some.injEq] at h
  obtain ⟨-, rfl⟩ := h
  rfl

def setStart (p : Int) (e : TableEntry) : TableEntry :=
  if e.start = 0 then { e with start := p } else e

@[simp]
theorem setStart_layout (p : Int) : (setStart p e).layout = e.layout := by
  unfold setStart
  split <;> rfl

@[simp]
theorem setStart_size (p : Int) : (setStart p e).size = e.size := by
  unfold setStart
  split <;> rfl

inductive Forward (blockSize chipSize : Int) : List TableEntry → Int → Prop where
  | nil : Forward blockSize chipSize [] 0
  | snoc {es : List TableEntry} {p : Int} {e e' : TableEntry} (hf : Forward blockSize chipSize es p)
      (hd : e.layout ≠ ['-']) (hp : parseLayout blockSize e = some e')
      (hc : int64 ((setStart p e').start + e'.size) ≤ chipSize) :
      Forward blockSize chipSize (es ++ [setStart p e']) (int64 ((setStart p e').start + e'.size))

inductive Backward (blockSize chipSize : Int) : List TableEntry → Int → Prop where
  | nil : Backward blockSize chipSize [] chipSize
  | cons {es : List TableEntry} {p : Int} {e e' : TableEntry}
      (hb : Backward blockSize chipSize es p) (hp : parseLayout blockSize e = some e') :
      Backward blockSize chipSize (setStart (int64 (p - e'.size)) e' :: es) (int64 (p - e'.size))

inductive Scanned (blockSize chipSize : Int) : Scan → Prop where
  | front {es : List TableEntry} {p : Int} (hf : Forward blockSize chipSize es p) :
      Scanned blockSize chipSize ⟨es, p, none, none, chipSize⟩
  | rest {es : List TableEntry} {p : Int} {d : TableEntry} (raw : List TableEntry)
      (hf : Forward blockSize chipSize es p) (hd : d.layout = ['-']) :
      Scanned blockSize chipSize ⟨es ++ d :: raw, p, some es.length, none, chipSize⟩

variable {s s' : Scan}

theorem addEntry_scanned (hs : Scanned blockSize chipSize s) (h : addEntry blockSize s e = some s') :
    Scanned blockSize chipSize s' ∧ s'.table.map (·.layout) = s.table.map (·.layout) ++ [e.layout] := by
  unfold addEntry at h
  cases hs with
  | rest raw hf hd =>
    simp only [Option.isSome_some, and_true] at h
    split at h
    case isTrue => simp at h
    case isFalse hn =>
      simp only [Option.isSome_some, if_true, Option.some.injEq] at h
      subst h
      refine ⟨?_, by simp⟩
      rw [List.append_assoc, List.cons_append]
      exact .rest (raw ++ [e]) hf hd
  | @front es p hf =>
    simp only [Option.isSome_none, Bool.false_eq_true, and_false, if_false] at h
    by_cases hd : e.layout = ['-']
    · simp only [hd, if_true, Option.isSome_some, Option.some.injEq] at h
      subst h
      exact ⟨.rest [] hf hd, by simp⟩
    · simp only [hd, if_false, Option.isSome_none, Bool.false_eq_true, reduceCtorEq,
        Option.bind_eq_bind, Option.bind_eq_some_iff] at h
      obtain ⟨e', hp, h⟩ := h
      have hstart : (if e'.start = 0 then { e' with start := p } else e') = setStart p e' := rfl
      have hpos : (if e'.start = 0 then int64 (p + e'.size) else int64 (e'.start + e'.size)) =
          int64 ((setStart p e').start + e'.size) := by
        unfold setStart
        split <;> rfl
      rw [hstart, hpos] at h
      split at h
      case isTrue => simp at h
      case isFalse hc =>
        obtain rfl := Option.some.inj h
        refine ⟨.front (.snoc hf hd hp (not_lt.mp hc)), ?_⟩
        simp [parseLayout_layout hp]

def lineLayout (line : List Char) : Option (List Char) :=
  let line := line.takeWhile fun c => c ≠ '#' && c ≠ '\x00'
  if line.length < 2 then none else (scanNand line).map (·.layout)

def layouts (file : List Char) : List (List Char) :=
  (lines 511 file.length file).filterMap lineLayout

theorem readLine_scanned {line : List Char} (hs : Scanned blockSize chipSize s)
    (hl : s.table.length ≤ maxEntries) (h : readLine .nand blockSize s line = some s') :
    Scanned blockSize chipSize s' ∧ s'.table.length ≤ maxEntries ∧
      s'.table.map (·.layout) = s.table.map (·.layout) ++ (lineLayout line).toList := by
  unfold readLine at h
  unfold lineLayout
  dsimp only at h ⊢
  split at h
  case isTrue hshort =>
    obtain rfl := Option.some.inj h
    exact ⟨hs, hl, by rw [if_pos hshort]; simp⟩
  case isFalse hlong =>
    simp only [if_true, markEnhanced, reduceCtorEq, if_false, Option.bind_eq_bind,
      Option.bind_some, Option.bind_eq_some_iff] at h
    obtain ⟨e, he, h⟩ := h
    split at h
    case isTrue => simp at h
    case isFalse hmax =>
      obtain ⟨hs', ht⟩ := addEntry_scanned hs h
      have hlen := congrArg List.length ht
      simp only [List.length_map, List.length_append, List.length_singleton] at hlen
      refine ⟨hs', by omega, ?_⟩
      rw [ht, if_neg hlong, he]
      rfl

theorem readLines_scanned {ls : List (List Char)} (hs : Scanned blockSize chipSize s)
    (hl : s.table.length ≤ maxEntries) (h : readLines .nand blockSize s ls = some s') :
    Scanned blockSize chipSize s' ∧ s'.table.length ≤ maxEntries ∧
      s'.table.map (·.layout) = s.table.map (·.layout) ++ ls.filterMap lineLayout := by
  induction ls generalizing s with
  | nil =>
    obtain rfl := Option.some.inj h
    exact ⟨hs, hl, by simp⟩
  | cons line ls ih =>
    simp only [readLines, Option.bind_eq_bind, Option.bind_eq_some_iff] at h
    obtain ⟨s₁, h₁, h⟩ := h
    obtain ⟨hs₁, hl₁, ht₁⟩ := readLine_scanned hs hl h₁
    obtain ⟨hs', hl', ht⟩ := ih hs₁ hl₁ h
    refine ⟨hs', hl', ?_⟩
    rw [ht, ht₁, List.append_assoc]
    cases hline : lineLayout line <;> simp [hline]

theorem backward_spec {i : Nat} {es es' : List TableEntry} {p c : Int}
    (h : backward blockSize none chipSize i es = some (es', p, c)) :
    Backward blockSize chipSize es' p ∧ es'.map (·.layout) = es.map (·.layout) := by
  induction es generalizing i es' p c with
  | nil =>
    simp only [backward, Option.some.injEq, Prod.mk.injEq] at h
    obtain ⟨rfl, rfl, -⟩ := h
    exact ⟨.nil, rfl⟩
  | cons e es ih =>
    simp only [backward, Option.bind_eq_bind, Option.bind_eq_some_iff, reduceCtorEq, if_false,
      Option.some.injEq, Prod.mk.injEq, Prod.exists] at h
    obtain ⟨es₁, p₁, c₁, h₁, e', hp, rfl, rfl, -⟩ := h
    obtain ⟨hb, ht⟩ := ih h₁
    refine ⟨.cons hb hp, ?_⟩
    rw [List.map_cons, List.map_cons, ht, ← parseLayout_layout hp]
    split <;> rfl

def Before (e f : TableEntry) : Prop := e.start + e.size ≤ f.start
  deriving Decidable

instance : Trans Before Before Before where
  trans {e f g} hef hfg := by
    unfold Before at hef hfg ⊢
    omega

section Passes

variable {es t : List TableEntry} {p : Int} (hk : blockSize = 2 ^ k) (hlt : blockSize < 2 ^ 31)

def Nonneg (blockSize : Int) (layout : List Char) : Prop :=
  0 ≤ size blockSize layout ∧ 0 ≤ pos blockSize layout
  deriving Decidable

theorem Recorded.size_cast (h : Recorded blockSize e) (hr : InRange blockSize e.layout)
    (hn : Nonneg blockSize e.layout) : (e.size : Int) = size blockSize e.layout := by
  have := value_range hr.1
  rw [h.size_eq]
  exact uint64_of_range ⟨hn.1, by unfold size; omega⟩

theorem Recorded.size_lt (h : Recorded blockSize e) (hr : InRange blockSize e.layout)
    (hn : Nonneg blockSize e.layout) : (e.size : Int) < 2 ^ 51 := by
  rw [h.size_cast hr hn]
  exact (value_range hr.1).2

include hk hlt in
theorem parse_recorded (hr : InRange blockSize e.layout) (h : parseLayout blockSize e = some e')
    (p : Int) : Recorded blockSize (setStart p e') ∧
      (pos blockSize e.layout = 0 → (setStart p e').start = p) := by
  obtain ⟨hl, hrec, hs⟩ := parseLayout_spec hk hlt hr h
  by_cases h0 : e'.start = 0
  · have he : setStart p e' = { e' with start := p } := if_pos h0
    rw [he]
    refine ⟨⟨hrec.size_eq, hrec.size_dvd, fun hc => ?_, hrec.pos_dvd⟩, fun _ => rfl⟩
    exact absurd (hs.symm.trans h0) (hl ▸ hc)
  · have he : setStart p e' = e' := if_neg h0
    rw [he]
    exact ⟨hrec, fun hc => absurd (hs.trans hc) h0⟩

include hk hlt in
theorem Forward.recorded (hf : Forward blockSize chipSize es p)
    (hr : ∀ e ∈ es, InRange blockSize e.layout) : ∀ e ∈ es, Recorded blockSize e := by
  induction hf with
  | nil => simp
  | @snoc es p e e' hf hd hp hc ih =>
    rw [List.forall_mem_append, List.forall_mem_singleton] at hr ⊢
    rw [setStart_layout, parseLayout_layout hp] at hr
    exact ⟨ih hr.1, (parse_recorded hk hlt hr.2 hp p).1⟩

include hk hlt in
theorem Backward.recorded (hb : Backward blockSize chipSize es p)
    (hr : ∀ e ∈ es, InRange blockSize e.layout) : ∀ e ∈ es, Recorded blockSize e := by
  induction hb with
  | nil => simp
  | @cons es p e e' hb hp ih =>
    rw [List.forall_mem_cons] at hr ⊢
    rw [setStart_layout, parseLayout_layout hp] at hr
    exact ⟨(parse_recorded hk hlt hr.1 hp _).1, ih hr.2⟩

structure Placed (blockSize chipSize : Int) (es : List TableEntry) (p : Int) : Prop where
  entries : ∀ e ∈ es, blockSize ∣ e.start ∧ 0 ≤ e.start ∧ e.start + e.size ≤ chipSize
  dvd : blockSize ∣ p
  nonneg : 0 ≤ p
  le : p ≤ (es.length + 1) * 2 ^ 51

include hk hlt in
theorem Forward.placed (hf : Forward blockSize chipSize es p)
    (hlen : es.length ≤ maxEntries) (hr : ∀ e ∈ es, InRange blockSize e.layout)
    (hn : ∀ e ∈ es, Nonneg blockSize e.layout) : Placed blockSize chipSize es p := by
  induction hf with
  | nil => exact ⟨by simp, dvd_zero _, le_rfl, by simp⟩
  | @snoc es p e e' hf hd hp hc ih =>
    rw [List.forall_mem_append, List.forall_mem_singleton] at hr hn
    rw [List.length_append, List.length_singleton] at hlen
    obtain ⟨he, hdvd, hnonneg, hle⟩ := ih (by omega) hr.1 hn.1
    have hl : (setStart p e').layout = e.layout := by rw [setStart_layout, parseLayout_layout hp]
    obtain ⟨hrec, hauto⟩ := parse_recorded hk hlt (hl ▸ hr.2) hp p
    have hsize := hrec.size_lt hr.2 hn.2
    have hplace : blockSize ∣ (setStart p e').start ∧ 0 ≤ (setStart p e').start ∧
        (setStart p e').start ≤ (es.length + 1) * 2 ^ 51 := by
      by_cases h0 : pos blockSize e.layout = 0
      · rw [hauto h0]
        exact ⟨hdvd, hnonneg, hle⟩
      · have hpos := (value_range hr.2.2).2
        rw [hrec.start_eq (hl ▸ h0)]
        exact ⟨hrec.pos_dvd, hn.2.2, by unfold pos; omega⟩
    rw [setStart_size] at hsize
    have hend : int64 ((setStart p e').start + e'.size) = (setStart p e').start + e'.size := by
      unfold maxEntries at hlen
      exact int64_of_range ⟨by omega, by omega⟩
    rw [hend] at hc ⊢
    have hdvd' := hrec.size_dvd
    rw [setStart_size] at hdvd'
    refine ⟨?_, dvd_add hplace.1 hdvd', by omega, by simp; omega⟩
    rw [List.forall_mem_append, List.forall_mem_singleton]
    exact ⟨he, hplace.1, hplace.2.1, by rw [setStart_size]; exact hc⟩

/-- It sees the end of the chip only in entries without a position. -/
structure Hung (blockSize chipSize : Int) (es : List TableEntry) (p : Int) : Prop where
  dvd : blockSize ∣ chipSize → ∀ e ∈ es, blockSize ∣ e.start
  auto : ∀ e ∈ es, pos blockSize e.layout = 0 → p ≤ e.start ∧ e.start + e.size ≤ chipSize
  last : ∀ e, es.getLast? = some e → pos blockSize e.layout = 0 → e.start + e.size = chipSize
  rest_dvd : blockSize ∣ chipSize - p
  le : p ≤ chipSize
  ge : chipSize - es.length * 2 ^ 51 ≤ p
  empty : es = [] → p = chipSize

include hk hlt in
theorem Backward.hung (hb : Backward blockSize chipSize es p)
    (hpos : 0 < chipSize) (hchip : chipSize < 2 ^ 63)
    (hlen : es.length ≤ maxEntries) (hr : ∀ e ∈ es, InRange blockSize e.layout)
    (hn : ∀ e ∈ es, Nonneg blockSize e.layout) : Hung blockSize chipSize es p := by
  induction hb with
  | nil => exact ⟨by simp, by simp, by simp, by simp, le_rfl, by simp, fun _ => rfl⟩
  | @cons es p e e' hb hp ih =>
    rw [List.forall_mem_cons] at hr hn
    rw [List.length_cons] at hlen
    have ih := ih (by omega) hr.2 hn.2
    have hl : (setStart (int64 (p - e'.size)) e').layout = e.layout := by
      rw [setStart_layout, parseLayout_layout hp]
    obtain ⟨hrec, hauto⟩ := parse_recorded hk hlt (hl ▸ hr.1) hp (int64 (p - e'.size))
    have hsize := hrec.size_lt hr.1 hn.1
    have hdvd := hrec.size_dvd
    rw [setStart_size] at hsize hdvd
    have hle := ih.le
    have hge := ih.ge
    have hq : int64 (p - e'.size) = p - e'.size := by
      unfold maxEntries at hlen
      exact int64_of_range ⟨by omega, by omega⟩
    rw [hq] at hl hrec hauto ⊢
    have hrest : blockSize ∣ chipSize - (p - e'.size) := by
      rw [sub_sub_eq_add_sub, add_sub_right_comm]
      exact dvd_add ih.rest_dvd hdvd
    refine ⟨fun hc => ?_, ?_, ?_, hrest, by omega, by rw [List.length_cons]; push_cast; omega,
      by simp⟩
    · rw [List.forall_mem_cons]
      refine ⟨?_, ih.dvd hc⟩
      by_cases h0 : pos blockSize e.layout = 0
      · rw [hauto h0]
        exact (dvd_sub_right hc).mp hrest
      · rw [hrec.start_eq (hl ▸ h0)]
        exact hrec.pos_dvd
    · rw [List.forall_mem_cons]
      refine ⟨fun h0 => ?_, fun f hf h0 => ?_⟩
      · rw [hauto (hl ▸ h0), setStart_size]
        omega
      · have := ih.auto f hf h0
        omega
    · intro f hf h0
      cases es with
      | nil =>
        rw [List.getLast?_singleton] at hf
        obtain rfl := Option.some.inj hf
        rw [hauto (hl ▸ h0), setStart_size, ih.empty rfl]
        omega
      | cons g es =>
        rw [List.getLast?_cons_cons] at hf
        exact ih.last f hf h0

inductive Table (blockSize chipSize : Int) : List TableEntry → Prop where
  | front {es : List TableEntry} {p : Int} (hf : Forward blockSize chipSize es p) :
      Table blockSize chipSize es
  | rest {es tail : List TableEntry} {p q : Int} {d : TableEntry}
      (hf : Forward blockSize chipSize es p) (hb : Backward blockSize chipSize tail q)
      (hd : d.layout = ['-']) (hpq : p ≤ q) :
      Table blockSize chipSize (es ++ { d with start := p, size := uint64 (q - p) } :: tail)

theorem placeTail_table {s : Scan} (hs : Scanned blockSize chipSize s)
    (h : placeTail blockSize s = some t) :
    Table blockSize chipSize t ∧ t.map (·.layout) = s.table.map (·.layout) := by
  unfold placeTail at h
  cases hs with
  | front hf =>
    obtain rfl := Option.some.inj h
    exact ⟨.front hf, rfl⟩
  | @rest es p d raw hf hd =>
    have hdrop : (es ++ d :: raw).drop (es.length + 1) = raw := by
      rw [List.drop_append]
      simp
    simp only [Option.bind_some, List.getElem?_append_right le_rfl, Nat.sub_self,
      List.getElem?_cons_zero, Option.map_some, List.take_left, hdrop, reduceCtorEq, if_false,
      Option.bind_eq_bind, Option.bind_eq_some_iff, Option.ite_none_left_eq_some, not_lt,
      Option.some.injEq, Prod.exists] at h
    obtain ⟨tail, q, c, hb, hpq, rfl⟩ := h
    obtain ⟨hb, hl⟩ := backward_spec hb
    exact ⟨.rest hf hb hd hpq, by simp [hl]⟩

theorem Forward.not_dash (hf : Forward blockSize chipSize es p) :
    ∀ e ∈ es, e.layout ≠ ['-'] := by
  induction hf with
  | nil => simp
  | @snoc es p e e' hf hd hp hc ih =>
    rw [List.forall_mem_append, List.forall_mem_singleton, setStart_layout, parseLayout_layout hp]
    exact ⟨ih, hd⟩

include hk hlt in
theorem Table.recorded (ht : Table blockSize chipSize t)
    (hr : ∀ e ∈ t, InRange blockSize e.layout) :
    ∀ e ∈ t, e.layout = ['-'] ∨ Recorded blockSize e := by
  cases ht with
  | front hf => exact fun e he => .inr (hf.recorded hk hlt hr e he)
  | rest hf hb hd hpq =>
    rw [List.forall_mem_append, List.forall_mem_cons] at hr ⊢
    refine ⟨fun e he => .inr ?_, .inl hd, fun e he => .inr ?_⟩
    · exact hf.recorded hk hlt hr.1 e he
    · exact hb.recorded hk hlt hr.2.2 e he

structure Sound (blockSize chipSize : Int) (table : List TableEntry) : Prop where
  aligned : ∀ e ∈ table, blockSize ∣ e.start ∧ blockSize ∣ e.size
  ordered : table.Pairwise Before
  within : ∀ e ∈ table, 0 ≤ e.start ∧ e.start + e.size ≤ chipSize

include hk hlt in
theorem Table.nonneg (ht : Table blockSize chipSize t)
    (hr : ∀ e ∈ t, InRange blockSize e.layout) (hb : ∀ e ∈ t, 0 ≤ e.start ∧ e.size < 2 ^ 63) :
    ∀ e ∈ t, Nonneg blockSize e.layout := by
  intro e he
  obtain ⟨hstart, hlt63⟩ := hb e he
  cases ht.recorded hk hlt hr e he with
  | inl hd =>
    rw [hd]
    exact ⟨le_rfl, le_rfl⟩
  | inr hrec =>
    have hsize := value_range (hr e he).1
    have hcast := uint64_cast (size blockSize e.layout)
    rw [← hrec.size_eq] at hcast
    constructor
    · unfold size at hcast ⊢
      omega
    · by_cases h0 : pos blockSize e.layout = 0
      · exact h0.ge
      · rw [← hrec.start_eq h0]
        exact hstart

include hk hlt in
theorem Sound.nonneg (hs : Sound blockSize chipSize t)
    (ht : Table blockSize chipSize t) (hchip : chipSize < 2 ^ 63)
    (hr : ∀ e ∈ t, InRange blockSize e.layout) : ∀ e ∈ t, Nonneg blockSize e.layout :=
  ht.nonneg hk hlt hr fun e he => by have := hs.within e he; omega

include hk hlt in
theorem Table.aligned (ht : Table blockSize chipSize t) (hpos : 0 < chipSize)
    (hchip : chipSize < 2 ^ 63) (hlen : t.length ≤ maxEntries)
    (hr : ∀ e ∈ t, InRange blockSize e.layout) (hn : ∀ e ∈ t, Nonneg blockSize e.layout)
    (hc : ['-'] ∈ t.map (·.layout) → blockSize ∣ chipSize) :
    ∀ e ∈ t, blockSize ∣ e.start ∧ blockSize ∣ e.size := by
  cases ht with
  | front hf =>
    have hplaced := hf.placed hk hlt hlen hr hn
    exact fun e he => ⟨(hplaced.entries e he).1, (hf.recorded hk hlt hr e he).size_dvd⟩
  | @rest es tail p q d hf hb hd hpq =>
    have hc := hc (by simp [hd])
    rw [List.forall_mem_append, List.forall_mem_cons] at hr hn ⊢
    rw [List.length_append, List.length_cons] at hlen
    have hplaced := hf.placed hk hlt (by omega) hr.1 hn.1
    have hhung := hb.hung hk hlt hpos hchip (by omega) hr.2.2 hn.2.2
    have hp := hplaced.nonneg
    have hq := hhung.le
    have hqd : blockSize ∣ q := (dvd_sub_right hc).mp hhung.rest_dvd
    refine ⟨fun e he => ?_, ⟨hplaced.dvd, ?_⟩, fun e he => ?_⟩
    · exact ⟨(hplaced.entries e he).1, (hf.recorded hk hlt hr.1 e he).size_dvd⟩
    · rw [uint64_of_range ⟨by omega, by omega⟩]
      exact dvd_sub hqd hplaced.dvd
    · exact ⟨hhung.dvd hc e he, (hb.recorded hk hlt hr.2.2 e he).size_dvd⟩

theorem pairwise_of_not_overlaps (h : overlaps t = false)
    (hb : ∀ e ∈ t, 0 ≤ e.start ∧ e.start + e.size < 2 ^ 64) :
    t.Pairwise Before := by
  rw [← List.isChain_iff_pairwise]
  fun_induction overlaps t with
  | case1 e f es ih =>
    rw [Bool.or_eq_false_iff, decide_eq_false_iff_not, not_lt] at h
    rw [List.forall_mem_cons] at hb
    have he := uint64_of_range ⟨by have := hb.1.1; omega, hb.1.2⟩
    have hf := hb.2 f List.mem_cons_self
    have hf' := uint64_of_range (x := f.start) ⟨hf.1, by omega⟩
    rw [List.isChain_cons_cons]
    exact ⟨by unfold Before; omega, ih h.2 hb.2⟩
  | case2 t hn =>
    cases t with
    | nil => exact .nil
    | cons e t =>
      cases t with
      | nil => exact .singleton e
      | cons f es => exact absurd rfl (hn e f es)

theorem Hung.last_le {l : TableEntry}
    (hh : Hung blockSize chipSize es p) (hl : es.getLast? = some l) (hrec : Recorded blockSize l)
    (hr : InRange blockSize l.layout) (hn : Nonneg blockSize l.layout)
    (hfit : pos blockSize l.layout ≠ 0 →
      pos blockSize l.layout + size blockSize l.layout ≤ chipSize) :
    l.start + l.size ≤ chipSize := by
  by_cases h0 : pos blockSize l.layout = 0
  · exact (hh.last l hl h0).le
  · rw [hrec.start_eq h0, hrec.size_cast hr hn]
    exact hfit h0

theorem end_le_last {l : TableEntry}
    (h : t.Pairwise Before) (hl : t.getLast? = some l) :
    ∀ e ∈ t, e.start + e.size ≤ l.start + l.size := by
  obtain ⟨init, rfl⟩ := List.getLast?_eq_some_iff.mp hl
  rw [List.pairwise_append] at h
  rw [List.forall_mem_append, List.forall_mem_singleton]
  refine ⟨fun e he => ?_, le_rfl⟩
  have hlast := h.2.2 e he l (List.mem_singleton.mpr rfl)
  unfold Before at hlast
  omega

def LastFits (blockSize chipSize : Int) (ls : List (List Char)) : Prop :=
  ∀ l ∈ ls.getLast?, pos blockSize l ≠ 0 → pos blockSize l + size blockSize l ≤ chipSize
  deriving Decidable

theorem Hung.bounded (hh : Hung blockSize chipSize es p)
    (hp : 0 ≤ p) (hchip : chipSize < 2 ^ 63) (hrec : ∀ e ∈ es, Recorded blockSize e)
    (hr : ∀ e ∈ es, InRange blockSize e.layout) (hn : ∀ e ∈ es, Nonneg blockSize e.layout) :
    ∀ e ∈ es, 0 ≤ e.start ∧ e.start + e.size < 2 ^ 64 := by
  intro e he
  by_cases h0 : pos blockSize e.layout = 0
  · have := hh.auto e he h0
    omega
  · have hsize := (hrec e he).size_lt (hr e he) (hn e he)
    have hpos : pos blockSize e.layout < 2 ^ 51 := (value_range (hr e he).2).2
    have hnonneg := (hn e he).2
    rw [(hrec e he).start_eq h0]
    omega

include hk hlt in
theorem Table.bounded (ht : Table blockSize chipSize t) (hpos : 0 < chipSize)
    (hchip : chipSize < 2 ^ 63) (hlen : t.length ≤ maxEntries)
    (hr : ∀ e ∈ t, InRange blockSize e.layout) (hn : ∀ e ∈ t, Nonneg blockSize e.layout) :
    ∀ e ∈ t, 0 ≤ e.start ∧ e.start + e.size < 2 ^ 64 := by
  cases ht with
  | front hf =>
    intro e he
    have := (hf.placed hk hlt hlen hr hn).entries e he
    omega
  | @rest es tail p q d hf hb hd hpq =>
    rw [List.forall_mem_append, List.forall_mem_cons] at hr hn ⊢
    rw [List.length_append, List.length_cons] at hlen
    have hplaced := hf.placed hk hlt (by omega) hr.1 hn.1
    have hhung := hb.hung hk hlt hpos hchip (by omega) hr.2.2 hn.2.2
    have hp := hplaced.nonneg
    have hq := hhung.le
    refine ⟨fun e he => ?_, ⟨hp, ?_⟩, ?_⟩
    · have := hplaced.entries e he
      omega
    · rw [uint64_of_range ⟨by omega, by omega⟩]
      dsimp only
      omega
    · exact hhung.bounded (by omega) hchip (hb.recorded hk hlt hr.2.2) hr.2.2 hn.2.2

include hk hlt in
theorem Sound.lastFits (hs : Sound blockSize chipSize t)
    (ht : Table blockSize chipSize t) (hr : ∀ e ∈ t, InRange blockSize e.layout)
    (hn : ∀ e ∈ t, Nonneg blockSize e.layout) :
    LastFits blockSize chipSize (t.map (·.layout)) := by
  intro l hl h0
  rw [List.getLast?_map, Option.mem_def, Option.map_eq_some_iff] at hl
  obtain ⟨e, he, rfl⟩ := hl
  have hmem := List.mem_of_getLast? he
  cases ht.recorded hk hlt hr e hmem with
  | inl hd =>
    rw [hd] at h0
    exact absurd rfl h0
  | inr hrec =>
    rw [← hrec.start_eq h0, ← hrec.size_cast (hr e hmem) (hn e hmem)]
    exact (hs.within e hmem).2

include hk hlt in
theorem Table.sound_iff (ht : Table blockSize chipSize t)
    (hov : overlaps t = false) (hpos : 0 < chipSize) (hchip : chipSize < 2 ^ 63)
    (hlen : t.length ≤ maxEntries) (hr : ∀ e ∈ t, InRange blockSize e.layout)
    (hn : ∀ e ∈ t, Nonneg blockSize e.layout) :
    Sound blockSize chipSize t ↔ (['-'] ∈ t.map (·.layout) →
      blockSize ∣ chipSize ∧ LastFits blockSize chipSize (t.map (·.layout))) := by
  have hbound := ht.bounded hk hlt hpos hchip hlen hr hn
  have hpw := pairwise_of_not_overlaps hov hbound
  have hfits (hs : Sound blockSize chipSize t) := hs.lastFits hk hlt ht hr hn
  have haligned := ht.aligned hk hlt hpos hchip hlen hr hn
  cases ht with
  | front hf =>
    have hplaced := hf.placed hk hlt hlen hr hn
    constructor
    · intro _ hmem
      obtain ⟨e, he, hd⟩ := List.mem_map.mp hmem
      exact absurd hd (hf.not_dash e he)
    · intro h
      exact ⟨haligned fun hd => (h hd).1, hpw, fun e he => (hplaced.entries e he).2⟩
  | @rest es tail p q d hf hb hd hpq =>
    rw [List.forall_mem_append, List.forall_mem_cons] at hr hn
    rw [List.length_append, List.length_cons] at hlen
    have hplaced := hf.placed hk hlt (by omega) hr.1 hn.1
    have hhung := hb.hung hk hlt hpos hchip (by omega) hr.2.2 hn.2.2
    have hp := hplaced.nonneg
    have hq := hhung.le
    have hrest : (uint64 (q - p) : Int) = q - p := uint64_of_range ⟨by omega, by omega⟩
    constructor
    · intro hs _
      refine ⟨?_, hfits hs⟩
      have hal := (hs.aligned _ (List.mem_append_right es List.mem_cons_self)).2
      rw [hrest] at hal
      have hqd : blockSize ∣ q := (dvd_sub_left hplaced.dvd).mp hal
      exact (dvd_sub_left hqd).mp hhung.rest_dvd
    · intro h
      obtain ⟨hc, hlast⟩ := h (by simp [hd])
      refine ⟨haligned fun _ => hc, hpw, ?_⟩
      have hget : (es ++ { d with start := p, size := uint64 (q - p) } :: tail).getLast? =
          some (tail.getLast?.getD { d with start := p, size := uint64 (q - p) }) := by
        rw [List.getLast?_append, List.getLast?_cons]
        rfl
      have hend := end_le_last hpw hget
      refine fun e he => ⟨(hbound e he).1, (hend e he).trans ?_⟩
      cases htail : tail.getLast? with
      | none =>
        rw [Option.getD_none, hrest, hhung.empty (List.getLast?_eq_none_iff.mp htail)]
        dsimp only
        omega
      | some l =>
        have hmem := List.mem_of_getLast? htail
        refine hhung.last_le htail (hb.recorded hk hlt hr.2.2 l hmem) (hr.2.2 l hmem)
          (hn.2.2 l hmem) (hlast _ ?_)
        rw [List.getLast?_map, hget, htail]
        rfl

end Passes

def place (e : TableEntry) : List Char × Int × Nat := (e.layout, e.start, e.size)

theorem set_place {t : List TableEntry} {i : Nat} (h : (t.map place)[i]? = some (place e)) :
    (t.set i e).map place = t.map place := by
  rw [List.map_set]
  obtain ⟨hi, he⟩ := List.getElem?_eq_some_iff.mp h
  rw [← he, List.set_getElem_self]

theorem modify_place {f : TableEntry → TableEntry} (hf : ∀ e, place (f e) = place e)
    (t : List TableEntry) (i : Nat) : (t.modify i f).map place = t.map place := by
  apply List.ext_getElem?
  intro n
  rw [List.getElem?_map, List.getElem?_modify, List.getElem?_map, Option.map_eq_map, Option.map_map]
  split
  · exact congrArg (Option.map · _) (funext hf)
  · rfl

theorem parseName_place (mode : Mode) (t : List TableEntry) (i : Nat) :
    (parseName mode t i).map place = t.map place := by
  unfold parseName
  split
  case h_1 => rfl
  case h_2 e he =>
    have hi : (t.map place)[i]? = some (place e) := by rw [List.getElem?_map, he]; rfl
    split
    case h_1 str hname =>
      dsimp only
      split
      · exact set_place hi
      · have hm := modify_place (f := fun f => { f with hasBackUp := true, backUpEntry := some i })
          (fun _ => rfl) t
        exact (set_place ((hm _).symm ▸ hi)).trans (hm _)
    case h_2 => rfl

theorem names_place (mode : Mode) (is : List Nat) (t : List TableEntry) :
    (is.foldl (parseName mode) t).map place = t.map place := by
  induction is generalizing t with
  | nil => rfl
  | cons i is ih => rw [List.foldl_cons, ih, parseName_place]

theorem Sound.congr {t t' : List TableEntry} (h : t'.map place = t.map place)
    (hs : Sound blockSize chipSize t) : Sound blockSize chipSize t' := by
  have hmem : ∀ e ∈ t', ∃ f ∈ t, f.start = e.start ∧ f.size = e.size := by
    intro e he
    have hp : place e ∈ t.map place := h ▸ List.mem_map_of_mem he
    obtain ⟨f, hf, hfe⟩ := List.mem_map.mp hp
    exact ⟨f, hf, congrArg (·.2.1) hfe, congrArg (·.2.2) hfe⟩
  refine ⟨fun e he => ?_, ?_, fun e he => ?_⟩
  · obtain ⟨f, hf, hst, hsz⟩ := hmem e he
    rw [← hst, ← hsz]
    exact hs.aligned f hf
  · have hp : (t.map place).Pairwise fun a b => a.2.1 + (a.2.2 : Int) ≤ b.2.1 :=
      List.pairwise_map.mpr hs.ordered
    rw [← h] at hp
    exact (List.pairwise_map (f := place)).mp hp
  · obtain ⟨f, hf, hst, hsz⟩ := hmem e he
    rw [← hst, ← hsz]
    exact hs.within f hf

theorem acceptedTable_nand {args : Args} {file : List Char} {table : List TableEntry}
    (h : acceptedTable .nand args file = some table) :
    0 < args.chipSize ∧ ∃ t, Table args.blockSize args.chipSize t ∧ overlaps t = false ∧
      t.length ≤ maxEntries ∧ t.map (·.layout) = layouts file ∧ table.map place = t.map place := by
  simp only [acceptedTable, layoutTable, reduceCtorEq, if_false, Option.bind_eq_bind,
    Option.bind_eq_some_iff, Option.ite_none_left_eq_some, not_or, not_le, ne_eq,
    not_true_eq_false, false_and, Option.some.injEq, Bool.not_eq_true] at h
  obtain ⟨⟨t, half⟩, ⟨⟨-, hpos⟩, s, hs, t', ht, hov, heq⟩, rfl⟩ := h
  obtain ⟨rfl, -⟩ := Prod.mk.inj heq
  obtain ⟨hs, hlen, hl⟩ := readLines_scanned (.front .nil) (Nat.zero_le _) hs
  obtain ⟨ht, hl'⟩ := placeTail_table hs ht
  refine ⟨hpos, t', ht, hov, ?_, hl'.trans hl, names_place _ _ _⟩
  have := congrArg List.length hl'
  simp only [List.length_map] at this
  omega

/-- The layout is sound unless an entry leaves the chip or the chip has a part of a block. -/
theorem layout_sound_iff (args : Args) (file : List Char) (table : List TableEntry) (k : Nat)
    (hk : args.blockSize = 2 ^ k) (hr : ∀ l ∈ layouts file, InRange args.blockSize l)
    (h : acceptedTable .nand args file = some table) :
    Sound args.blockSize args.chipSize table ↔
      (∀ l ∈ layouts file, Nonneg args.blockSize l) ∧
      (['-'] ∈ layouts file →
        args.blockSize ∣ args.chipSize ∧ LastFits args.blockSize args.chipSize (layouts file)) := by
  obtain ⟨hpos, t, ht, hov, hlen, hl, hplace⟩ := acceptedTable_nand h
  have hsound : Sound args.blockSize args.chipSize table ↔ Sound args.blockSize args.chipSize t :=
    ⟨.congr hplace.symm, .congr hplace⟩
  have hlt := args.blockSize_lt
  have hchip := args.chipSize_lt
  rw [← hl, List.forall_mem_map] at hr
  rw [hsound, ← hl, List.forall_mem_map]
  constructor
  · intro hs
    have hn := hs.nonneg hk hlt ht hchip hr
    exact ⟨hn, (ht.sound_iff hk hlt hov hpos hchip hlen hr hn).mp hs⟩
  · rintro ⟨hn, hc⟩
    exact (ht.sound_iff hk hlt hov hpos hchip hlen hr hn).mpr hc

def smallChip : Args := ⟨1, 0, 2 ^ 20, 2 ^ 24, by decide, by decide⟩

theorem layout_sound_small : ∃ table,
    acceptedTable .nand smallChip "1M boot\n- data\n2M log\n".toList = some table ∧
      Sound smallChip.blockSize smallChip.chipSize table := by
  have h : (acceptedTable .nand smallChip "1M boot\n- data\n2M log\n".toList).isSome := by
    decide +kernel
  obtain ⟨table, ht⟩ := Option.isSome_iff_exists.mp h
  refine ⟨table, ht, ?_⟩
  exact (layout_sound_iff smallChip _ _ 20 (by decide) (by decide +kernel) ht).mpr
    (by decide +kernel)

theorem tail_leaves_chip :
    (∀ l ∈ layouts "1M boot\n- data\n1M@1024M log\n".toList, InRange smallChip.blockSize l) ∧
      ∃ table, acceptedTable .nand smallChip "1M boot\n- data\n1M@1024M log\n".toList = some table ∧
        ¬Sound smallChip.blockSize smallChip.chipSize table := by
  have h : (acceptedTable .nand smallChip "1M boot\n- data\n1M@1024M log\n".toList).isSome := by
    decide +kernel
  have hend : ∀ table ∈ acceptedTable .nand smallChip "1M boot\n- data\n1M@1024M log\n".toList,
      ∃ e ∈ table, smallChip.chipSize < e.start + e.size := by
    decide +kernel
  obtain ⟨table, ht⟩ := Option.isSome_iff_exists.mp h
  obtain ⟨e, he, hlt⟩ := hend table ht
  refine ⟨by decide +kernel, table, ht, fun hs => ?_⟩
  exact absurd (hs.within e he).2 (not_le.mpr hlt)

end SynaBoot.PartLayout
