import SynaBoot.BoundedArray
import SynaBoot.ByteStore
import SynaBoot.CText
import SynaBoot.Schedules

namespace SynaBoot.Vsnprintf

open SynaBoot.BoundedArray SynaBoot.ByteStore SynaBoot.CText SynaBoot.Schedules

inductive Kind where
  | int
  | long
  | string
  deriving DecidableEq, Repr

/-- A string before its terminator, or the null pointer. -/
inductive Arg where
  | int (val : Int32)
  | long (val64 : Int64)
  | string (s : Option (List Char))

def Arg.kind : Arg → Kind
  | .int _ => .int
  | .long _ => .long
  | .string _ => .string

def Arg.byte : Arg → Char
  | .int val => Char.ofNat (val.toUInt32.toNat % 256)
  | _ => '\x00'

def Arg.text : Arg → List Char
  | .string s => s.getD "NULL".toList
  | _ => []

def Arg.flag (sign : Bool) : Arg → Bool
  | .int val => sign && decide (val < 0)
  | .long val64 => sign && decide (val64 < 0)
  | .string _ => false

def Arg.uval (sign : Bool) (a : Arg) : ℕ :=
  match a with
  | .int val => (if a.flag sign then -val else val).toUInt32.toNat
  | .long val64 => (if a.flag sign then -val64 else val64).toUInt64.toNat
  | .string _ => 0

def vaArg (k : Kind) : List Arg → Option (Arg × List Arg)
  | [] => none
  | a :: ap => if a.kind = k then some (a, ap) else none

structure Options where
  lead : Bool
  width : ℤ
  is64bit : Bool

def stripLead : List Char → Bool × List Char
  | '0' :: fmt => (true, fmt)
  | fmt => (false, fmt)

def stripWidth (fmt : List Char) : ℤ × List Char :=
  ((fmt.takeWhile Char.isDigit).foldl (fun width c => int32 (int32 (width * 10) + (c.toNat - 48))) 0,
    fmt.dropWhile Char.isDigit)

def stripLong : List Char → Bool × List Char
  | 'l' :: 'l' :: fmt => (true, fmt)
  | 'l' :: fmt => (false, fmt)
  | fmt => (false, fmt)

def options (fmt : List Char) : Options × List Char :=
  let lead := stripLead fmt
  let width := stripWidth lead.2
  let long := stripLong width.2
  (⟨lead.1, width.1, long.1⟩, long.2)

inductive Conversion where
  | percent
  | char
  | string
  | number (sign up : Bool) (base : ℕ) (is64bit : Bool)
  | other

/-- Only hexadecimal numbers can have 64 bits. -/
def parseOption (c : Char) (is64bit : Bool) : Conversion :=
  match c with
  | '%' => .percent
  | 'c' => .char
  | 's' => .string
  | 'd' => .number true false 10 false
  | 'u' => .number false false 10 false
  | 'X' => .number false true 16 is64bit
  | 'x' | 'p' => .number false false 16 is64bit
  | _ => .other

def digitsOf (up : Bool) (base n : ℕ) : List Char :=
  let low := (Nat.toDigits base n).reverse
  if up then low.map Char.toUpper else low

/-- The width that is left behind the sign and the digits. -/
def Options.pad (o : Options) (flag : Bool) (idx : ℕ) : ℤ :=
  int32 ((if o.width ≠ 0 ∧ flag then int32 (o.width - 1) else o.width) - idx)

def spent (width : ℤ) : ℤ := if 0 < width then -1 else int32 (width - 1)

def tmpSize : ℕ := 40

/-- The last character first; `none` is a store outside of `tmp`. -/
def formatNumber (o : Options) (flag : Bool) (low : List Char) : Option (List Char) := do
  let tmp ← pushAll tmpSize [] low
  let width := o.pad flag low.length
  let tmp ← pushAll tmpSize tmp (List.replicate (if o.lead then width.toNat else 0) '0')
  let width := if o.lead then spent width else width
  let tmp ← pushAll tmpSize tmp (if flag then ['-'] else [])
  pushAll tmpSize tmp (List.replicate width.toNat ' ')

structure Output where
  i : ℕ
  buf : List Char

namespace Output

def put (s : Output) (c : Char) : Option Output :=
  (store s.buf s.i [c]).map fun buf => ⟨s.i + 1, buf⟩

/-- The loops that copy characters as long as there is room. -/
def copy (size : ℕ) : List Char → Output → Option Output
  | [], s => some s
  | c :: cs, s => if s.i < size then (s.put c).bind (copy size cs) else some s

def convert (size : ℕ) (o : Options) (conv : Conversion) (ap : List Arg) (s : Output) :
    Option (List Arg × Output) :=
  match conv with
  | .percent => do return (ap, ← s.put '%')
  | .char => do
    let (a, ap) ← vaArg .int ap
    return (ap, ← s.put a.byte)
  | .string => do
    let (a, ap) ← vaArg .string ap
    return (ap, ← s.copy size a.text)
  | .number sign up base is64bit => do
    let (a, ap) ← vaArg (if is64bit then .long else .int) ap
    let tmp ← formatNumber o (a.flag sign) (digitsOf up base (a.uval sign))
    return (ap, ← s.copy size tmp.reverse)
  | .other => do return (ap, ← s.put '~')

end Output

theorem stripLead_suffix (fmt : List Char) : (stripLead fmt).2 <:+ fmt := by
  unfold stripLead
  split
  · exact List.suffix_cons _ _
  · exact List.suffix_rfl

theorem stripLong_suffix (fmt : List Char) : (stripLong fmt).2 <:+ fmt := by
  unfold stripLong
  split
  · exact (List.suffix_cons _ _).trans (List.suffix_cons _ _)
  · exact List.suffix_cons _ _
  · exact List.suffix_rfl

theorem options_suffix (fmt : List Char) : (options fmt).2 <:+ fmt :=
  (stripLong_suffix _).trans ((List.dropWhile_suffix _).trans (stripLead_suffix fmt))

theorem length_behind (fmt : List Char) : (options fmt).2.tail.length < fmt.length + 1 :=
  Nat.lt_succ_of_le ((List.tail_suffix _).trans (options_suffix fmt)).length_le

/-- `none` is an access outside of an array. -/
def loop (size : ℕ) (fmt : List Char) (ap : List Arg) (s : Output) : Option Output :=
  if s.i < size then
    match fmt with
    | [] => none
    | c :: fmt =>
      if c = '\x00' then some s
      else if c ≠ '%' then do
        let s ← s.put c
        loop size fmt ap s
      else do
        let o := options fmt
        let c ← o.2.head?
        let r ← s.convert size o.1 (parseOption c o.1.is64bit) ap
        loop size o.2.tail r.1 r.2
  else some s
termination_by fmt.length
decreasing_by
  · exact Nat.lt_succ_self _
  · exact length_behind _

/-- What `vsnprintf` returns, and the buffer behind it. -/
def vsnprintf (buf : List Char) (size : UInt32) (fmt : List Char) (ap : List Arg) :
    Option (ℕ × List Char) := do
  let s ← loop (size - 1).toNat fmt ap ⟨0, buf⟩
  let ended ← s.put '\x00'
  return (s.i, ended.buf)

inductive Item where
  | char (c : Char)
  | directive (o : Options) (conv : Conversion)
  | cut

def items : List Char → List Item
  | [] => []
  | c :: fmt =>
    if c ≠ '%' then .char c :: items fmt
    else
      match (options fmt).2.head? with
      | none => [.cut]
      | some c =>
        .directive (options fmt).1 (parseOption c (options fmt).1.is64bit) ::
          items (options fmt).2.tail
termination_by fmt => fmt.length
decreasing_by
  · exact Nat.lt_succ_self _
  · exact length_behind _

def field (o : Options) (flag : Bool) (low : List Char) : List Char :=
  let width := o.pad flag low.length
  low ++ (List.replicate (if o.lead then width.toNat else 0) '0' ++
    ((if flag then ['-'] else []) ++
      List.replicate (if o.lead then spent width else width).toNat ' '))

def Conversion.kind : Conversion → Option Kind
  | .char => some .int
  | .string => some .string
  | .number _ _ _ is64bit => some (if is64bit then .long else .int)
  | _ => none

def Conversion.text (o : Options) (a : Arg) : Conversion → List Char
  | .percent => ['%']
  | .char => [a.byte]
  | .string => a.text
  | .number sign up base _ => (field o (a.flag sign) (digitsOf up base (a.uval sign))).reverse
  | .other => ['~']

def Item.kind : Item → Option Kind
  | .directive _ conv => conv.kind
  | _ => none

def Item.text (a : Arg) : Item → List Char
  | .char c => [c]
  | .directive o conv => conv.text o a
  | .cut => ['~']

structure Progress where
  ap : List Arg
  text : List Char

def Progress.next (p : Progress) : Arg := p.ap.headD (.int 0)

def advance (item : Item) (p : Progress) : Progress where
  ap := if item.kind.isSome then p.ap.tail else p.ap
  text := p.text ++ item.text p.next

def Takes (p : Progress) (item : Item) : Prop :=
  ∀ k, item.kind = some k → ∃ a ap, p.ap = a :: ap ∧ a.kind = k

structure Fitting (o : Options) (flag : Bool) (low : List Char) : Prop where
  narrow : o.width ≤ tmpSize
  counted : -2 ^ 31 + (o.lead.toNat : ℤ) ≤ o.width - flag.toNat - low.length

def Safe (size : ℕ) (p : Progress) (item : Item) : Prop :=
  p.text.length < size →
    match item with
    | .directive o (.number sign up base _) =>
      Fitting o (p.next.flag sign) (digitsOf up base (p.next.uval sign))
    | .cut => size ≤ p.text.length + 1
    | _ => True

section Numbers

variable {o : Options} {flag : Bool} {low : List Char}

theorem pushAll_append {cap : ℕ} (l xs ys : List Char) :
    pushAll cap l (xs ++ ys) = (pushAll cap l xs).bind fun l => pushAll cap l ys := by
  exact List.foldlM_append

theorem formatNumber_eq : formatNumber o flag low = pushAll tmpSize [] (field o flag low) := by
  simp only [field, pushAll_append]
  rfl

theorem pad_eq (hwidth : o.width ≠ 0) (n : ℕ) : o.pad flag n = int32 (o.width - flag.toNat - n) := by
  rw [Options.pad]
  cases flag with
  | false =>
    rw [if_neg (fun h => by cases h.2)]
    exact congrArg (fun w => int32 (w - n)) (sub_zero o.width).symm
  | true =>
    rw [if_pos ⟨hwidth, rfl⟩]
    exact Int.bmod_sub_bmod

theorem pad_zero (hwidth : o.width = 0) (n : ℕ) : o.pad flag n = int32 (-n) := by
  rw [Options.pad, if_neg (fun h => h.1 hwidth), hwidth, zero_sub]

theorem spent_toNat {width : ℤ} (hwidth : -2 ^ 31 ≤ width ∧ width < 2 ^ 31) :
    (spent width).toNat = if width = -2 ^ 31 then 2 ^ 31 - 1 else 0 := by
  unfold spent
  by_cases hleast : width = -2 ^ 31
  · rw [if_pos hleast, if_neg (by omega), int32_below (by omega)]
    omega
  · rw [if_neg hleast]
    split
    · rfl
    · rw [int32_of_range (by omega)]
      omega

theorem length_field : (field o flag low).length = low.length + flag.toNat +
    if o.lead ∧ o.pad flag low.length = -2 ^ 31 then 2 ^ 31 - 1 else (o.pad flag low.length).toNat := by
  have hsign : (if flag then ['-'] else []).length = flag.toNat := by cases flag <;> rfl
  have hrange : -2 ^ 31 ≤ o.pad flag low.length ∧ o.pad flag low.length < 2 ^ 31 := int32_range _
  rw [field]
  simp only [List.length_append, List.length_replicate, hsign]
  cases o.lead with
  | false =>
    simp only [Bool.false_eq_true, if_false, false_and]
    omega
  | true =>
    simp only [if_true, true_and, spent_toNat hrange]
    split <;> omega

theorem length_field_le_iff (flag : Bool) (hwidth : -2 ^ 31 ≤ o.width ∧ o.width < 2 ^ 31)
    (hpos : 0 < low.length) (hlow : low.length ≤ 16) :
    (field o flag low).length ≤ tmpSize ↔ Fitting o flag low := by
  have hfitting : Fitting o flag low ↔
      o.width ≤ 40 ∧ -2 ^ 31 + (o.lead.toNat : ℤ) ≤ o.width - flag.toNat - low.length :=
    ⟨fun h => ⟨h.1, h.2⟩, fun h => ⟨h.1, h.2⟩⟩
  have hsign := flag.toNat_le
  have hlead : o.lead.toNat = if o.lead then 1 else 0 := by cases o.lead <;> rfl
  change _ ≤ 40 ↔ _
  rw [length_field, hfitting, hlead]
  by_cases hzero : o.width = 0
  · rw [pad_zero hzero, int32_of_range (by omega), hzero]
    split <;> split <;> omega
  · rw [pad_eq hzero]
    by_cases hwraps : o.width - flag.toNat - low.length < -2 ^ 31
    · rw [int32_below ⟨by omega, hwraps⟩, if_neg (by omega)]
      split <;> omega
    · rw [int32_of_range (by omega)]
      cases o.lead with
      | false =>
        simp only [Bool.false_eq_true, if_false, false_and]
        omega
      | true =>
        simp only [if_true, true_and]
        split <;> omega

end Numbers

section Formats

variable {fmt : List Char}

theorem stripWidth_range (fmt : List Char) :
    -2 ^ 31 ≤ (stripWidth fmt).1 ∧ (stripWidth fmt).1 < 2 ^ 31 := by
  rw [stripWidth]
  obtain h | ⟨cs, c, h⟩ := List.eq_nil_or_concat (fmt.takeWhile Char.isDigit)
  · rw [h]
    change -2 ^ 31 ≤ (0 : ℤ) ∧ (0 : ℤ) < 2 ^ 31
    decide
  · rw [h, List.concat_eq_append, List.foldl_append]
    exact int32_range _

theorem stripLead_end (fmt : List Char) :
    stripLead (fmt ++ ['\x00']) = ((stripLead fmt).1, (stripLead fmt).2 ++ ['\x00']) := by
  cases fmt with
  | nil => rfl
  | cons c fmt =>
    by_cases hc : c = '0'
    · rw [hc]
      rfl
    · have hother (cs : List Char) : stripLead (c :: cs) = (false, c :: cs) := by
        unfold stripLead
        split
        · next h => exact absurd (List.cons.inj h).1 hc
        · rfl
      rw [List.cons_append, hother, hother]
      rfl

theorem stripWidth_end (fmt : List Char) :
    stripWidth (fmt ++ ['\x00']) = ((stripWidth fmt).1, (stripWidth fmt).2 ++ ['\x00']) := by
  have htake (fmt : List Char) : (fmt ++ ['\x00']).takeWhile Char.isDigit = fmt.takeWhile Char.isDigit := by
    induction fmt with
    | nil => rfl
    | cons c fmt ih =>
      rw [List.cons_append, List.takeWhile_cons, List.takeWhile_cons, ih]
  have hdrop (fmt : List Char) :
      (fmt ++ ['\x00']).dropWhile Char.isDigit = fmt.dropWhile Char.isDigit ++ ['\x00'] := by
    induction fmt with
    | nil => rfl
    | cons c fmt ih =>
      rw [List.cons_append, List.dropWhile_cons, List.dropWhile_cons, ih]
      split <;> rfl
  rw [stripWidth, htake, hdrop]
  rfl

theorem stripLong_end (fmt : List Char) :
    stripLong (fmt ++ ['\x00']) = ((stripLong fmt).1, (stripLong fmt).2 ++ ['\x00']) := by
  have hother {c : Char} (hc : c ≠ 'l') (cs : List Char) : stripLong (c :: cs) = (false, c :: cs) := by
    unfold stripLong
    split
    · next h => exact absurd (List.cons.inj h).1 hc
    · next h => exact absurd (List.cons.inj h).1 hc
    · rfl
  have hone {d : Char} (hd : d ≠ 'l') (cs : List Char) :
      stripLong ('l' :: d :: cs) = (false, d :: cs) := by
    unfold stripLong
    split
    · next h => exact absurd (List.cons.inj (List.cons.inj h).2).1 hd
    · next h => rw [(List.cons.inj h).2]
    · next h => exact absurd rfl (h _)
  cases fmt with
  | nil => rfl
  | cons c fmt =>
    by_cases hc : c = 'l'
    · subst hc
      cases fmt with
      | nil => rfl
      | cons d fmt =>
        by_cases hd : d = 'l'
        · rw [hd]
          rfl
        · rw [List.cons_append, List.cons_append, hone hd, hone hd]
          rfl
    · rw [List.cons_append, hother hc, hother hc]
      rfl

theorem options_end (fmt : List Char) :
    options (fmt ++ ['\x00']) = ((options fmt).1, (options fmt).2 ++ ['\x00']) := by
  simp only [options, stripLead_end, stripWidth_end, stripLong_end]

end Formats

section Writing

variable {size : ℕ} {s : Output} {text : List Char}

structure Wrote (size : ℕ) (s : Output) (text : List Char) : Prop where
  length_eq : s.buf.length = size + 1
  i_eq : s.i = text.length
  le : text.length ≤ size
  take_eq : s.buf.take s.i = text

theorem Wrote.put (h : Wrote size s text) (hroom : text.length < size) (c : Char) :
    ∃ s', s.put c = some s' ∧ Wrote size s' (text ++ [c]) := by
  have hi := h.i_eq
  have hlen := h.length_eq
  have hstore : s.i + [c].length ≤ s.buf.length := by
    rw [List.length_singleton]
    omega
  rw [Output.put, store_room hstore, h.take_eq]
  refine ⟨_, rfl, ?_, ?_, ?_, ?_⟩
  · simp only [List.length_append, List.length_drop, List.length_singleton]
    omega
  · rw [List.length_append, List.length_singleton, hi]
  · rw [List.length_append, List.length_singleton]
    exact hroom
  · dsimp only
    rw [← List.append_assoc]
    exact List.take_left' (by rw [List.length_append, List.length_singleton, hi])

theorem Wrote.terminate (h : Wrote size s text) :
    ∃ s', s.put '\x00' = some s' ∧ s'.buf.length = size + 1 ∧ s'.buf[s.i]? = some '\x00' ∧
      s'.buf.take s.i = text := by
  have hi := h.i_eq
  have hle := h.le
  have hlen := h.length_eq
  have hstore : s.i + ['\x00'].length ≤ s.buf.length := by
    rw [List.length_singleton]
    omega
  rw [Output.put, store_room hstore, h.take_eq, hi]
  refine ⟨_, rfl, ?_, ?_, ?_⟩
  · simp only [List.length_append, List.length_drop, List.length_singleton]
    omega
  · rw [List.getElem?_append_right le_rfl, Nat.sub_self]
    rfl
  · exact List.take_left

theorem Wrote.cut (h : Wrote size s text) : Wrote size s (text.take size) := by
  rw [List.take_of_length_le h.le]
  exact h

theorem Wrote.copy (h : Wrote size s text) (cs : List Char) :
    ∃ s', s.copy size cs = some s' ∧ Wrote size s' ((text ++ cs).take size) := by
  induction cs generalizing s text with
  | nil =>
    rw [List.append_nil]
    exact ⟨s, rfl, h.cut⟩
  | cons c cs ih =>
    rw [Output.copy]
    by_cases hroom : s.i < size
    · rw [if_pos hroom]
      obtain ⟨s', hput, hwrote⟩ := h.put (h.i_eq ▸ hroom) c
      rw [hput, Option.bind_some, List.append_cons]
      exact ih hwrote
    · rw [if_neg hroom]
      refine ⟨s, rfl, ?_⟩
      have hi := h.i_eq
      have hle := h.le
      rw [List.take_append_of_le_length (by omega), List.take_of_length_le hle]
      exact h

end Writing

section Directives

variable {size : ℕ} {s : Output} {p : Progress} {o : Options} {conv : Conversion} {is64bit : Bool}
  {c : Char}

theorem vaArg_cons {a : Arg} {ap : List Arg} {k : Kind} (h : a.kind = k) :
    vaArg k (a :: ap) = some (a, ap) := if_pos h

theorem uval_lt_of_int {a : Arg} (h : a.kind = .int) (sign : Bool) : a.uval sign < 2 ^ 32 := by
  cases a with
  | int val => exact UInt32.toNat_lt _
  | long val64 => cases h
  | string s => cases h

theorem uval_lt (a : Arg) (sign : Bool) : a.uval sign < 2 ^ 64 := by
  cases a with
  | int val => exact (UInt32.toNat_lt _).trans (by decide)
  | long val64 => exact UInt64.toNat_lt _
  | string s => exact Nat.two_pow_pos 64

theorem length_digitsOf (up : Bool) (base n : ℕ) :
    (digitsOf up base n).length = (Nat.toDigits base n).length := by
  unfold digitsOf
  cases up with
  | false => exact List.length_reverse
  | true => exact (List.length_map _).trans List.length_reverse

theorem length_digits {sign up wide : Bool} {base : ℕ} {a : Arg}
    (hconv : parseOption c is64bit = .number sign up base wide)
    (hkind : a.kind = if wide then .long else .int) :
    0 < (digitsOf up base (a.uval sign)).length ∧ (digitsOf up base (a.uval sign)).length ≤ 16 := by
  rw [length_digitsOf]
  refine ⟨Nat.length_toDigits_pos, ?_⟩
  have hbase : base = 10 ∧ wide = false ∨ base = 16 := by
    unfold parseOption at hconv
    split at hconv <;> cases hconv <;> simp only [true_and, or_true, true_or]
  obtain ⟨rfl, rfl⟩ | rfl := hbase
  · exact (Nat.length_toDigits_le_iff (by decide) (by decide)).mpr
      ((uval_lt_of_int hkind sign).trans (by decide))
  · exact (Nat.length_toDigits_le_iff (by decide) (by decide)).mpr (uval_lt a sign)

theorem formatNumber_safe {flag : Bool} {low : List Char}
    (h : (field o flag low).length ≤ tmpSize) : formatNumber o flag low = some (field o flag low) := by
  rw [formatNumber_eq]
  exact pushAll_room ((Nat.zero_add _).trans_le h)

theorem formatNumber_none {flag : Bool} {low : List Char}
    (h : ¬ (field o flag low).length ≤ tmpSize) : formatNumber o flag low = none := by
  rw [formatNumber_eq]
  exact pushAll_full (Nat.zero_le _) ((Nat.lt_of_not_le h).trans_eq (Nat.zero_add _).symm)

def Prints (size : ℕ) (p : Progress) (item : Item) (result : Option (List Arg × Output)) : Prop :=
  Safe size p item ∧ (∃ s', result = some ((advance item p).ap, s') ∧
      Wrote size s' ((advance item p).text.take size)) ∨
    ¬ Safe size p item ∧ result = none

theorem Wrote.convert (h : Wrote size s p.text) (hroom : p.text.length < size)
    (hwidth : -2 ^ 31 ≤ o.width ∧ o.width < 2 ^ 31) (hconv : parseOption c is64bit = conv)
    (htakes : Takes p (.directive o conv)) :
    Prints size p (.directive o conv) (s.convert size o conv p.ap) := by
  obtain ⟨ap, text⟩ := p
  dsimp only at h hroom
  have hput (c : Char) : ∃ s', s.put c = some s' ∧ Wrote size s' ((text ++ [c]).take size) := by
    obtain ⟨s', hs', hwrote⟩ := h.put hroom c
    exact ⟨s', hs', hwrote.cut⟩
  cases conv with
  | percent =>
    obtain ⟨s', hs', hwrote⟩ := hput '%'
    refine .inl ⟨fun _ => trivial, s', ?_, hwrote⟩
    rw [Output.convert, hs']
    rfl
  | char =>
    obtain ⟨a, rest, rfl, hkind⟩ := htakes _ rfl
    obtain ⟨s', hs', hwrote⟩ := hput a.byte
    refine .inl ⟨fun _ => trivial, s', ?_, hwrote⟩
    rw [Output.convert, vaArg_cons hkind, Option.bind_eq_bind, Option.bind_some]
    dsimp only
    rw [hs']
    rfl
  | string =>
    obtain ⟨a, rest, rfl, hkind⟩ := htakes _ rfl
    obtain ⟨s', hs', hwrote⟩ := h.copy a.text
    refine .inl ⟨fun _ => trivial, s', ?_, hwrote⟩
    rw [Output.convert, vaArg_cons hkind, Option.bind_eq_bind, Option.bind_some]
    dsimp only
    rw [hs']
    rfl
  | number sign up base wide =>
    obtain ⟨a, rest, rfl, hkind⟩ := htakes _ rfl
    obtain ⟨hpos, hle⟩ := length_digits hconv hkind
    have hfits := length_field_le_iff (a.flag sign) hwidth hpos hle
    by_cases hfield : (field o (a.flag sign) (digitsOf up base (a.uval sign))).length ≤ tmpSize
    · obtain ⟨s', hs', hwrote⟩ :=
        h.copy (field o (a.flag sign) (digitsOf up base (a.uval sign))).reverse
      refine .inl ⟨fun _ => hfits.mp hfield, s', ?_, hwrote⟩
      rw [Output.convert, vaArg_cons hkind, Option.bind_eq_bind, Option.bind_some]
      dsimp only
      rw [formatNumber_safe hfield, Option.bind_eq_bind, Option.bind_some, hs']
      rfl
    · refine .inr ⟨fun hsafe => hfield (hfits.mpr (hsafe hroom)), ?_⟩
      rw [Output.convert, vaArg_cons hkind, Option.bind_eq_bind, Option.bind_some]
      dsimp only
      rw [formatNumber_none hfield]
      rfl
  | other =>
    obtain ⟨s', hs', hwrote⟩ := hput '~'
    refine .inl ⟨fun _ => trivial, s', ?_, hwrote⟩
    rw [Output.convert, hs']
    rfl

end Directives

section Formatting

variable {size : ℕ} {fmt : List Char}

theorem run_text (p : Progress) (is : List Item) : ∃ more, (run advance p is).text = p.text ++ more := by
  induction is generalizing p with
  | nil => exact ⟨[], (List.append_nil _).symm⟩
  | cons item is ih =>
    obtain ⟨more, hmore⟩ := ih (advance item p)
    refine ⟨item.text p.next ++ more, ?_⟩
    rw [← List.append_assoc]
    exact hmore

variable {p : Progress}

theorem safe_of_full (hfull : size ≤ p.text.length) (is : List Item) :
    Meets advance (Safe size) p is := by
  induction is generalizing p with
  | nil => trivial
  | cons item is ih =>
    refine ⟨fun hroom => absurd hroom (not_lt.mpr hfull), ih ?_⟩
    rw [advance, List.length_append]
    exact hfull.trans (Nat.le_add_right _ _)

def Formats (size : ℕ) (p : Progress) (is : List Item) (result : Option Output) : Prop :=
  Meets advance (Safe size) p is ∧
      (∃ s, result = some s ∧ Wrote size s ((run advance p is).text.take size)) ∨
    ¬ Meets advance (Safe size) p is ∧ result = none

variable {s : Output} {is : List Item}

theorem formats_full (h : Wrote size s (p.text.take size)) (hfull : size ≤ p.text.length)
    (is : List Item) : Formats size p is (some s) := by
  refine .inl ⟨safe_of_full hfull is, s, rfl, ?_⟩
  obtain ⟨more, hmore⟩ := run_text p is
  rw [hmore, List.take_append_of_le_length hfull]
  exact h

theorem formats_next {item : Item} {result : Option Output} (hsafe : Safe size p item)
    (h : Formats size (advance item p) is result) : Formats size p (item :: is) result := by
  obtain ⟨hmeets, hprinted⟩ | ⟨hmeets, hnone⟩ := h
  · exact .inl ⟨⟨hsafe, hmeets⟩, hprinted⟩
  · exact .inr ⟨fun h => hmeets h.2, hnone⟩

theorem formats_none {item : Item} (hsafe : ¬ Safe size p item) :
    Formats size p (item :: is) none :=
  .inr ⟨fun h => hsafe h.1, rfl⟩

section Loop

variable {ap : List Arg} {s : Output}

theorem loop_full (h : ¬ s.i < size) : loop size fmt ap s = some s := by
  rw [loop.eq_def, if_neg h]

theorem loop_past (h : s.i < size) : loop size [] ap s = none := by
  rw [loop, if_pos h]

theorem loop_nul (h : s.i < size) : loop size ('\x00' :: fmt) ap s = some s := by
  rw [loop, if_pos h]
  rfl

theorem loop_char {c : Char} (h : s.i < size) (hnul : c ≠ '\x00') (hc : c ≠ '%') :
    loop size (c :: fmt) ap s = (s.put c).bind (loop size fmt ap) := by
  rw [loop, if_pos h]
  dsimp only
  rw [if_neg hnul, if_pos hc]
  rfl

theorem loop_directive (h : s.i < size) :
    loop size ('%' :: fmt) ap s = (options fmt).2.head?.bind fun c =>
      (s.convert size (options fmt).1 (parseOption c (options fmt).1.is64bit) ap).bind fun r =>
        loop size (options fmt).2.tail r.1 r.2 := by
  rw [loop, if_pos h]
  dsimp only
  rw [if_neg (by decide), if_neg (by decide)]
  rfl

end Loop

theorem formats_of_room (h : Wrote size s (p.text.take size))
    (hroom : p.text.length < size → s.i < size → Wrote size s p.text →
      Formats size p is (loop size fmt p.ap s)) : Formats size p is (loop size fmt p.ap s) := by
  have hi := h.i_eq
  rw [List.length_take] at hi
  by_cases hfull : size ≤ p.text.length
  · rw [loop_full (by omega)]
    exact formats_full h hfull is
  · rw [List.take_of_length_le (by omega)] at h
    exact hroom (by omega) (by omega) h

theorem loop_formats (h : Wrote size s (p.text.take size)) (hfmt : '\x00' ∉ fmt)
    (htakes : Meets advance Takes p (items fmt)) :
    Formats size p (items fmt) (loop size (fmt ++ ['\x00']) p.ap s) := by
  induction fmt using items.induct generalizing p s with
  | case1 =>
    refine formats_of_room h fun hroom hi hwrote => ?_
    rw [List.nil_append, loop_nul hi, items]
    exact .inl ⟨trivial, s, rfl, h⟩
  | case2 c fmt hc ih =>
    refine formats_of_room h fun hroom hi hwrote => ?_
    rw [List.mem_cons, not_or] at hfmt
    rw [items, if_pos hc] at htakes ⊢
    obtain ⟨s', hput, hs'⟩ := hwrote.put hroom c
    rw [List.cons_append, loop_char hi (Ne.symm hfmt.1) hc, hput, Option.bind_some]
    exact formats_next (fun _ => trivial) (ih hs'.cut hfmt.2 htakes.2)
  | case3 c fmt hc hnone =>
    refine formats_of_room h fun hroom hi hwrote => ?_
    obtain rfl := not_not.mp hc
    have hitems : items ('%' :: fmt) = [.cut] := by
      rw [items, if_neg hc, hnone]
    rw [List.head?_eq_none_iff] at hnone
    obtain ⟨s', hput, hs'⟩ := hwrote.put hroom '~'
    have hprinted : s.convert size (options fmt).1 .other p.ap = some (p.ap, s') := by
      rw [Output.convert, hput]
      rfl
    rw [List.cons_append, loop_directive hi, options_end, hnone, hitems]
    change Formats size p [.cut] ((s.convert size (options fmt).1 .other p.ap).bind fun r =>
      loop size [] r.1 r.2)
    rw [hprinted, Option.bind_some]
    have hi' : s'.i = p.text.length + 1 := hs'.i_eq.trans List.length_append
    by_cases hmore : s'.i < size
    · rw [loop_past hmore]
      exact formats_none fun hsafe => absurd (hsafe hroom) (by omega)
    · rw [loop_full hmore]
      exact .inl ⟨⟨fun _ => by omega, trivial⟩, s', rfl, hs'.cut⟩
  | case4 c fmt hc conv hsome ih =>
    refine formats_of_room h fun hroom hi hwrote => ?_
    obtain rfl := not_not.mp hc
    have hitems : items ('%' :: fmt) =
        .directive (options fmt).1 (parseOption conv (options fmt).1.is64bit) ::
          items (options fmt).2.tail := by
      rw [items, if_neg hc, hsome]
    obtain ⟨rest, hrest⟩ := List.head?_eq_some_iff.mp hsome
    have hbehind : '\x00' ∉ rest := fun hmem => hfmt (List.mem_cons_of_mem _
      ((options_suffix fmt).subset (hrest ▸ List.mem_cons_of_mem conv hmem)))
    rw [hrest, List.tail_cons] at ih hitems
    rw [hitems] at htakes ⊢
    have hprints := hwrote.convert hroom (stripWidth_range _) rfl htakes.1
    rw [List.cons_append, loop_directive hi, options_end, hrest]
    dsimp only [List.cons_append, List.head?_cons, List.tail_cons]
    rw [Option.bind_some]
    obtain ⟨hsafe, s', hs', hwrote'⟩ | ⟨hbad, hnone⟩ := hprints
    · rw [hs', Option.bind_some]
      exact formats_next hsafe (ih hwrote' hbehind htakes.2)
    · rw [hnone]
      exact formats_none hbad

end Formatting

def InBounds (buf : List Char) (result : Option (ℕ × List Char)) : Prop :=
  ∃ i out, result = some (i, out) ∧ out.length = buf.length ∧ i < buf.length ∧ out[i]? = some '\x00'

section Calls

variable {buf fmt : List Char} {size : UInt32} {ap : List Arg}

theorem toNat_pred (hsize : 0 < size) : (size - 1).toNat + 1 = size.toNat := by
  have hpos : 0 < size.toNat := hsize
  have hlt := size.toNat_lt
  rw [UInt32.toNat_sub]
  change (2 ^ 32 - 1 + size.toNat) % 2 ^ 32 + 1 = _
  omega

theorem loop_call (hsize : 0 < size) (hbuf : buf.length = size.toNat) (hfmt : '\x00' ∉ fmt)
    (hap : Meets advance Takes ⟨ap, []⟩ (items fmt)) :
    Formats (size - 1).toNat ⟨ap, []⟩ (items fmt)
      (loop (size - 1).toNat (fmt ++ ['\x00']) ap ⟨0, buf⟩) := by
  have hempty : Wrote (size - 1).toNat ⟨0, buf⟩ [] :=
    ⟨hbuf.trans (toNat_pred hsize).symm, rfl, Nat.zero_le _, rfl⟩
  exact loop_formats (p := ⟨ap, []⟩) hempty.cut hfmt hap

theorem vsnprintf_text (hsize : 0 < size) (hbuf : buf.length = size.toNat) (hfmt : '\x00' ∉ fmt)
    (hap : Meets advance Takes ⟨ap, []⟩ (items fmt))
    (hsafe : Meets advance (Safe (size - 1).toNat) ⟨ap, []⟩ (items fmt)) :
    ∃ i out, vsnprintf buf size (fmt ++ ['\x00']) ap = some (i, out) ∧ out.length = buf.length ∧
      i < buf.length ∧ out[i]? = some '\x00' ∧
        out.take i = (run advance ⟨ap, []⟩ (items fmt)).text.take (size - 1).toNat := by
  obtain ⟨-, s, hloop, hwrote⟩ | ⟨hbad, -⟩ := loop_call hsize hbuf hfmt hap
  · obtain ⟨s', hput, hlen, hnul, htext⟩ := hwrote.terminate
    have hi := hwrote.i_eq
    have hle := hwrote.le
    have hpred := toNat_pred hsize
    refine ⟨s.i, s'.buf, ?_, by omega, by omega, hnul, htext⟩
    rw [vsnprintf, hloop, Option.bind_eq_bind, Option.bind_some, hput]
    rfl
  · exact absurd hsafe hbad

end Calls

/-- It stays in its arrays exactly if every number fits `tmp` and no directive is cut off. -/
theorem vsnprintf_in_bounds_iff (buf fmt : List Char) (size : UInt32) (ap : List Arg)
    (hsize : 0 < size) (hbuf : buf.length = size.toNat) (hfmt : '\x00' ∉ fmt)
    (hap : Meets advance Takes ⟨ap, []⟩ (items fmt)) :
    InBounds buf (vsnprintf buf size (fmt ++ ['\x00']) ap) ↔
      Meets advance (Safe (size - 1).toNat) ⟨ap, []⟩ (items fmt) := by
  constructor
  · rintro ⟨i, out, hresult, -⟩
    obtain ⟨hsafe, -⟩ | ⟨-, hnone⟩ := loop_call hsize hbuf hfmt hap
    · exact hsafe
    · rw [vsnprintf, hnone] at hresult
      cases hresult
  · intro hsafe
    obtain ⟨i, out, hresult, hlen, hi, hnul, -⟩ := vsnprintf_text hsize hbuf hfmt hap hsafe
    exact ⟨i, out, hresult, hlen, hi, hnul⟩

theorem three_wide_in_bounds : InBounds (List.replicate 8 'x')
    (vsnprintf (List.replicate 8 'x') 8 (['%', '3', 'd'] ++ ['\x00']) [.int (-7)]) := by
  have hitems : items ['%', '3', 'd'] = [.directive ⟨false, 3, false⟩ (.number true false 10 false)] := by
    rw [items, if_neg (by decide)]
    change .directive ⟨false, 3, false⟩ (.number true false 10 false) :: items [] = _
    rw [items]
  refine (vsnprintf_in_bounds_iff _ _ _ _ (by decide) (by decide) (by decide) ?_).mpr ?_
  · rw [hitems]
    exact ⟨fun k hk => ⟨_, _, rfl, Option.some.inj hk⟩, trivial⟩
  · rw [hitems]
    exact ⟨fun _ => ⟨by decide, by decide⟩, trivial⟩

theorem directives_out_of_bounds :
    vsnprintf ['x', 'x'] 2 (['%', '4', '1', 'd'] ++ ['\x00']) [.int 1] = none ∧
      vsnprintf ['x', 'x', 'x'] 3 (['%'] ++ ['\x00']) [] = none := by
  decide +kernel

end SynaBoot.Vsnprintf
