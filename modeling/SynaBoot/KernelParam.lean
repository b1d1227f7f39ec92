import SynaBoot.PartTool

namespace SynaBoot.KernelParam

open SynaBoot.CText SynaBoot.PartTool

def units : List (List Char) := [[], ['K'], ['M'], ['G']]

def humanLoop : Nat → Nat → Nat → Nat × Nat
  | 0, i, size => (size, i)
  | n + 1, i, size => if size &&& 1023 ≠ 0 then (size, i) else humanLoop n (i + 1) (size >>> 10)

/-- A multiple of 1 TiB takes a unit from behind the table. -/
def humanFormat (size : Nat) : Option (List Char) :=
  let (size, i) := if 0 < size then humanLoop units.length 0 size else (size, 0)
  units[i]?.map fun unit => decimal (int64 size) ++ unit

/-- It stays 0 for the entry `-`. -/
def hasOffset (e : TableEntry) : Bool := '@' ∈ e.layout

def partText (e : TableEntry) : Option (List Char) := do
  let size ← humanFormat e.size
  let start ← humanFormat (uint64 e.start)
  some (size ++ (if hasOffset e then '@' :: start else []) ++ '(' :: e.name ++ [')', ','])

def mtdparts : List Char :=
  [' ', 'm', 't', 'd', 'p', 'a', 'r', 't', 's', '=', 'm', 'v', '_', 'n', 'a', 'n', 'd', ':']

/-- `kernel_param`, whose last character is cut off. -/
def kernelParam (table : List TableEntry) : Option (List Char) :=
  (table.mapM partText).map fun texts => (mtdparts ++ texts.flatten).dropLast

/-- A partition as the kernel reads it. -/
structure MtdPart where
  name : List Char
  start : Nat
  size : Nat
  deriving DecidableEq, Repr

def unitShift : Char → Option Nat
  | 'K' | 'k' => some 10
  | 'M' | 'm' => some 20
  | 'G' | 'g' => some 30
  | _ => none

/-- A number with its unit, and the text behind it. -/
def memparse (cs : List Char) : Nat × List Char :=
  match cs.dropWhile Char.isDigit with
  | [] => (digits cs, [])
  | c :: rest =>
    match unitShift c with
    | some n => (digits cs * 2 ^ n, rest)
    | none => (digits cs, c :: rest)

/-- Without `@` it starts where the previous one ends. -/
def readOffset (next : Nat) : List Char → Nat × List Char
  | '@' :: cs => memparse cs
  | cs => (next, cs)

def readName : List Char → Option (List Char × List Char)
  | '(' :: cs =>
    if ')' ∈ cs then some (cs.takeWhile (· ≠ ')'), (cs.dropWhile (· ≠ ')')).tail) else none
  | _ => none

def readPart (next : Nat) (cs : List Char) : Option (MtdPart × List Char) := do
  let (size, cs) := memparse cs
  let (start, cs) := readOffset next cs
  let (name, cs) ← readName cs
  some (⟨name, start, size⟩, cs)

def readParts : Nat → Nat → List Char → Option (List MtdPart)
  | 0, _, _ => none
  | n + 1, next, cs => do
    let (p, cs) ← readPart next cs
    match cs with
    | [] => some [p]
    | ',' :: cs => (readParts n (p.start + p.size) cs).map (p :: ·)
    | _ => none

def readMtdparts (text : List Char) : Option (List MtdPart) :=
  match (text.dropWhile (· ≠ ':')).tail with
  | [] => some []
  | cs => readParts cs.length 0 cs

section Human

theorem humanLoop_ends (n i size : Nat) :
    ∃ m j, humanLoop n i size = (m, i + j) ∧ size = m * 1024 ^ j ∧ (j < n ∧ m % 1024 ≠ 0 ∨ j = n) := by
  induction n generalizing i size with
  | zero => exact ⟨size, 0, rfl, by rw [pow_zero, Nat.mul_one], .inr rfl⟩
  | succ n ih =>
    have hmask : size &&& 1023 = size % 1024 := Nat.and_two_pow_sub_one_eq_mod size 10
    unfold humanLoop
    by_cases h : size % 1024 = 0
    · rw [if_neg (by rw [hmask, h]; simp), Nat.shiftRight_eq_div_pow]
      obtain ⟨m, j, hloop, hsize, hends⟩ := ih (i + 1) (size / 2 ^ 10)
      refine ⟨m, j + 1, ?_, ?_, ?_⟩
      · rw [hloop, Nat.add_assoc, Nat.add_comm 1 j]
      · rw [pow_succ, ← Nat.mul_assoc, ← hsize]
        omega
      · omega
    · rw [if_pos (by rw [hmask]; exact h)]
      exact ⟨size, 0, rfl, by rw [pow_zero, Nat.mul_one], .inl ⟨Nat.succ_pos n, h⟩⟩

theorem humanLoop_spec (n i size : Nat) (hpos : 0 < size) (hlt : size < 1024 ^ n) :
    ∃ m j, humanLoop n i size = (m, i + j) ∧ j < n ∧ size = m * 1024 ^ j := by
  obtain ⟨m, j, hloop, hsize, hends⟩ := humanLoop_ends n i size
  refine ⟨m, j, hloop, ?_, hsize⟩
  obtain ⟨hj, -⟩ | rfl := hends
  · exact hj
  · have hm : 0 < m := Nat.pos_of_ne_zero fun h => by
      rw [h, Nat.zero_mul] at hsize
      omega
    exact absurd (hsize ▸ hlt) (not_lt.mpr (Nat.le_mul_of_pos_left _ hm))

theorem humanFormat_eq {n : Nat} (h : n < 2 ^ 40) :
    ∃ m j unit, n = m * 1024 ^ j ∧ units[j]? = some unit ∧
      humanFormat n = some (Nat.toDigits 10 m ++ unit) := by
  have hdec {m : Nat} (hm : m < 2 ^ 40) : decimal (int64 m) = Nat.toDigits 10 m := by
    rw [int64_of_range ⟨by omega, by omega⟩, decimal_nat]
  unfold humanFormat
  by_cases h0 : 0 < n
  · obtain ⟨m, j, hloop, hj, hn⟩ := humanLoop_spec units.length 0 n h0 h
    have hm : m ≤ n := by
      rw [hn]
      exact Nat.le_mul_of_pos_right m (Nat.pow_pos (by decide))
    rw [Nat.zero_add] at hloop
    refine ⟨m, j, units[j], hn, List.getElem?_eq_getElem hj, ?_⟩
    simp only [if_pos h0, hloop, List.getElem?_eq_getElem hj, Option.map_some,
      hdec (hm.trans_lt h)]
  · obtain rfl : n = 0 := by omega
    exact ⟨0, 0, [], rfl, rfl, rfl⟩

def Ends (rest : List Char) : Prop :=
  ∃ c cs, rest = c :: cs ∧ c.isDigit = false ∧ unitShift c = none

theorem digits_toDigits_append (m : Nat) (rest : List Char)
    (h : ∀ c ∈ rest.head?, c.isDigit = false) :
    digits (Nat.toDigits 10 m ++ rest) = m ∧
      (Nat.toDigits 10 m ++ rest).dropWhile Char.isDigit = rest := by
  have hall : ∀ c ∈ Nat.toDigits 10 m, c.isDigit = true := fun c hc =>
    Nat.isDigit_of_mem_toDigits (by decide) (by decide) hc
  have htake : rest.takeWhile Char.isDigit = [] := by
    cases rest with
    | nil => rfl
    | cons c cs => rw [List.takeWhile_cons, h c rfl, if_neg (by decide)]
  have hdrop : rest.dropWhile Char.isDigit = rest := by
    cases rest with
    | nil => rfl
    | cons c cs => rw [List.dropWhile_cons, h c rfl, if_neg (by decide)]
  constructor
  · rw [digits, List.takeWhile_append_of_pos hall, htake, List.append_nil,
      Nat.ofDigitChars_ten_toDigits]
  · rw [List.dropWhile_append_of_pos hall, hdrop]

theorem unit_cases {j : Nat} {unit : List Char} (h : units[j]? = some unit) :
    j = 0 ∧ unit = [] ∨
      ∃ u, unit = [u] ∧ unitShift u = some (10 * j) ∧ u.isDigit = false ∧ u ≠ ')' := by
  obtain ⟨hj, rfl⟩ := List.getElem?_eq_some_iff.mp h
  change j < 4 at hj
  interval_cases j
  · exact .inl ⟨rfl, rfl⟩
  · exact .inr ⟨'K', rfl, rfl, rfl, by decide⟩
  · exact .inr ⟨'M', rfl, rfl, rfl, by decide⟩
  · exact .inr ⟨'G', rfl, rfl, rfl, by decide⟩

theorem memparse_humanFormat {n : Nat} (h : n < 2 ^ 40) :
    ∃ text, humanFormat n = some text ∧ ')' ∉ text ∧
      ∀ rest, Ends rest → memparse (text ++ rest) = (n, rest) := by
  obtain ⟨m, j, unit, rfl, hunit, htext⟩ := humanFormat_eq h
  have hdigit : ')' ∉ Nat.toDigits 10 m := fun hc =>
    absurd (Nat.isDigit_of_mem_toDigits (by decide) (by decide) hc) (by decide)
  refine ⟨_, htext, ?_, ?_⟩
  · rw [List.mem_append, not_or]
    refine ⟨hdigit, ?_⟩
    obtain ⟨-, rfl⟩ | ⟨u, rfl, -, -, hu⟩ := unit_cases hunit
    · exact List.not_mem_nil
    · rw [List.mem_singleton]
      exact hu.symm
  · rintro rest ⟨c, cs, rfl, hc, hshift⟩
    rw [List.append_assoc]
    obtain ⟨rfl, rfl⟩ | ⟨u, rfl, hu, hud, -⟩ := unit_cases hunit
    · rw [List.nil_append, pow_zero, Nat.mul_one]
      obtain ⟨hd, hrest⟩ := digits_toDigits_append m (c :: cs) (by simp [hc])
      simp only [memparse, hd, hrest, hshift]
    · rw [List.singleton_append, show 1024 = 2 ^ 10 from rfl, ← pow_mul]
      obtain ⟨hd, hrest⟩ := digits_toDigits_append m (u :: c :: cs) (by simp [hud])
      simp only [memparse, hd, hrest, hu]

end Human

structure Small (e : TableEntry) : Prop where
  nonneg : 0 ≤ e.start
  start_lt : e.start < 2 ^ 40
  size_lt : e.size < 2 ^ 40

def part (e : TableEntry) : MtdPart := ⟨e.name, e.start.toNat, e.size⟩

structure Reads (e : TableEntry) (text : List Char) : Prop where
  eq : partText e = some (text ++ [','])
  count : text.count ')' = e.name.count ')' + 1
  read : ')' ∉ e.name → ∀ (next : Nat) rest, ('@' ∉ e.layout → e.start = next) →
    readPart next (text ++ rest) = some (part e, rest)

theorem readOffset_at (next : Nat) (cs : List Char) : readOffset next ('@' :: cs) = memparse cs :=
  rfl

theorem readOffset_paren (next : Nat) (cs : List Char) :
    readOffset next ('(' :: cs) = (next, '(' :: cs) := rfl

theorem readName_append {name : List Char} (h : ')' ∉ name) (rest : List Char) :
    readName ('(' :: (name ++ ')' :: rest)) = some (name, rest) := by
  have hall : ∀ c ∈ name, decide (c ≠ ')') = true := fun c hc =>
    decide_eq_true (ne_of_mem_of_not_mem hc h)
  rw [readName, if_pos (by simp), List.takeWhile_append_of_pos hall,
    List.dropWhile_append_of_pos hall]
  simp

theorem exists_reads {e : TableEntry} (h : Small e) : ∃ text, Reads e text := by
  obtain ⟨hpos, hstart, hsize⟩ := h
  have hcast : uint64 e.start = e.start.toNat := by
    unfold uint64
    omega
  obtain ⟨sizeText, hs, hsc, hsr⟩ := memparse_humanFormat hsize
  obtain ⟨startText, ht, htc, htr⟩ := memparse_humanFormat (by omega : e.start.toNat < 2 ^ 40)
  have hparen (cs : List Char) : Ends ('(' :: cs) := ⟨'(', cs, rfl, rfl, rfl⟩
  have hat (cs : List Char) : Ends ('@' :: cs) := ⟨'@', cs, rfl, rfl, rfl⟩
  have hsc := List.count_eq_zero.mpr hsc
  have htc := List.count_eq_zero.mpr htc
  refine ⟨sizeText ++ ((if hasOffset e then '@' :: startText else []) ++ '(' :: (e.name ++ [')'])),
    ?_, ?_, ?_⟩
  · unfold partText
    rw [hs, hcast, ht]
    simp
  · have hif : (if hasOffset e then '@' :: startText else []).count ')' = 0 := by
      split
      · rw [List.count_cons, htc]
        rfl
      · rfl
    rw [List.count_append, List.count_append, hsc, hif, List.count_cons, List.count_append]
    simp
  · intro hname next rest hnext
    unfold readPart
    by_cases ho : '@' ∈ e.layout
    · have hoff : hasOffset e = true := decide_eq_true ho
      rw [hoff, if_pos rfl]
      simp only [List.append_assoc, List.cons_append, List.nil_append]
      rw [hsr _ (hat _)]
      dsimp only
      rw [readOffset_at, htr _ (hparen _), readName_append hname]
      rfl
    · have hoff : hasOffset e = false := decide_eq_false ho
      have hn : e.start.toNat = next := by rw [hnext ho, Int.toNat_natCast]
      rw [hoff, if_neg (by decide)]
      simp only [List.append_assoc, List.cons_append, List.nil_append]
      rw [hsr _ (hparen _)]
      dsimp only
      rw [readOffset_paren, readName_append hname, part, hn]
      rfl

theorem exists_texts {table : List TableEntry} (h : ∀ e ∈ table, Small e) :
    ∃ texts, List.Forall₂ Reads table texts := by
  induction table with
  | nil => exact ⟨[], .nil⟩
  | cons e es ih =>
    rw [List.forall_mem_cons] at h
    obtain ⟨text, ht⟩ := exists_reads h.1
    obtain ⟨texts, hts⟩ := ih h.2
    exact ⟨text :: texts, .cons ht hts⟩

section Texts

variable {table : List TableEntry} {texts : List (List Char)}

theorem mapM_partText (h : List.Forall₂ Reads table texts) :
    table.mapM partText = some (texts.map (· ++ [','])) := by
  induction h with
  | nil => rfl
  | cons h hs ih => simp [List.mapM_cons, h.eq, ih]

theorem dropLast_texts (h : texts ≠ []) :
    (texts.map (· ++ [','])).flatten ≠ [] ∧
      (texts.map (· ++ [','])).flatten.dropLast = [','].intercalate texts := by
  induction texts with
  | nil => exact absurd rfl h
  | cons t ts ih =>
    refine ⟨by simp, ?_⟩
    cases ts with
    | nil => simp
    | cons u us =>
      obtain ⟨hne, heq⟩ := ih (List.cons_ne_nil u us)
      rw [List.map_cons, List.flatten_cons, List.dropLast_append_of_ne_nil hne, heq,
        List.intercalate_cons_cons]

theorem kernelParam_eq (h : List.Forall₂ Reads table texts) (hne : table ≠ []) :
    kernelParam table = some (mtdparts ++ [','].intercalate texts) := by
  have htexts : texts ≠ [] := by
    rintro rfl
    exact hne (List.forall₂_nil_right_iff.mp h)
  obtain ⟨hf, heq⟩ := dropLast_texts htexts
  rw [kernelParam, mapM_partText h, Option.map_some, List.dropLast_append_of_ne_nil hf, heq]

theorem readMtdparts_append {body : List Char} (h : body ≠ []) :
    readMtdparts (mtdparts ++ body) = readParts body.length 0 body := by
  have hdrop : ((mtdparts ++ body).dropWhile (· ≠ ':')).tail = body := rfl
  unfold readMtdparts
  rw [hdrop]
  cases body with
  | nil => exact absurd rfl h
  | cons c cs => rfl

def Follows : Int → List TableEntry → Prop
  | _, [] => True
  | p, e :: es => ('@' ∉ e.layout → e.start = p) ∧ Follows (e.start + e.size) es

theorem readParts_texts (h : List.Forall₂ Reads table texts) (hne : table ≠ [])
    (hsmall : ∀ e ∈ table, Small e) (hname : ∀ e ∈ table, ')' ∉ e.name) (n next : Nat)
    (hn : table.length ≤ n) (hf : Follows next table) :
    readParts n next ([','].intercalate texts) = some (table.map part) := by
  induction h generalizing n next with
  | nil => exact absurd rfl hne
  | @cons e text es texts h hs ih =>
    rw [List.forall_mem_cons] at hsmall hname
    rw [List.length_cons] at hn
    obtain ⟨n, rfl⟩ := Nat.exists_eq_add_of_le' (by omega : 1 ≤ n)
    cases hs with
    | nil =>
      have hread := h.read hname.1 next [] hf.1
      rw [List.append_nil] at hread
      rw [List.intercalate_singleton, readParts, hread]
      rfl
    | @cons f t es texts h' hs =>
      have hnext : ((part e).start + (part e).size : Nat) = e.start + e.size := by
        have := hsmall.1.nonneg
        simp only [part]
        omega
      have hrest := ih (List.cons_ne_nil f es) hsmall.2 hname.2 n ((part e).start + (part e).size)
        (by omega) (hnext ▸ hf.2)
      rw [List.intercalate_cons_cons, List.append_assoc, readParts,
        h.read hname.1 next _ hf.1]
      simp only [List.singleton_append, Option.bind_eq_bind, Option.bind_some]
      rw [hrest]
      rfl

end Texts

section Count

theorem count_dropWhile {p : Char → Bool} (hp : p ')' = false) (cs : List Char) :
    (cs.dropWhile p).count ')' = cs.count ')' := by
  have htake : (cs.takeWhile p).count ')' = 0 := by
    apply List.count_eq_zero.mpr
    intro hc
    rw [List.mem_takeWhile_imp hc] at hp
    cases hp
  have happ := congrArg (List.count ')') (List.takeWhile_append_dropWhile (p := p) (l := cs))
  rw [List.count_append, htake, Nat.zero_add] at happ
  exact happ

theorem count_memparse (cs : List Char) : (memparse cs).2.count ')' = cs.count ')' := by
  rw [← count_dropWhile (by decide : Char.isDigit ')' = false) cs]
  unfold memparse
  cases cs.dropWhile Char.isDigit with
  | nil => rfl
  | cons c rest =>
    dsimp only
    cases hu : unitShift c with
    | none => rfl
    | some n =>
      have hc : c ≠ ')' := by
        rintro rfl
        cases hu
      rw [List.count_cons_of_ne hc]

theorem count_readOffset (next : Nat) (cs : List Char) :
    (readOffset next cs).2.count ')' = cs.count ')' := by
  unfold readOffset
  split
  · rw [count_memparse, List.count_cons_of_ne (by decide)]
  · rfl

theorem count_readName {cs name rest : List Char} (h : readName cs = some (name, rest)) :
    cs.count ')' = rest.count ')' + 1 := by
  unfold readName at h
  split at h
  case h_2 => cases h
  case h_1 cs =>
    obtain ⟨hmem, h⟩ := Option.ite_none_right_eq_some.mp h
    obtain ⟨rfl, rfl⟩ := Prod.mk.inj (Option.some.inj h)
    have happ := count_dropWhile (p := (· ≠ ')')) (by decide) cs
    rw [List.count_cons_of_ne (by decide), ← happ]
    cases hd : cs.dropWhile (· ≠ ')') with
    | nil =>
      rw [hd] at happ
      exact absurd (List.count_pos_iff.mpr hmem) (by rw [← happ]; simp)
    | cons c rest =>
      have hc : c = ')' := by
        have := List.head?_dropWhile_not (· ≠ ')') cs
        rw [hd] at this
        simpa using this
      rw [hc, List.count_cons_self, List.tail_cons]

theorem length_readParts (n next : Nat) (cs : List Char) (ps : List MtdPart)
    (h : readParts n next cs = some ps) : ps.length = cs.count ')' := by
  induction n generalizing next cs ps with
  | zero => cases h
  | succ n ih =>
    simp only [readParts, readPart, Option.bind_eq_bind, Option.bind_eq_some_iff, Prod.exists,
      Option.some.injEq, Prod.mk.injEq] at h
    obtain ⟨p, rest, ⟨name, rest', hname, rfl, rfl⟩, h⟩ := h
    have hcount := count_readName hname
    rw [count_readOffset, count_memparse] at hcount
    rw [hcount]
    split at h
    · obtain rfl := Option.some.inj h
      rfl
    · obtain ⟨qs, hq, rfl⟩ := Option.map_eq_some_iff.mp h
      rw [List.length_cons, ih _ _ _ hq, List.count_cons_of_ne (by decide)]
    · cases h

theorem count_texts {table : List TableEntry} {texts : List (List Char)}
    (h : List.Forall₂ Reads table texts) :
    ([','].intercalate texts).count ')' =
      table.length + (table.map fun e => e.name.count ')').sum := by
  induction h with
  | nil => rfl
  | @cons e text es texts h hs ih =>
    rw [List.length_cons, List.map_cons, List.sum_cons]
    cases hs with
    | nil =>
      rw [List.intercalate_singleton, h.count]
      simp
      omega
    | cons h' hs =>
      rw [List.intercalate_cons_cons, List.count_append, List.count_append, h.count, ih]
      simp
      omega

end Count

end SynaBoot.KernelParam
