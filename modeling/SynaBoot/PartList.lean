import SynaBoot.GptLookup
import SynaBoot.PartTool

namespace SynaBoot.PartList

open SynaBoot.CText SynaBoot.PartTool SynaBoot.Emmcburn SynaBoot.GptLookup

def toM : Nat := 2048

/-- The name behind the first `@`, if it has one. -/
def nameStart (name : List Char) : List Char :=
  if '@' ∈ name then (name.dropWhile (· ≠ '@')).tail else name

def startInM (e : TableEntry) : Nat := uint32 (e.start.tdiv (toM * sectorSize : Nat))
def sizeInM (e : TableEntry) : Nat := uint32 (e.size / (toM * sectorSize) : Nat)

def startColumn (offsetFromPrev start : Nat) : List Char :=
  if offsetFromPrev = start then ['0'] else decimal (int32 start)

def partListRow (name start size option : List Char) : List Char :=
  padRight 16 name ++ ',' :: (start ++ '\t' :: ',' :: (size ++ '\t' :: ',' ::
    (padRight 16 option ++ ['\n'])))

def partOption (half : Option Nat) (i : Nat) : List Char :=
  if half = some i then "enhanced".toList else []

def partListRows (half : Option Nat) : Nat → Nat → List TableEntry → List Char
  | _, _, [] => []
  | i, offsetFromPrev, e :: es =>
    partListRow (nameStart e.name) (startColumn offsetFromPrev (startInM e))
        (decimal (int32 (sizeInM e))) (partOption half i) ++
      partListRows half (i + 1) (uint32 (startInM e + sizeInM e)) es

def genEmmcPartList (table : List TableEntry) (half : Option Nat) : List Char :=
  ['#', 'G', 'P', 'T', '\n'] ++ partListRows half 0 0 table

def partRecord (e : TableEntry) : Nat × Nat :=
  (uint32 (e.start.tdiv sectorSize), uint32 (e.size / sectorSize : Nat))

def startSector (e : TableEntry) : Nat := e.start.toNat / sectorSize
def sectors (e : TableEntry) : Nat := e.size / sectorSize

structure InTable (e : TableEntry) : Prop where
  start_nonneg : 0 ≤ e.start
  start_lt : e.start < 2 ^ 41
  size_lt : e.size < 2 ^ 41

instance (e : TableEntry) : Decidable (InTable e) :=
  decidable_of_iff (0 ≤ e.start ∧ e.start < 2 ^ 41 ∧ e.size < 2 ^ 41)
    ⟨fun h => ⟨h.1, h.2.1, h.2.2⟩, fun h => ⟨h.start_nonneg, h.start_lt, h.size_lt⟩⟩

structure Named (e : TableEntry) : Prop where
  fits : e.name.length ≤ partNameMaxLen
  char : ∀ c ∈ e.name, isSpace c = false ∧ c ≠ '\x00' ∧ c ≠ '#' ∧ c ≠ ','

section Text

def keep (c : Char) : Bool := c ≠ ' ' && c ≠ '\t' && c ≠ '\r'

def fieldChar (c : Char) : Bool := keep c && c ≠ '\x00' && c ≠ '\n' && c ≠ ','

def Field (l : List Char) : Prop := ∀ c ∈ l, fieldChar c = true

instance (l : List Char) : Decidable (Field l) := List.decidableBAll (fieldChar · = true) l

variable {name option start size l : List Char}

theorem processInput_eq {text : List Char} (h : '\x00' ∉ text) :
    processInput text = text.filter keep := by
  unfold processInput
  rw [List.takeWhile_eq_self_iff.mpr]
  · rfl
  · intro c hc
    exact decide_eq_true fun hn : c = '\x00' => h (hn ▸ hc)

theorem Field.not_mem (h : Field l) {c : Char} (hc : fieldChar c = false) : c ∉ l :=
  fun hm => Bool.false_ne_true (hc.symm.trans (h c hm))

theorem Field.filter (h : Field l) : l.filter keep = l := by
  refine List.filter_eq_self.mpr fun c hc => ?_
  have hf := h c hc
  unfold fieldChar at hf
  simp only [Bool.and_eq_true] at hf
  exact hf.1.1.1

theorem field_toDigits (n : Nat) : Field (Nat.toDigits 10 n) := by
  intro c hc
  have hd : c.isDigit = true := Nat.isDigit_of_mem_toDigits (by decide) (by decide) hc
  simp only [fieldChar, keep, Bool.and_eq_true, decide_eq_true_eq]
  refine ⟨⟨⟨⟨⟨?_, ?_⟩, ?_⟩, ?_⟩, ?_⟩, ?_⟩ <;> rintro rfl <;> exact absurd hd (by decide)

theorem Field.filter_padRight (h : Field l) (n : Nat) : (padRight n l).filter keep = l := by
  have hpad : (List.replicate (n - l.length) ' ').filter keep = [] := by
    refine List.filter_eq_nil_iff.mpr fun c hc => ?_
    rw [List.eq_of_mem_replicate hc]
    decide
  rw [padRight, List.filter_append, h.filter, hpad, List.append_nil]

structure Columns (name start size option : List Char) : Prop where
  name : Field name
  start : Field start
  size : Field size
  option : Field option

def rowText (name start size option : List Char) : List Char :=
  name ++ ',' :: (start ++ ',' :: (size ++ ',' :: option))

theorem Columns.fields_rowText (h : Columns name start size option) :
    fields ',' (rowText name start size option) =
      name :: start :: size :: if option = [] then [] else [option] := by
  unfold rowText
  rw [fields_append _ (h.name.not_mem rfl), fields_append _ (h.start.not_mem rfl),
    fields_append _ (h.size.not_mem rfl), fields_of_not_mem (h.option.not_mem rfl)]

theorem Columns.newline_not_mem (h : Columns name start size option) :
    '\n' ∉ rowText name start size option := by
  have hl := fun {l : List Char} (hl : Field l) => hl.not_mem (c := '\n') rfl
  simp only [rowText, List.mem_append, List.mem_cons, hl h.name, hl h.start, hl h.size, hl h.option]
  decide

theorem Columns.filter_partListRow (h : Columns name start size option) :
    (partListRow name start size option).filter keep = rowText name start size option ++ ['\n'] := by
  have hc : keep ',' = true := rfl
  have ht : ¬keep '\t' = true := by decide
  have hl : ['\n'].filter keep = ['\n'] := rfl
  unfold partListRow rowText
  simp only [List.filter_append, List.filter_cons_of_pos hc, List.filter_cons_of_neg ht, hl,
    h.name.filter_padRight, h.start.filter, h.size.filter, h.option.filter_padRight, List.append_assoc,
    List.cons_append]

theorem Columns.nul_not_mem (h : Columns name start size option) :
    '\x00' ∉ partListRow name start size option := by
  have hl := fun {l : List Char} (hl : Field l) => hl.not_mem (c := '\x00') rfl
  have hp : ∀ n, '\x00' ∉ List.replicate n ' ' := fun n hm =>
    absurd (List.eq_of_mem_replicate hm) (by decide)
  simp only [partListRow, padRight, List.mem_append, List.mem_cons, hl h.name, hl h.start,
    hl h.size, hl h.option, hp]
  decide

end Text

section Rows

variable {e : TableEntry} {table : List TableEntry}

theorem InTable.startInM_eq (h : InTable e) : startInM e = startSector e / toM := by
  have h0 := h.start_nonneg
  have h1 := h.start_lt
  unfold startInM startSector uint32
  rw [Int.tdiv_eq_ediv_of_nonneg h0]
  unfold toM sectorSize
  omega

theorem InTable.sizeInM_eq (h : InTable e) : sizeInM e = sectors e / toM := by
  have h1 := h.size_lt
  unfold sizeInM sectors uint32
  unfold toM sectorSize
  omega

theorem InTable.partRecord_eq (h : InTable e) : partRecord e = (startSector e, sectors e) := by
  have h0 := h.start_nonneg
  have h1 := h.start_lt
  have h2 := h.size_lt
  unfold partRecord startSector sectors uint32
  rw [Int.tdiv_eq_ediv_of_nonneg h0]
  unfold sectorSize
  refine Prod.ext ?_ ?_ <;> dsimp only <;> omega

theorem Named.field (h : Named e) : Field (nameStart e.name) := by
  have hall : Field e.name := by
    intro c hc
    obtain ⟨hs, hnul, -, hcomma⟩ := h.char c hc
    simp only [isSpace, Bool.or_eq_false_iff, decide_eq_false_iff_not] at hs
    simp only [fieldChar, keep, Bool.and_eq_true, decide_eq_true_eq]
    exact ⟨⟨⟨⟨⟨hs.1.1.1.1.1, hs.1.1.1.1.2⟩, hs.2⟩, hnul⟩, hs.1.1.1.2⟩, hcomma⟩
  unfold nameStart
  split
  · exact fun c hc => hall c ((List.dropWhile_sublist _).mem (List.mem_of_mem_tail hc))
  · exact hall

theorem Named.length_lt (h : Named e) : (nameStart e.name).length < partNameLen := by
  have hf : e.name.length < partNameLen := Nat.lt_of_le_of_lt h.fits (by decide)
  unfold nameStart
  split
  · have htail := (e.name.dropWhile (· ≠ '@')).length_tail
    have hdrop := (List.dropWhile_sublist (p := (· ≠ '@')) (l := e.name)).length_le
    omega
  · exact hf

theorem decimal_small {n : Nat} (h : n < 2 ^ 31) : decimal (int32 n) = Nat.toDigits 10 n := by
  rw [int32_of_range (by omega), decimal_nat]

theorem startSector_div_lt (h : InTable e) : startInM e < 2 ^ 21 := by
  have h1 := h.start_lt
  rw [h.startInM_eq]
  unfold startSector toM sectorSize
  omega

theorem sectors_div_lt (h : InTable e) : sizeInM e < 2 ^ 21 := by
  have h1 := h.size_lt
  rw [h.sizeInM_eq]
  unfold sectors toM sectorSize
  omega

theorem columns (ht : InTable e) (hn : Named e) (half : Option Nat) (i n : Nat) :
    Columns (nameStart e.name) (startColumn n (startInM e)) (decimal (int32 (sizeInM e)))
      (partOption half i) := by
  have hs := startSector_div_lt ht
  have hz := sectors_div_lt ht
  refine ⟨hn.field, ?_, ?_, ?_⟩
  · unfold startColumn
    split
    · decide
    · rw [decimal_small (by omega)]
      exact field_toDigits _
  · rw [decimal_small (by omega)]
    exact field_toDigits _
  · unfold partOption
    split <;> decide

def rowTexts (half : Option Nat) : Nat → Nat → List TableEntry → List (List Char)
  | _, _, [] => []
  | i, offsetFromPrev, e :: es =>
    rowText (nameStart e.name) (startColumn offsetFromPrev (startInM e))
        (decimal (int32 (sizeInM e))) (partOption half i) ::
      rowTexts half (i + 1) (uint32 (startInM e + sizeInM e)) es

theorem fields_partListRows (half : Option Nat) (i n : Nat)
    (h : ∀ e ∈ table, InTable e ∧ Named e) :
    fields '\n' ((partListRows half i n table).filter keep) = rowTexts half i n table := by
  induction table generalizing i n with
  | nil => rfl
  | cons e es ih =>
    obtain ⟨⟨ht, hn⟩, hes⟩ := List.forall_mem_cons.mp h
    have hc := columns ht hn half i n
    rw [partListRows, List.filter_append, hc.filter_partListRow, List.append_assoc,
      List.singleton_append, fields_append _ hc.newline_not_mem, ih _ _ hes]
    rfl

theorem nul_not_mem_partListRows (half : Option Nat) (i n : Nat)
    (h : ∀ e ∈ table, InTable e ∧ Named e) : '\x00' ∉ partListRows half i n table := by
  induction table generalizing i n with
  | nil => exact List.not_mem_nil
  | cons e es ih =>
    obtain ⟨⟨ht, hn⟩, hes⟩ := List.forall_mem_cons.mp h
    rw [partListRows, List.mem_append, not_or]
    exact ⟨(columns ht hn half i n).nul_not_mem, ih _ _ hes⟩

theorem lines_genEmmcPartList (half : Option Nat) (h : ∀ e ∈ table, InTable e ∧ Named e) :
    fields '\n' (processInput (genEmmcPartList table half)) =
      ['#', 'G', 'P', 'T'] :: rowTexts half 0 0 table := by
  have hnul : '\x00' ∉ genEmmcPartList table half := by
    unfold genEmmcPartList
    rw [List.mem_append, not_or]
    exact ⟨by decide, nul_not_mem_partListRows half 0 0 h⟩
  rw [processInput_eq hnul, genEmmcPartList, List.filter_append]
  change fields '\n' (['#', 'G', 'P', 'T'] ++ '\n' :: (partListRows half 0 0 table).filter keep) = _
  rw [fields_append _ (by decide), fields_partListRows half 0 0 h]

def laid : Nat → List TableEntry → List DiskPartition
  | _, [] => []
  | m, e :: es =>
    ⟨toM * m, toM * sizeInM e, nameStart e.name⟩ :: laid (m + sizeInM e) es

theorem createGptPartition_eq (name : List Char) {m z : Nat} (hm : m < 2 ^ 40) (hz : z < 2 ^ 40) :
    createGptPartition name m z = ⟨toM * m, toM * z, name⟩ := by
  have h : ∀ n : Nat, n < 2 ^ 40 →
      uint64 ((int64 ((n : Int) * 1024 * 1024)).tdiv 512) = toM * n := fun n hn => by
    rw [int64_of_range (by omega), Int.tdiv_eq_ediv_of_nonneg (by omega)]
    unfold uint64 toM
    omega
  unfold createGptPartition
  rw [h m hm, h z hz]

theorem strtoull_toDigits {n : Nat} (h : n < 2 ^ 31) : int64 (strtoull (Nat.toDigits 10 n)) = n := by
  have hmod : n % 2 ^ 64 = n := Nat.mod_eq_of_lt (h.trans (by decide))
  rw [strtoull, digits_toDigits, hmod]
  exact int64_of_range ⟨by omega, by omega⟩

theorem sizeColumn_value (h : InTable e) :
    int64 (strtoull (decimal (int32 (sizeInM e)))) = (sizeInM e : Int) := by
  have hlt := sectors_div_lt h
  rw [decimal_small (by omega), strtoull_toDigits (by omega)]

variable {acc : List DiskPartition}

theorem parseRows_full {p q : Int} {line name start size : List Char}
    {option rest : List (List Char)} (hlen : 1 < line.length)
    (hf : fields ',' line = name :: start :: size :: option) (ha : maxGptPtNum ≤ acc.length) :
    parseRows acc p q (line :: rest) = .overrun := by
  rw [parseRows, if_neg (by omega), hf]
  exact if_pos (.inr (.inr ha))

theorem parseRows_step {p q m z : Int} {line name start size : List Char}
    {option rest : List (List Char)} (hlen : 1 < line.length)
    (hf : fields ',' line = name :: start :: size :: option) (ho : option.length ≤ 1)
    (hn : name.length < partNameLen) (ha : acc.length < maxGptPtNum)
    (hm : (if acc.length = 0 then int64 (strtoull start) else int64 (p + q)) = m)
    (hz : int64 (strtoull size) = z) :
    parseRows acc p q (line :: rest) =
      parseRows (acc ++ [createGptPartition name m z]) m z rest := by
  rw [parseRows, if_neg (by omega), hf]
  dsimp only
  rw [if_neg (by omega), hm, hz]

theorem length_rowText (name start size option : List Char) :
    1 < (rowText name start size option).length := by
  simp only [rowText, List.length_append, List.length_cons]
  omega

theorem length_option_le (o : List Char) : (if o = [] then [] else [o]).length ≤ 1 := by
  split <;> simp

theorem parseRows_rowTexts {p q : Nat} (half : Option Nat) (i n : Nat)
    (h : ∀ e ∈ table, InTable e ∧ Named e) (hne : acc.length ≠ 0) (hle : acc.length ≤ maxGptPtNum)
    (hb : p + q < 2 ^ 21 * (acc.length + 1)) :
    parseRows acc p q (rowTexts half i n table) =
      if acc.length + table.length ≤ maxGptPtNum then .done (acc ++ laid (p + q) table) []
      else .overrun := by
  induction table generalizing acc p q i n with
  | nil =>
    rw [if_pos (by simpa using hle)]
    simp [rowTexts, parseRows, laid]
  | cons e es ih =>
    obtain ⟨⟨ht, hn⟩, hes⟩ := List.forall_mem_cons.mp h
    have hlt := sectors_div_lt ht
    have hf := (columns ht hn half i n).fields_rowText
    have hlen := length_rowText (nameStart e.name) (startColumn n (startInM e))
      (decimal (int32 (sizeInM e))) (partOption half i)
    rw [rowTexts]
    by_cases hfull : maxGptPtNum ≤ acc.length
    · rw [parseRows_full hlen hf hfull, if_neg]
      rw [List.length_cons]
      omega
    · have hsmall : p + q < 2 ^ 40 := by
        unfold maxGptPtNum at hfull
        omega
      have hm : int64 ((p : Int) + q) = (p + q : Nat) := by
        rw [← Int.natCast_add]
        exact int64_of_range ⟨by omega, by omega⟩
      have hacc (x : DiskPartition) : (acc ++ [x]).length = acc.length + 1 := by simp
      rw [parseRows_step hlen hf (length_option_le _) hn.length_lt (by omega)
        ((if_neg hne).trans hm) (sizeColumn_value ht), createGptPartition_eq _ hsmall (by omega),
        ih _ _ hes (by rw [hacc]; omega) (by rw [hacc]; omega) (by rw [hacc]; omega), hacc,
        List.length_cons, List.append_assoc, Nat.add_assoc acc.length, Nat.add_comm 1]
      rfl

theorem parseRows_first (half : Option Nat) (h : ∀ f ∈ e :: table, InTable f ∧ Named f) :
    parseRows [] 0 0 (rowTexts half 0 0 (e :: table)) =
      if (e :: table).length ≤ maxGptPtNum then .done (laid (startInM e) (e :: table)) []
      else .overrun := by
  obtain ⟨⟨ht, hn⟩, hes⟩ := List.forall_mem_cons.mp h
  have hm := startSector_div_lt ht
  have hz := sectors_div_lt ht
  have hf := (columns ht hn half 0 0).fields_rowText
  have hs : int64 (strtoull (startColumn 0 (startInM e))) = (startInM e : Int) := by
    unfold startColumn
    by_cases h0 : 0 = startInM e
    · rw [if_pos h0, ← h0]
      decide
    · rw [if_neg h0, decimal_small (by omega), strtoull_toDigits (by omega)]
  rw [rowTexts, parseRows_step (length_rowText _ _ _ _) hf (length_option_le _) hn.length_lt
    (by decide) ((if_pos rfl).trans hs) (sizeColumn_value ht), createGptPartition_eq _ (by omega) (by omega),
    List.nil_append, parseRows_rowTexts half _ _ hes (by simp) (by simp [maxGptPtNum])
      (by rw [List.length_singleton]; omega), List.length_singleton, List.length_cons,
    Nat.add_comm 1]
  rfl

end Rows

section Names

variable {blockSize : Int} {e e' : TableEntry} {es es' : List TableEntry} {s s' : Scan}

/-- The name of an entry as `sscanf` reads it. -/
def WordName (e : TableEntry) : Prop :=
  e.name.length ≤ partNameMaxLen ∧ ∀ c ∈ e.name, isSpace c = false ∧ c ≠ '\x00' ∧ c ≠ '#'

theorem word_spec {cs w rest : List Char} (h : word cs = some (w, rest)) :
    (∀ c ∈ w, isSpace c = false ∧ c ∈ cs) ∧ ∀ c ∈ rest, c ∈ cs := by
  have hsub := (List.dropWhile_sublist (p := isSpace) (l := cs)).subset
  unfold word at h
  generalize cs.dropWhile isSpace = ds at h hsub
  cases ds with
  | nil => cases h
  | cons d ds =>
    simp only [Option.some.injEq, Prod.mk.injEq] at h
    obtain ⟨rfl, rfl⟩ := h
    refine ⟨fun c hc => ⟨?_, hsub ((List.takeWhile_sublist _).mem hc)⟩, fun c hc =>
      hsub ((List.dropWhile_sublist _).mem hc)⟩
    simpa using List.mem_takeWhile_imp hc

theorem scanEmmc_name {line : List Char} (hl : ∀ c ∈ line, c ≠ '\x00' ∧ c ≠ '#')
    (h : scanEmmc line = some e) : WordName e := by
  simp only [scanEmmc, Option.bind_eq_bind, Option.bind_eq_some_iff, Prod.exists] at h
  obtain ⟨layout, cs, hlayout, name, cs', hname, operation, cs'', -, h⟩ := h
  split at h
  case isFalse => cases h
  case isTrue hf =>
    obtain rfl := Option.some.inj h
    simp only [Bool.and_eq_true] at hf
    refine ⟨of_decide_eq_true hf.1.1.2, fun c hc => ?_⟩
    obtain ⟨hs, hm⟩ := (word_spec hname).1 c hc
    exact ⟨hs, hl c ((word_spec hlayout).2 c hm)⟩

theorem parseLayout_name (h : parseLayout blockSize e = some e') : e'.name = e.name := by
  simp only [parseLayout, Option.ite_none_left_eq_some, Option.some.injEq] at h
  obtain ⟨-, rfl⟩ := h
  rfl

theorem ite_halve_name (p : Prop) [Decidable p] (e : TableEntry) :
    (if p then halve e else e).name = e.name := by
  split <;> rfl

theorem ite_start_name (p : Prop) [Decidable p] (e : TableEntry) (x : Int) :
    (if p then { e with start := x } else e).name = e.name := by
  split <;> rfl

theorem addEntry_names (h : addEntry blockSize s e = some s') :
    s'.table.map (·.name) = s.table.map (·.name) ++ [e.name] := by
  simp only [addEntry, Option.ite_none_left_eq_some] at h
  replace h := h.2
  generalize (if e.layout = ['-'] then some s.table.length else s.entry) = entry at h
  split at h
  · obtain rfl := Option.some.inj h
    simp
  · simp only [Option.bind_eq_bind, Option.bind_eq_some_iff, Option.ite_none_left_eq_some,
      Option.some.injEq] at h
    obtain ⟨f, hf, -, rfl⟩ := h
    rw [List.map_append, List.map_singleton, ite_start_name, ite_halve_name, parseLayout_name hf]

theorem markEnhanced_table {mode : Mode} (h : markEnhanced mode s e = some s') :
    s'.table = s.table := by
  unfold markEnhanced at h
  split at h
  · simp only [Option.ite_none_left_eq_some] at h
    replace h := h.2
    split at h
    · cases h
      rfl
    · cases h
      rfl
    · cases h
  · cases h
    rfl

theorem readLine_names {line : List Char} (hs : ∀ f ∈ s.table, WordName f)
    (h : readLine .emmcGpt blockSize s line = some s') : ∀ f ∈ s'.table, WordName f := by
  unfold readLine at h
  dsimp only at h
  split at h
  · cases h
    exact hs
  · simp only [reduceCtorEq, if_false, Option.bind_eq_bind, Option.bind_eq_some_iff,
      Option.ite_none_left_eq_some] at h
    obtain ⟨e, he, s₁, h₁, -, h⟩ := h
    have hw : WordName e := by
      refine scanEmmc_name (fun c hc => ?_) he
      have hline := List.mem_takeWhile_imp hc
      simp only [Bool.and_eq_true, decide_eq_true_eq] at hline
      exact ⟨hline.2, hline.1⟩
    intro f hf
    have hmem : f.name ∈ s'.table.map (·.name) := List.mem_map_of_mem hf
    rw [addEntry_names h, markEnhanced_table h₁, List.mem_append, List.mem_singleton] at hmem
    unfold WordName at hs hw ⊢
    obtain hmem | hmem := hmem
    · obtain ⟨g, hg, hn⟩ := List.mem_map.mp hmem
      rw [← hn]
      exact hs g hg
    · rw [hmem]
      exact hw

theorem readLines_names {ls : List (List Char)} (hs : ∀ f ∈ s.table, WordName f)
    (h : readLines .emmcGpt blockSize s ls = some s') : ∀ f ∈ s'.table, WordName f := by
  induction ls generalizing s with
  | nil =>
    cases h
    exact hs
  | cons line ls ih =>
    simp only [readLines, Option.bind_eq_bind, Option.bind_eq_some_iff] at h
    obtain ⟨s₁, h₁, h⟩ := h
    exact ih (readLine_names hs h₁) h

theorem backward_names {half : Option Nat} {chipSize p c : Int} {i : Nat}
    (h : backward blockSize half chipSize i es = some (es', p, c)) :
    es'.map (·.name) = es.map (·.name) := by
  induction es generalizing i es' p c with
  | nil =>
    simp only [backward, Option.some.injEq, Prod.mk.injEq] at h
    rw [← h.1]
  | cons e es ih =>
    simp only [backward, Option.bind_eq_bind, Option.bind_eq_some_iff, Option.some.injEq,
      Prod.mk.injEq, Prod.exists] at h
    obtain ⟨es₁, p₁, c₁, h₁, f, hf, rfl, -, -⟩ := h
    rw [List.map_cons, List.map_cons, ih h₁, ite_start_name, ite_halve_name, parseLayout_name hf]

theorem backwardAgain_names {chipSize p : Int}
    (h : backwardAgain blockSize chipSize es = some (es', p)) :
    es'.map (·.name) = es.map (·.name) := by
  induction es generalizing es' p with
  | nil =>
    simp only [backwardAgain, Option.some.injEq, Prod.mk.injEq] at h
    rw [← h.1]
  | cons e es ih =>
    simp only [backwardAgain, Option.bind_eq_bind, Option.bind_eq_some_iff, Option.some.injEq,
      Prod.mk.injEq, Prod.exists] at h
    obtain ⟨es₁, p₁, h₁, f, hf, rfl, -⟩ := h
    rw [List.map_cons, List.map_cons, ih h₁, parseLayout_name hf]

theorem placeTail_names {t : List TableEntry} (h : placeTail blockSize s = some t) :
    t.map (·.name) = s.table.map (·.name) := by
  unfold placeTail at h
  split at h
  · cases h
    rfl
  · next i e hi =>
    obtain ⟨j, -, hj⟩ := Option.bind_eq_some_iff.mp hi
    obtain ⟨e₀, he, hje⟩ := Option.map_eq_some_iff.mp hj
    obtain ⟨rfl, rfl⟩ := Prod.mk.inj hje
    have hsplit : s.table = s.table.take j ++ e₀ :: s.table.drop (j + 1) := by
      have hlt := (List.getElem?_eq_some_iff.mp he).1
      rw [← (List.getElem?_eq_some_iff.mp he).2, ← List.drop_eq_getElem_cons hlt,
        List.take_append_drop]
    simp only [Option.bind_eq_bind, Option.bind_eq_some_iff, Option.ite_none_left_eq_some,
      Prod.exists] at h
    obtain ⟨tail, p, c, hb, -, h⟩ := h
    have hnames : s.table.map (·.name) =
        (s.table.take j).map (·.name) ++ e₀.name :: (s.table.drop (j + 1)).map (·.name) := by
      conv_lhs => rw [hsplit, List.map_append, List.map_cons]
    rw [hnames]
    split at h
    · simp only [Option.bind_eq_some_iff, Option.ite_none_left_eq_some, Prod.exists] at h
      obtain ⟨tail', p', ha, -, h⟩ := h
      obtain rfl := Option.some.inj h
      rw [List.map_append, List.map_cons, backwardAgain_names ha, backward_names hb]
      rfl
    · obtain rfl := Option.some.inj h
      rw [List.map_append, List.map_cons, backward_names hb]

theorem layoutTable_names {args : Args} {file : List Char} {table : List TableEntry}
    {half : Option Nat} (h : layoutTable .emmcGpt args file = some (table, half)) :
    ∀ e ∈ table, WordName e := by
  simp only [layoutTable, reduceCtorEq, if_true, if_false, Option.ite_none_left_eq_some,
    Option.bind_eq_bind, Option.bind_eq_some_iff, Option.some.injEq, Prod.mk.injEq, false_and]
    at h
  obtain ⟨-, s, hs, t, ht, -, rfl, -⟩ := h
  have hw := readLines_names (fun f hf => absurd hf List.not_mem_nil) hs
  intro e he
  have hmem : e.name ∈ t.map (·.name) := List.mem_map_of_mem he
  rw [placeTail_names ht] at hmem
  obtain ⟨g, hg, hn⟩ := List.mem_map.mp hmem
  unfold WordName at hw ⊢
  rw [← hn]
  exact hw g hg

end Names

end SynaBoot.PartList
