import SynaBoot.GptLookup

namespace SynaBoot.BurnLookup

open SynaBoot.CText SynaBoot.Emmcburn SynaBoot.GptLookup

def partitionNum (part index : ℕ) (cache : GptCache) : ℤ :=
  match getPartitionNum part index 0 0 cache.entries with
  | some i => i
  | none => -1

inductive Lookup where
  | error
  | boot (num : ℕ)
  | entry (part num : ℕ)
  deriving DecidableEq, Repr

def lookupEntry (part index : ℕ) (cache : GptCache) : Lookup :=
  let num := uint32 (partitionNum part index cache)
  if num < 0 then .error else .entry part num

/-- `pt_name[i]`; `gp1` is read behind its end. -/
def charAt (name : List Char) (i : ℕ) : Char := name.getD i '\x00'

def digitAt (name : List Char) (i : ℕ) : ℕ := uint32 ((charAt name i).toNat - '0'.toNat : ℤ)

def decode (name : List Char) : Option (ℕ × ℕ) :=
  if charAt name 0 = 's' ∧ charAt name 1 = 'd' then
    some (emmcPartUser, strtoull (name.drop 2) % 2 ^ 32)
  else if charAt name 0 = 'g' ∧ charAt name 1 = 'p' then
    if digitAt name 2 < 1 ∨ 4 < digitAt name 2 then none
    else some (3 + digitAt name 2, strtoull (name.drop 4) % 2 ^ 32)
  else none

def lookup (name : List Char) (b : Burner) : Lookup × Burner :=
  let b := readAllGptPartitionInfo b
  let l :=
    if charAt name 0 = 'b' then
      if digitAt name 1 ≠ 1 ∧ digitAt name 1 ≠ 2 then .error else .boot (digitAt name 1)
    else
      match decode name with
      | none => .error
      | some (part, index) => lookupEntry part index b.cache
  (l, b)

def InTable (cache : GptCache) : Lookup → Prop
  | .error | .boot _ => True
  | .entry part num => ∃ e, cache.entries[num]? = some e ∧ e.1 = part

section Lookup

variable {part index : ℕ} {cache : GptCache}

def entriesOf (part : ℕ) (cache : GptCache) : List (ℕ × GptEntry) :=
  cache.entries.filter fun e => e.1 = part

theorem getPartitionNum_lt {i j n : ℕ} {es : List (ℕ × GptEntry)}
    (h : getPartitionNum part index i j es = some n) : n < i + es.length := by
  induction es generalizing i j with
  | nil => cases h
  | cons e es ih =>
    rw [getPartitionNum] at h
    rw [List.length_cons]
    split at h
    · split at h
      · obtain rfl := Option.some.inj h
        omega
      · have := ih h
        omega
    · have := ih h
      omega

theorem getPartitionNum_eq_some (h : 1 ≤ index ∧ index ≤ (entriesOf part cache).length) :
    ∃ i e, getPartitionNum part index 0 0 cache.entries = some i ∧
      cache.entries[i]? = some e ∧ e.1 = part := by
  have hspec := getPartitionNum_spec part index 0 [] cache.entries
  have hlt : index - 0 - 1 < (entriesOf part cache).length := by omega
  rw [if_neg (by omega)] at hspec
  have he := List.getElem?_eq_getElem hlt
  obtain ⟨i, hi, hentry⟩ := Option.bind_eq_some_iff.mp (hspec.trans he)
  have hmem := (List.mem_filter.mp (List.getElem_mem hlt)).2
  exact ⟨i, _, hi, hentry, of_decide_eq_true hmem⟩

theorem getPartitionNum_eq_none (h : ¬ (1 ≤ index ∧ index ≤ (entriesOf part cache).length)) :
    getPartitionNum part index 0 0 cache.entries = none := by
  have hspec := getPartitionNum_spec part index 0 [] cache.entries
  have hnone : (if index ≤ 0 then none
      else (cache.entries.filter fun e => e.1 = part)[index - 0 - 1]?) = none := by
    by_cases hzero : index ≤ 0
    · rw [if_pos hzero]
    · rw [if_neg hzero]
      have hlong : (entriesOf part cache).length ≤ index - 0 - 1 := by omega
      exact List.getElem?_eq_none hlong
  cases hnum : getPartitionNum part index 0 0 cache.entries with
  | none => rfl
  | some i =>
    have hlt := getPartitionNum_lt hnum
    rw [Nat.zero_add] at hlt
    have hbind := hspec.trans hnone
    rw [List.length_nil, hnum, Option.bind_some, List.nil_append,
      List.getElem?_eq_getElem hlt] at hbind
    cases hbind

theorem uint32_small {n : ℕ} (h : n < 2 ^ 32) : uint32 n = n := by
  unfold uint32
  omega

theorem lookupEntry_missing (h : ¬ (1 ≤ index ∧ index ≤ (entriesOf part cache).length)) :
    lookupEntry part index cache = .entry part (2 ^ 32 - 1) := by
  rw [lookupEntry, partitionNum, getPartitionNum_eq_none h]
  rfl

theorem lookupEntry_found {i : ℕ} (h : getPartitionNum part index 0 0 cache.entries = some i) :
    lookupEntry part index cache = .entry part i := by
  have hlt := getPartitionNum_lt h
  have hlen := cache.length_le
  unfold maxGptPtNum at hlen
  rw [lookupEntry, partitionNum, h]
  dsimp only
  rw [uint32_small (by omega), if_neg (Nat.not_lt_zero i)]

theorem not_inTable_highest (part : ℕ) (cache : GptCache) :
    ¬ InTable cache (.entry part (2 ^ 32 - 1)) := by
  rintro ⟨e, he, -⟩
  have hlt := (List.getElem?_eq_some_iff.mp he).1
  have hlen := cache.length_le
  unfold maxGptPtNum at hlen
  omega

theorem inTable_lookupEntry_iff : InTable cache (lookupEntry part index cache) ↔
    1 ≤ index ∧ index ≤ (entriesOf part cache).length := by
  by_cases h : 1 ≤ index ∧ index ≤ (entriesOf part cache).length
  · obtain ⟨i, e, hnum, he, hpart⟩ := getPartitionNum_eq_some h
    rw [lookupEntry_found hnum]
    exact iff_of_true ⟨e, he, hpart⟩ h
  · rw [lookupEntry_missing h]
    exact iff_of_false (not_inTable_highest part cache) h

end Lookup

theorem decode_boot {name : List Char} (h : charAt name 0 = 'b') : decode name = none := by
  have hsd : ¬ (charAt name 0 = 's' ∧ charAt name 1 = 'd') := fun hsd =>
    absurd (h.symm.trans hsd.1) (by decide)
  have hgp : ¬ (charAt name 0 = 'g' ∧ charAt name 1 = 'p') := fun hgp =>
    absurd (h.symm.trans hgp.1) (by decide)
  rw [decode, if_neg hsd, if_neg hgp]

/-- A lookup stays in the table exactly if the name is not looked up there or its entry is there. -/
theorem lookup_in_table_iff (name : List Char) (b : Burner) :
    InTable (lookup name b).2.cache (lookup name b).1 ↔
      ∀ part index, decode name = some (part, index) →
        1 ≤ index ∧ index ≤ (entriesOf part (readAllGptPartitionInfo b).cache).length := by
  unfold lookup
  dsimp only
  by_cases hboot : charAt name 0 = 'b'
  · rw [if_pos hboot, decode_boot hboot]
    refine iff_of_true ?_ fun part index h => by cases h
    split <;> trivial
  · rw [if_neg hboot]
    cases decode name with
    | none => exact iff_of_true trivial fun part index h => by cases h
    | some t =>
      obtain ⟨part, index⟩ := t
      dsimp only
      rw [inTable_lookupEntry_iff]
      constructor
      · rintro h part' index' heq
        obtain ⟨rfl, rfl⟩ := Prod.mk.inj (Option.some.inj heq)
        exact h
      · exact fun h => h part index rfl

theorem missing_partition_leaves_table :
    (lookup "sd2".toList (Schedules.run step (poweron blank 0) [.partImport oneList])).1 =
        .entry 0 (2 ^ 32 - 1) ∧
      (lookup "sd2".toList (Schedules.run step (poweron blank 0)
        [.partImport oneList])).2.cache.entries.length = 1 := by
  decide +kernel

section Refinement

def describe (b : Burner) : Lookup → Info
  | .error => .failed
  | .boot num => .found num 0 (b.capacityBoot / 512) ("boot".toList ++ Nat.toDigits 10 num)
  | .entry part num =>
    match b.cache.entries[num]? with
    | none => .outOfBounds
    | some e => .found part e.2.startingLba e.2.cnt e.2.name

theorem describe_lookupEntry (part index : ℕ) (b : Burner) :
    describe b (lookupEntry part index b.cache) = findEntry part index b.cache := by
  unfold findEntry
  by_cases h : 1 ≤ index ∧ index ≤ (entriesOf part b.cache).length
  · obtain ⟨i, e, hnum, he, -⟩ := getPartitionNum_eq_some h
    rw [lookupEntry_found hnum, hnum, Option.bind_some, describe, he]
  · have hlen := b.cache.length_le
    unfold maxGptPtNum at hlen
    have hnone : b.cache.entries[2 ^ 32 - 1]? = none := List.getElem?_eq_none (by omega)
    rw [lookupEntry_missing h, getPartitionNum_eq_none h, describe, hnone]
    rfl

theorem eq_of_digit {c d : Char} (hd : '0'.toNat ≤ d.toNat)
    (h : uint32 (c.toNat - '0'.toNat : ℤ) = d.toNat - '0'.toNat) : c = d := by
  have hc : c.toNat < 2 ^ 32 := c.val.toNat_lt
  have hd' : d.toNat < 2 ^ 32 := d.val.toNat_lt
  have hzero : '0'.toNat = 48 := rfl
  rw [hzero] at hd h
  rw [← Char.toNat_inj]
  unfold uint32 at h
  omega

variable {name : List Char}

theorem cons_of_charAt {c : Char} (hc : c ≠ '\x00') (h : charAt name 0 = c) :
    name = c :: name.drop 1 := by
  cases name with
  | nil => exact absurd h.symm hc
  | cons a cs => exact congrArg (· :: cs) h

theorem cons_cons_of_charAt {c d : Char} (hc : c ≠ '\x00') (hd : d ≠ '\x00')
    (h : charAt name 0 = c ∧ charAt name 1 = d) : name = c :: d :: name.drop 2 := by
  have hsecond : charAt (name.drop 1) 0 = d := by
    rw [charAt, List.getD_eq_getElem?_getD, List.getElem?_drop]
    exact h.2
  have htail := cons_of_charAt hd hsecond
  rw [List.drop_drop] at htail
  rw [← htail]
  exact cons_of_charAt hc h.1

theorem lookup_boot (b : Burner) (hb : charAt name 0 = 'b') :
    (lookup name b).1 =
      if digitAt name 1 ≠ 1 ∧ digitAt name 1 ≠ 2 then .error else .boot (digitAt name 1) := if_pos hb

theorem lookup_decode (b : Burner) (hb : charAt name 0 ≠ 'b') :
    (lookup name b).1 = match decode name with
      | none => .error
      | some (part, index) => lookupEntry part index (readAllGptPartitionInfo b).cache := if_neg hb

theorem boot_digit_ne {cs : List Char} (hone : ∀ r, cs ≠ '1' :: r) (htwo : ∀ r, cs ≠ '2' :: r) :
    digitAt ('b' :: cs) 1 ≠ 1 ∧ digitAt ('b' :: cs) 1 ≠ 2 := by
  cases cs with
  | nil => decide
  | cons c cs =>
    refine ⟨fun h => hone cs ?_, fun h => htwo cs ?_⟩
    · exact congrArg (· :: cs) (eq_of_digit (c := c) (d := '1') (by decide) h)
    · exact congrArg (· :: cs) (eq_of_digit (c := c) (d := '2') (by decide) h)

theorem decode_eq_none (hsd : ∀ cs, name ≠ 's' :: 'd' :: cs)
    (hgp : ∀ c cs, name ≠ 'g' :: 'p' :: c :: cs) : decode name = none := by
  rw [decode, if_neg fun h => hsd _ (cons_cons_of_charAt (by decide) (by decide) h)]
  split
  · next h =>
    have hname := cons_cons_of_charAt (by decide) (by decide) h
    cases hrest : name.drop 2 with
    | nil =>
      rw [hrest] at hname
      rw [hname]
      decide
    | cons c cs =>
      rw [hrest] at hname
      exact absurd hname (hgp c cs)
  · rfl

theorem getPartitionInfo_eq (name : List Char) (b : Burner) :
    getPartitionInfo name b = (describe (lookup name b).2 (lookup name b).1, (lookup name b).2) := by
  refine Prod.ext ?_ rfl
  unfold getPartitionInfo
  dsimp only
  split
  · next cs =>
    have hone : digitAt ('b' :: '1' :: cs) 1 = 1 := by
      change uint32 ('1'.toNat - '0'.toNat : ℤ) = 1
      decide
    rw [lookup_boot b rfl, hone, if_neg (by decide)]
    rfl
  · next cs =>
    have htwo : digitAt ('b' :: '2' :: cs) 1 = 2 := by
      change uint32 ('2'.toNat - '0'.toNat : ℤ) = 2
      decide
    rw [lookup_boot b rfl, htwo, if_neg (by decide)]
    rfl
  · next cs hone htwo =>
    rw [lookup_boot b rfl, if_pos (boot_digit_ne hone htwo)]
    rfl
  · next cs =>
    have hboot : charAt ('s' :: 'd' :: cs) 0 ≠ 'b' := (by decide : 's' ≠ 'b')
    rw [lookup_decode b hboot, decode, if_pos ⟨rfl, rfl⟩]
    exact (describe_lookupEntry _ _ _).symm
  · next c cs =>
    have hsd : ¬ (charAt ('g' :: 'p' :: c :: cs) 0 = 's' ∧ charAt ('g' :: 'p' :: c :: cs) 1 = 'd') :=
      fun h => absurd h.1 (by decide : 'g' ≠ 's')
    have hgp : charAt ('g' :: 'p' :: c :: cs) 0 = 'g' ∧ charAt ('g' :: 'p' :: c :: cs) 1 = 'p' :=
      ⟨rfl, rfl⟩
    have hdig : digitAt ('g' :: 'p' :: c :: cs) 2 = uint32 (c.toNat - '0'.toNat : ℤ) := rfl
    have hdrop : ('g' :: 'p' :: c :: cs).drop 4 = cs.tail := List.drop_one (l := cs)
    have hboot : charAt ('g' :: 'p' :: c :: cs) 0 ≠ 'b' := (by decide : 'g' ≠ 'b')
    rw [lookup_decode b hboot, decode, if_neg hsd, if_pos hgp, hdig, hdrop]
    by_cases hnum : uint32 (c.toNat - '0'.toNat : ℤ) < 1 ∨ 4 < uint32 (c.toNat - '0'.toNat : ℤ)
    · rw [if_pos hnum, if_pos hnum]
      rfl
    · rw [if_neg hnum, if_neg hnum]
      exact (describe_lookupEntry _ _ _).symm
  · next hone htwo hboot hsd hgp =>
    have hb : charAt name 0 ≠ 'b' := fun h => hboot _ (cons_of_charAt (by decide) h)
    rw [lookup_decode b hb, decode_eq_none hsd hgp]
    rfl

end Refinement

end SynaBoot.BurnLookup
