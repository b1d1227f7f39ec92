import Mathlib.Tactic

namespace SynaBoot.PartTable

def maxGptEntry : ℕ := 64
def gptEntryNumbers : ℕ := 128
def enoent : Int := 2
def einval : Int := 22

structure PartInfo where
  name : List UInt8
  start : UInt64
  size : UInt64
  deriving DecidableEq, Repr

structure MmcDevice where
  blksz : UInt64
  blksz_pow : ∃ k < 32, blksz.toNat = 2 ^ k
  lba : ℕ → UInt64
  selects : ℕ → Bool
  getInfo : ℕ → ℕ → Option PartInfo

/-- `struct emmc_part`, with the name as `strcmp` reads it. -/
structure EmmcPart where
  hwpart : UInt8
  part : UInt8
  name : List UInt8
  deriving DecidableEq, Repr

/-- The memory behind `emmc_part_table`. -/
structure Slots where
  list : List EmmcPart
  length_eq : list.length = maxGptEntry

def Slots.modify (slots : Slots) (i : ℕ) (f : EmmcPart → EmmcPart) : Slots :=
  ⟨slots.list.modify i f, by rw [List.length_modify, slots.length_eq]⟩

/-- A round that finds no partition has already written the numbers. -/
def saveLoop (info : ℕ → Option PartInfo) (hwpart : ℕ) : ℕ → ℕ → ℕ → Slots → ℕ × Slots
  | 0, _, i, slots => (i, slots)
  | n + 1, j, i, slots =>
    if i < maxGptEntry then
      let slots := slots.modify i fun s =>
        { s with hwpart := UInt8.ofNat hwpart, part := UInt8.ofNat j }
      match info j with
      | none => (i, slots)
      | some p =>
        saveLoop info hwpart n (j + 1) (i + 1) (slots.modify i fun s => { s with name := p.name })
    else (i, slots)

def gppLoop (d : MmcDevice) : ℕ → ℕ → ℕ → Slots → ℕ × Slots
  | 0, _, i, slots => (i, slots)
  | n + 1, k, i, slots =>
    if d.selects k then
      let (i, slots) := saveLoop (d.getInfo k) k (gptEntryNumbers - 1) 1 i slots
      gppLoop d n (k + 1) i slots
    else (i, slots)

def fMmcSavePartTable (d : MmcDevice) (heap : Slots) : Int × Slots :=
  if d.selects 0 then
    let (i, slots) := saveLoop (d.getInfo 0) 0 (gptEntryNumbers - 1) 1 0 heap
    let (i, slots) := gppLoop d 4 4 i slots
    if i = maxGptEntry then (-einval, slots) else (0, slots)
  else (-enoent, heap)

def lookup (field : EmmcPart → UInt8) (table : Option Slots) (name : List UInt8) : Int :=
  match table.bind fun slots => slots.list.find? fun s => name = s.name with
  | some s => (field s).toNat
  | none => -einval

def fMmcGetHwpartFromTable : Option Slots → List UInt8 → Int := lookup EmmcPart.hwpart

def fMmcGetPartFromTable : Option Slots → List UInt8 → Int := lookup EmmcPart.part

structure Tables where
  uda : List PartInfo
  gpps : List (List PartInfo)
  gpps_le : gpps.length ≤ 4

structure NoGaps (d : MmcDevice) (t : Tables) : Prop where
  user : d.selects 0 = true
  gpps : ∀ k < 4, d.selects (4 + k) = decide (k < t.gpps.length)
  userInfo : ∀ j, d.getInfo 0 (1 + j) = t.uda[j]?
  gppInfo : ∀ k ps, t.gpps[k]? = some ps → ∀ j, d.getInfo (4 + k) (1 + j) = ps[j]?

def entries (hwpart : ℕ) : ℕ → List PartInfo → List EmmcPart
  | _, [] => []
  | j, p :: ps => ⟨UInt8.ofNat hwpart, UInt8.ofNat j, p.name⟩ :: entries hwpart (j + 1) ps

def gppEntries : ℕ → List (List PartInfo) → List EmmcPart
  | _, [] => []
  | k, ps :: gpps => entries k 1 ps ++ gppEntries (k + 1) gpps

def Tables.partitions (t : Tables) : List EmmcPart := entries 0 1 t.uda ++ gppEntries 4 t.gpps

structure Saved (heap : Slots) (es : List EmmcPart) (i : ℕ) (slots : Slots) : Prop where
  count : i = es.length
  slots : ∃ rest, slots.list = es ++ rest ∧
    rest.map EmmcPart.name = (heap.list.map EmmcPart.name).drop es.length

variable {heap slots : Slots} {es : List EmmcPart} {i : ℕ}

theorem modify_append {s : EmmcPart} {rest : List EmmcPart} (hs : slots.list = es ++ s :: rest)
    (f : EmmcPart → EmmcPart) : (slots.modify es.length f).list = es ++ f s :: rest := by
  change slots.list.modify es.length f = _
  rw [hs]
  clear hs
  induction es with
  | nil => rfl
  | cons e es ih =>
    rw [List.cons_append, List.length_cons, List.modify_succ_cons, ih]
    rfl

theorem length_entries (hwpart j : ℕ) (ps : List PartInfo) :
    (entries hwpart j ps).length = ps.length := by
  induction ps generalizing j with
  | nil => rfl
  | cons p ps ih => exact congrArg (· + 1) (ih (j + 1))

theorem Saved.next (h : Saved heap es i slots) (hi : i < maxGptEntry) (hwpart part : UInt8) :
    Saved heap es i (slots.modify i fun s => { s with hwpart := hwpart, part := part }) ∧
    ∀ name, Saved heap (es ++ [⟨hwpart, part, name⟩]) (i + 1)
      ((slots.modify i fun s => { s with hwpart := hwpart, part := part }).modify i
        fun s => { s with name := name }) := by
  obtain ⟨rfl, rest, hs, hnames⟩ := h
  have hlen : es.length + rest.length = maxGptEntry := by
    rw [← List.length_append, ← hs, slots.length_eq]
  obtain ⟨s, rest, rfl⟩ := List.exists_cons_of_ne_nil (List.ne_nil_of_length_pos
    (show 0 < rest.length by omega))
  have hmod := modify_append hs fun s => { s with hwpart := hwpart, part := part }
  refine ⟨⟨rfl, _, hmod, hnames⟩, fun name => ⟨?_, rest, ?_, ?_⟩⟩
  · rw [List.length_append, List.length_singleton]
  · rw [modify_append hmod, List.append_assoc, List.singleton_append]
  · rw [List.length_append, List.length_singleton, ← List.drop_drop, ← hnames, List.map_cons,
      List.drop_one, List.tail_cons]

theorem saveLoop_saved {info : ℕ → Option PartInfo} (hwpart : ℕ) {n j : ℕ} {ps : List PartInfo}
    (h : Saved heap es i slots) (hinfo : ∀ c, info (j + c) = ps[c]?)
    (hroom : es.length + ps.length < maxGptEntry) (hn : ps.length < n) :
    ∃ i' slots', saveLoop info hwpart n j i slots = (i', slots') ∧
      Saved heap (es ++ entries hwpart j ps) i' slots' := by
  induction ps generalizing n j i es slots with
  | nil =>
    obtain ⟨n, rfl⟩ := Nat.exists_eq_succ_of_ne_zero (Nat.ne_of_gt hn)
    have hi : i < maxGptEntry := by
      rw [h.count]
      exact hroom
    have hnone : info j = none := hinfo 0
    have hend := (h.next hi (UInt8.ofNat hwpart) (UInt8.ofNat j)).1
    rw [entries, List.append_nil]
    exact ⟨i, _, by rw [saveLoop, if_pos hi, hnone], hend⟩
  | cons p ps ih =>
    obtain ⟨n, rfl⟩ := Nat.exists_eq_succ_of_ne_zero (Nat.ne_zero_of_lt hn)
    rw [List.length_cons] at hroom hn
    have hi : i < maxGptEntry := by
      rw [h.count]
      omega
    have hsome : info j = some p := hinfo 0
    have hnext := (h.next hi (UInt8.ofNat hwpart) (UInt8.ofNat j)).2 p.name
    have hinfo' : ∀ c, info (j + 1 + c) = ps[c]? := by
      intro c
      rw [Nat.add_assoc, Nat.add_comm 1 c]
      exact hinfo (c + 1)
    obtain ⟨i', slots', hs, hsaved⟩ := ih hnext hinfo'
      (by rw [List.length_append, List.length_singleton]; omega) (Nat.lt_of_succ_lt_succ hn)
    refine ⟨i', slots', ?_, ?_⟩
    · rw [saveLoop, if_pos hi, hsome]
      exact hs
    · rw [List.append_assoc] at hsaved
      exact hsaved

theorem gppLoop_saved {d : MmcDevice} {n k : ℕ} {gpps : List (List PartInfo)}
    (h : Saved heap es i slots) (hle : gpps.length ≤ n)
    (hsel : ∀ c < n, d.selects (k + c) = decide (c < gpps.length))
    (hinfo : ∀ c ps, gpps[c]? = some ps → ∀ j, d.getInfo (k + c) (1 + j) = ps[j]?)
    (hroom : es.length + (gppEntries k gpps).length < maxGptEntry) :
    ∃ i' slots', gppLoop d n k i slots = (i', slots') ∧
      Saved heap (es ++ gppEntries k gpps) i' slots' := by
  induction gpps generalizing n k i es slots with
  | nil =>
    refine ⟨i, slots, ?_, by rw [gppEntries, List.append_nil]; exact h⟩
    cases n with
    | zero => rfl
    | succ n =>
      have hno : d.selects k = false := hsel 0 (Nat.succ_pos n)
      rw [gppLoop, hno, if_neg Bool.false_ne_true]
  | cons ps gpps ih =>
    obtain ⟨n, rfl⟩ := Nat.exists_eq_succ_of_ne_zero (Nat.ne_zero_of_lt hle)
    have hyes : d.selects k = true := (hsel 0 (Nat.succ_pos n)).trans (by simp)
    have hps : ∀ j, d.getInfo k (1 + j) = ps[j]? := hinfo 0 ps rfl
    have hmax : maxGptEntry < gptEntryNumbers - 1 := by decide
    rw [gppEntries, List.length_append, length_entries] at hroom
    obtain ⟨i₁, slots₁, hs₁, hsaved₁⟩ := saveLoop_saved k h hps (by omega)
      (show ps.length < gptEntryNumbers - 1 by omega)
    have hsel' : ∀ c < n, d.selects (k + 1 + c) = decide (c < gpps.length) := by
      intro c hc
      rw [Nat.add_assoc, Nat.add_comm 1 c, hsel (c + 1) (Nat.succ_lt_succ hc), List.length_cons]
      exact decide_eq_decide.mpr Nat.succ_lt_succ_iff
    have hinfo' : ∀ c qs, gpps[c]? = some qs → ∀ j, d.getInfo (k + 1 + c) (1 + j) = qs[j]? := by
      intro c qs hqs j
      rw [Nat.add_assoc, Nat.add_comm 1 c]
      exact hinfo (c + 1) qs hqs j
    obtain ⟨i₂, slots₂, hs₂, hsaved₂⟩ := ih hsaved₁ (Nat.le_of_succ_le_succ hle) hsel' hinfo'
      (by rw [List.length_append, length_entries]; omega)
    refine ⟨i₂, slots₂, ?_, ?_⟩
    · rw [gppLoop, hyes, if_pos rfl, hs₁]
      exact hs₂
    · rw [List.append_assoc] at hsaved₂
      exact hsaved₂

variable {t : Tables} {name : List UInt8}

theorem fMmcSavePartTable_saved {d : MmcDevice} (h : NoGaps d t)
    (hroom : t.partitions.length < maxGptEntry) (heap : Slots) :
    ∃ i slots, fMmcSavePartTable d heap = (0, slots) ∧ Saved heap t.partitions i slots := by
  have hmax : maxGptEntry < gptEntryNumbers - 1 := by decide
  have hlen : t.partitions.length = t.uda.length + (gppEntries 4 t.gpps).length := by
    rw [Tables.partitions, List.length_append, length_entries]
  have hempty : Saved heap [] 0 heap := ⟨rfl, heap.list, rfl, rfl⟩
  obtain ⟨i₁, slots₁, hs₁, hsaved₁⟩ := saveLoop_saved 0 hempty h.userInfo
    (by rw [List.length_nil]; omega) (show t.uda.length < gptEntryNumbers - 1 by omega)
  rw [List.nil_append] at hsaved₁
  obtain ⟨i₂, slots₂, hs₂, hsaved₂⟩ := gppLoop_saved hsaved₁ t.gpps_le h.gpps h.gppInfo
    (by rw [length_entries]; omega)
  have hne : i₂ ≠ maxGptEntry := by
    rw [hsaved₂.count]
    exact hroom.ne
  refine ⟨i₂, slots₂, ?_, hsaved₂⟩
  unfold fMmcSavePartTable
  rw [if_pos h.user, hs₁]
  dsimp only
  rw [hs₂]
  exact if_neg hne

theorem lookup_some {field : EmmcPart → UInt8} {e : EmmcPart}
    (h : slots.list.find? (fun s => name = s.name) = some e) :
    lookup field (some slots) name = (field e).toNat := by
  unfold lookup
  rw [Option.bind_some, h]

theorem lookup_none {field : EmmcPart → UInt8}
    (h : slots.list.find? (fun s => name = s.name) = none) :
    lookup field (some slots) name = -einval := by
  unfold lookup
  rw [Option.bind_some, h]

structure Sound (t : Tables) (slots : Slots) (name : List UInt8) : Prop where
  found : (∃ e ∈ t.partitions, e.name = name) → ∃ e ∈ t.partitions, e.name = name ∧
    fMmcGetHwpartFromTable (some slots) name = e.hwpart.toNat ∧
    fMmcGetPartFromTable (some slots) name = e.part.toNat
  absent : (∀ e ∈ t.partitions, e.name ≠ name) →
    fMmcGetHwpartFromTable (some slots) name = -einval ∧
    fMmcGetPartFromTable (some slots) name = -einval

theorem Saved.sound_of_mem (h : Saved heap t.partitions i slots)
    (hmem : ∃ e ∈ t.partitions, e.name = name) : Sound t slots name := by
  obtain ⟨-, rest, hs, -⟩ := h
  obtain ⟨e, he, rfl⟩ := hmem
  obtain ⟨e', hfind⟩ : ∃ e', t.partitions.find? (fun s => e.name = s.name) = some e' :=
    Option.isSome_iff_exists.mp (List.find?_isSome.mpr ⟨e, he, decide_eq_true rfl⟩)
  have hslots : slots.list.find? (fun s => e.name = s.name) = some e' := by
    rw [hs, List.find?_append, hfind, Option.some_or]
  have hname : e.name = e'.name := by simpa using List.find?_some hfind
  refine ⟨fun _ => ⟨e', List.mem_of_find?_eq_some hfind, hname.symm, lookup_some hslots,
    lookup_some hslots⟩, fun habs => absurd rfl (habs e he)⟩

theorem Saved.sound_iff_of_absent (h : Saved heap t.partitions i slots)
    (habs : ∀ e ∈ t.partitions, e.name ≠ name) :
    Sound t slots name ↔ ∀ s ∈ heap.list.drop t.partitions.length, s.name ≠ name := by
  obtain ⟨-, rest, hs, hnames⟩ := h
  have hnone : t.partitions.find? (fun s => name = s.name) = none :=
    List.find?_eq_none.mpr fun e he => by simpa using (habs e he).symm
  have hslots : slots.list.find? (fun s => name = s.name) =
      rest.find? (fun s => name = s.name) := by
    rw [hs, List.find?_append, hnone, Option.none_or]
  have hold : (∀ s ∈ heap.list.drop t.partitions.length, s.name ≠ name) ↔
      ∀ s ∈ rest, s.name ≠ name := by
    rw [← List.forall_mem_map (f := EmmcPart.name) (P := (· ≠ name)), List.map_drop, ← hnames,
      List.forall_mem_map]
  rw [hold]
  constructor
  · intro hsound s hsr hname
    obtain ⟨e, he⟩ : ∃ e, rest.find? (fun s => name = s.name) = some e :=
      Option.isSome_iff_exists.mp (List.find?_isSome.mpr ⟨s, hsr, decide_eq_true hname.symm⟩)
    have hlookup := (hsound.absent habs).1
    rw [show fMmcGetHwpartFromTable (some slots) name = _ from lookup_some (hslots.trans he)]
      at hlookup
    exact absurd hlookup (by simp [einval])
  · intro hno
    have hfind : slots.list.find? (fun s => name = s.name) = none := by
      rw [hslots]
      exact List.find?_eq_none.mpr fun s hsr => by simpa using (hno s hsr).symm
    exact ⟨fun ⟨e, he, hname⟩ => absurd hname (habs e he),
      fun _ => ⟨lookup_none hfind, lookup_none hfind⟩⟩

/-- The lookups are right exactly if the name is in a table or in none of the unfilled slots. -/
theorem lookup_sound_iff (d : MmcDevice) (t : Tables) (h : NoGaps d t)
    (hroom : t.partitions.length < maxGptEntry) (heap : Slots) (name : List UInt8) :
    ∃ slots, fMmcSavePartTable d heap = (0, slots) ∧ (Sound t slots name ↔
      (∃ e ∈ t.partitions, e.name = name) ∨
        ∀ s ∈ heap.list.drop t.partitions.length, s.name ≠ name) := by
  obtain ⟨i, slots, hs, hsaved⟩ := fMmcSavePartTable_saved h hroom heap
  refine ⟨slots, hs, ?_⟩
  by_cases hmem : ∃ e ∈ t.partitions, e.name = name
  · exact iff_of_true (hsaved.sound_of_mem hmem) (.inl hmem)
  · have habs : ∀ e ∈ t.partitions, e.name ≠ name := fun e he hname => hmem ⟨e, he, hname⟩
    rw [hsaved.sound_iff_of_absent habs, or_iff_right hmem]

theorem pow_512 : ∃ k < 32, (512 : UInt64).toNat = 2 ^ k := ⟨9, by decide, by decide⟩

def Tables.device (t : Tables) : MmcDevice where
  blksz := 512
  blksz_pow := pow_512
  lba := fun _ => 0x10000
  selects := fun k => k = 0 ∨ 4 ≤ k ∧ k < 4 + t.gpps.length
  getInfo := fun hwpart j =>
    if j = 0 then none
    else ((if hwpart = 0 then some t.uda else t.gpps[hwpart - 4]?).getD [])[j - 1]?

theorem noGaps_device (t : Tables) : NoGaps t.device t where
  user := rfl
  gpps := fun k _ => by
    change decide _ = decide _
    exact decide_eq_decide.mpr (by omega)
  userInfo := fun j => by
    change (if 1 + j = 0 then none else t.uda[1 + j - 1]?) = t.uda[j]?
    rw [if_neg (by omega), Nat.add_sub_cancel_left]
  gppInfo := fun k ps hps j => by
    change (if 1 + j = 0 then none
      else ((if 4 + k = 0 then some t.uda else t.gpps[4 + k - 4]?).getD [])[1 + j - 1]?) = ps[j]?
    rw [if_neg (by omega), if_neg (by omega), Nat.add_sub_cancel_left, Nat.add_sub_cancel_left,
      hps]
    rfl

def bootAndData : Tables := ⟨[⟨[98], 0x800, 0x100⟩], [[⟨[100], 0x40, 0x200⟩]], by decide⟩

def blankHeap : Slots := ⟨List.replicate maxGptEntry ⟨0, 0, []⟩, List.length_replicate⟩

def usedHeap : Slots := blankHeap.modify 5 fun _ => ⟨5, 3, [122]⟩

theorem lookup_sound_data : ∃ slots, fMmcSavePartTable bootAndData.device usedHeap = (0, slots) ∧
    Sound bootAndData slots [100] := by
  obtain ⟨slots, hs, hiff⟩ := lookup_sound_iff bootAndData.device bootAndData
    (noGaps_device bootAndData) (by decide) usedHeap [100]
  exact ⟨slots, hs, hiff.mpr (.inl ⟨⟨4, 1, [100]⟩, by decide, rfl⟩)⟩

theorem lookup_finds_old_name :
    (fMmcSavePartTable bootAndData.device usedHeap).1 = 0 ∧
    [122] ∉ bootAndData.partitions.map EmmcPart.name ∧
    fMmcGetHwpartFromTable (some (fMmcSavePartTable bootAndData.device usedHeap).2) [122] = 5 ∧
    fMmcGetPartFromTable (some (fMmcSavePartTable bootAndData.device usedHeap).2) [122] = 3 := by
  decide +kernel

end SynaBoot.PartTable
