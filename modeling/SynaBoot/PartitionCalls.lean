import SynaBoot.ImageAccess
import SynaBoot.Schedules

namespace SynaBoot.PartitionCalls

open SynaBoot.EmmcBlocks SynaBoot.EmmcParts SynaBoot.LoadGpt SynaBoot.ImageAccess SynaBoot.Schedules

def maxEntName : ℕ := 36
def partitionNotExist : Int := -1

def strnlen (s : List UInt8) (n : ℕ) : ℕ := ((s.take n).takeWhile (· ≠ 0)).length

def entNameChar (e : GptEnt) : List UInt8 :=
  ((List.range 36).map fun i => e.entName.1.getD (2 * i) 0).takeWhile (· ≠ 0)

/-- A name ends at its first zero, or behind its last byte. -/
def nameMatches (name : List UInt8) (e : GptEnt) : Bool :=
  strnlen name maxEntName = strnlen (entNameChar e) maxEntName &&
    name.take (strnlen name maxEntName) = (entNameChar e).take (strnlen name maxEntName)

/-- It switches to the partition of the entry. -/
def findLoop (ok : Bool) (name : List UInt8) (s : Emmc) : ℕ → List GptEntPart → Int × Emmc
  | _, [] => (partitionNotExist, s)
  | i, e :: es =>
    if nameMatches name e.gpt then (i, (switchEmmcPart ok e.part s).2)
    else findLoop ok name s (i + 1) es

def findPartition (ok : Bool) (name : List UInt8) (t : GptTable) (s : Emmc) : Int × Emmc :=
  findLoop ok name s 0 t.entries

/-- The hardware partition is kept here only to compare. -/
def fetchPartitionInfo (num : Int) (t : GptTable) : Option GptEntPart :=
  if 0 ≤ num ∧ num < t.entries.length then t.entries[num.toNat]? else none

def readImageByPtname (ok : Bool) (name : List UInt8) (imageSize : UInt32) (t : GptTable)
    (s : Emmc) : Option (GptEntPart × Access) × Emmc :=
  let (ptIndex, s) := findPartition ok name t s
  if ptIndex < 0 then (none, s)
  else
    ((fetchPartitionInfo ptIndex t).bind fun e =>
      (readImageFromOffset e.gpt 0 imageSize s).map (Prod.mk e), s)

inductive Op where
  | findPartition (name : List UInt8)
  | fetchPartitionInfo (num : Int) (gpte : ℕ)
  | readImageFromOffset (gpte : ℕ) (ptOffset size : UInt32)
  | writeImageToOffset (gpte : ℕ) (ptOffset size : UInt32)
  | readImageByPtname (name : List UInt8) (imageSize : UInt32)

abbrev Vars := ℕ → Option GptEntPart

structure Caller where
  emmc : Emmc
  vars : Vars

def fetchInto (t : GptTable) (vars : Vars) : Op → Vars
  | .fetchPartitionInfo num gpte =>
    match fetchPartitionInfo num t with
    | none => vars
    | some e => Function.update vars gpte (some e)
  | _ => vars

def emmcAfter (t : GptTable) (c : Caller) : Op → Emmc
  | .findPartition name => (findPartition true name t c.emmc).2
  | .fetchPartitionInfo _ _ => c.emmc
  | .readImageFromOffset _ _ _ => c.emmc
  | .writeImageToOffset gpte ptOffset size => (c.vars gpte).elim c.emmc fun e =>
    (writeImageToOffset true e.gpt ptOffset size c.emmc).2
  | .readImageByPtname name imageSize => (readImageByPtname true name imageSize t c.emmc).2

def step (t : GptTable) (op : Op) (c : Caller) : Caller := ⟨emmcAfter t c op, fetchInto t c.vars op⟩

def access (t : GptTable) (c : Caller) : Op → Option (GptEntPart × Access)
  | .findPartition _ => none
  | .fetchPartitionInfo _ _ => none
  | .readImageFromOffset gpte ptOffset size => (c.vars gpte).bind fun e =>
    (readImageFromOffset e.gpt ptOffset size c.emmc).map (Prod.mk e)
  | .writeImageToOffset gpte ptOffset size => (c.vars gpte).bind fun e =>
    (writeImageToOffset true e.gpt ptOffset size c.emmc).1.map (Prod.mk e)
  | .readImageByPtname name imageSize => (readImageByPtname true name imageSize t c.emmc).1

def lookup (t : GptTable) (name : List UInt8) : Option GptEntPart :=
  t.entries.find? fun e => nameMatches name e.gpt

/-- The user area for every write. -/
def selection (t : GptTable) (vars : Vars) : Op → Option UInt32
  | .findPartition name => (lookup t name).map GptEntPart.part
  | .fetchPartitionInfo _ _ => none
  | .readImageFromOffset _ _ _ => none
  | .writeImageToOffset gpte ptOffset size => (vars gpte).bind fun e =>
    if exceeds e.gpt ptOffset size then none else some 0
  | .readImageByPtname name _ => (lookup t name).map GptEntPart.part

def selected (t : GptTable) : UInt32 → Vars → List Op → UInt32
  | device, _, [] => device
  | device, vars, op :: ops =>
    selected t ((selection t vars op).getD device) (fetchInto t vars op) ops

def Parts (t : GptTable) : Prop := ∀ e ∈ t.entries, e.part = 0 ∨ ∃ i, e.part = gppPart i

variable {t : GptTable} {s : Emmc} {c : Caller} {e : GptEntPart} {a : Access}

theorem Parts.le (h : Parts t) (he : e ∈ t.entries) : ¬ 8 < e.part := by
  obtain h0 | ⟨i, hi⟩ := h e he
  · rw [h0]
    decide
  · rw [hi]
    exact UInt32.not_lt.mpr (gppPart_le i)

variable {name : List UInt8}

theorem findLoop_none {es : List GptEntPart} (h : es.find? (fun e => nameMatches name e.gpt) = none)
    (ok : Bool) (s : Emmc) (i : ℕ) : findLoop ok name s i es = (partitionNotExist, s) := by
  induction es generalizing i with
  | nil => rfl
  | cons d es ih =>
    rw [List.find?_cons] at h
    cases hm : nameMatches name d.gpt with
    | true =>
      rw [hm] at h
      cases h
    | false =>
      rw [hm] at h
      rw [findLoop, hm, if_neg Bool.false_ne_true]
      exact ih h (i + 1)

theorem findLoop_some {es : List GptEntPart}
    (h : es.find? (fun e => nameMatches name e.gpt) = some e) (ok : Bool) (s : Emmc) (i : ℕ) :
    ∃ j, es[j]? = some e ∧
      findLoop ok name s i es = (((i + j : ℕ) : Int), (switchEmmcPart ok e.part s).2) := by
  induction es generalizing i with
  | nil => cases h
  | cons d es ih =>
    rw [List.find?_cons] at h
    cases hm : nameMatches name d.gpt with
    | true =>
      rw [hm] at h
      cases h
      refine ⟨0, rfl, ?_⟩
      rw [findLoop, if_pos hm]
      rfl
    | false =>
      rw [hm] at h
      obtain ⟨j, hj, hf⟩ := ih h (i + 1)
      refine ⟨j + 1, hj, ?_⟩
      rw [findLoop, hm, if_neg Bool.false_ne_true, hf]
      congr 2
      omega

theorem mem_of_lookup (h : lookup t name = some e) : e ∈ t.entries :=
  List.mem_of_find?_eq_some h

theorem readImageByPtname_some (h : lookup t name = some e) (ok : Bool) (imageSize : UInt32)
    (s : Emmc) :
    readImageByPtname ok name imageSize t s =
      ((readImageFromOffset e.gpt 0 imageSize (switchEmmcPart ok e.part s).2).map (Prod.mk e),
        (switchEmmcPart ok e.part s).2) := by
  obtain ⟨j, hj, hf⟩ := findLoop_some h ok s 0
  have hlt : j < t.entries.length := (List.getElem?_eq_some_iff.mp hj).1
  have hfetch : fetchPartitionInfo ((0 + j : ℕ) : Int) t = some e := by
    unfold fetchPartitionInfo
    rw [Nat.zero_add, if_pos (by omega), Int.toNat_natCast, hj]
  unfold readImageByPtname findPartition
  rw [hf]
  dsimp only
  rw [if_neg (by omega), hfetch, Option.bind_some]

theorem readImageByPtname_none (h : lookup t name = none) (ok : Bool) (imageSize : UInt32)
    (s : Emmc) : readImageByPtname ok name imageSize t s = (none, s) := by
  unfold readImageByPtname findPartition
  rw [findLoop_none h]
  rfl

theorem emmcAfter_device (ht : Parts t) (hc : Honest c.emmc) (op : Op) :
    Honest (emmcAfter t c op) ∧
      (emmcAfter t c op).device = (selection t c.vars op).getD c.emmc.device := by
  cases op with
  | findPartition name =>
    rw [emmcAfter, selection, findPartition]
    cases hl : lookup t name with
    | none =>
      rw [findLoop_none hl]
      exact ⟨hc, rfl⟩
    | some e =>
      obtain ⟨j, -, hf⟩ := findLoop_some hl true c.emmc 0
      obtain ⟨s', hsw, hdev, hhon⟩ := hc.switch (ht.le (mem_of_lookup hl))
      rw [hf, hsw]
      exact ⟨hhon, hdev⟩
  | fetchPartitionInfo num gpte => exact ⟨hc, rfl⟩
  | readImageFromOffset gpte ptOffset size => exact ⟨hc, rfl⟩
  | writeImageToOffset gpte ptOffset size =>
    rw [emmcAfter, selection]
    cases c.vars gpte with
    | none => exact ⟨hc, rfl⟩
    | some e =>
      rw [Option.elim_some, Option.bind_some]
      cases hx : exceeds e.gpt ptOffset size with
      | true =>
        rw [writeImageToOffset_exceeds _ _ hx, if_pos rfl]
        exact ⟨hc, rfl⟩
      | false =>
        obtain ⟨s', hsw, hdev, hhon⟩ := hc.switch (by decide : ¬ (8 : UInt32) < 0)
        rw [writeImageToOffset_within _ _ hx, if_neg Bool.false_ne_true, hsw]
        exact ⟨hhon, hdev⟩
  | readImageByPtname name imageSize =>
    rw [emmcAfter, selection]
    cases hl : lookup t name with
    | none =>
      rw [readImageByPtname_none hl]
      exact ⟨hc, rfl⟩
    | some e =>
      obtain ⟨s', hsw, hdev, hhon⟩ := hc.switch (ht.le (mem_of_lookup hl))
      rw [readImageByPtname_some hl, hsw]
      exact ⟨hhon, hdev⟩

theorem run_device (ht : Parts t) (hc : Honest c.emmc) (ops : List Op) :
    Honest (run (step t) c ops).emmc ∧
      (run (step t) c ops).emmc.device = selected t c.emmc.device c.vars ops := by
  induction ops generalizing c with
  | nil => exact ⟨hc, rfl⟩
  | cons op ops ih =>
    obtain ⟨hc', hd⟩ := emmcAfter_device ht hc op
    rw [run, selected, ← hd]
    exact ih (c := step t op c) hc'

def Right (t : GptTable) (device : UInt32) (vars : Vars) (ops : List Op) (e : GptEntPart) : Op → Prop
  | .readImageFromOffset _ _ _ => selected t device vars ops = e.part
  | .writeImageToOffset _ _ _ => e.part = 0
  | _ => True

theorem device_readImageFromOffset {g : GptEnt} {ptOffset size : UInt32}
    (h : readImageFromOffset g ptOffset size s = some a) : a.device = s.device := by
  unfold readImageFromOffset at h
  split at h
  · cases h
  · obtain ⟨blks, -, rfl⟩ := Option.map_eq_some_iff.mp h
    rfl

/-- An access is one to the partition of its entry, exactly if the calls before have
turned there. -/
theorem access_partition_iff (t : GptTable) (ht : Parts t) (c : Caller) (hc : Honest c.emmc)
    (ops : List Op) (op : Op) (e : GptEntPart) (a : Access)
    (h : access t (run (step t) c ops) op = some (e, a)) :
    a.device = e.part ↔ Right t c.emmc.device c.vars ops e op := by
  obtain ⟨hh, hd⟩ := run_device ht hc ops
  generalize run (step t) c ops = c' at h hh hd
  cases op with
  | findPartition name => cases h
  | fetchPartitionInfo num gpte => cases h
  | readImageFromOffset gpte ptOffset size =>
    obtain ⟨e', -, he⟩ := Option.bind_eq_some_iff.mp h
    obtain ⟨a', ha, heq⟩ := Option.map_eq_some_iff.mp he
    cases heq
    rw [device_readImageFromOffset ha, hd]
    rfl
  | writeImageToOffset gpte ptOffset size =>
    obtain ⟨e', -, he⟩ := Option.bind_eq_some_iff.mp h
    obtain ⟨a', ha, heq⟩ := Option.map_eq_some_iff.mp he
    cases heq
    have hzero : a.device = 0 := by
      cases hx : exceeds e.gpt ptOffset size with
      | true =>
        rw [writeImageToOffset_exceeds _ _ hx] at ha
        cases ha
      | false =>
        obtain ⟨s', hsw, hdev, -⟩ := hh.switch (by decide : ¬ (8 : UInt32) < 0)
        rw [writeImageToOffset_within _ _ hx, hsw] at ha
        cases ha
        exact hdev
    rw [hzero]
    exact eq_comm
  | readImageByPtname name imageSize =>
    refine iff_of_true ?_ trivial
    change (readImageByPtname true name imageSize t c'.emmc).1 = some (e, a) at h
    cases hl : lookup t name with
    | none =>
      rw [readImageByPtname_none hl] at h
      cases h
    | some e' =>
      obtain ⟨s', hsw, hdev, -⟩ := hh.switch (ht.le (mem_of_lookup hl))
      rw [readImageByPtname_some hl, hsw] at h
      dsimp only at h
      obtain ⟨a', ha, heq⟩ := Option.map_eq_some_iff.mp h
      cases heq
      rw [device_readImageFromOffset ha]
      exact hdev

def namedEnt (c : UInt8) : GptEnt := { bootEnt with entName := ⟨c :: List.replicate 71 0, rfl⟩ }

def twoParts : GptTable := ⟨[⟨0, namedEnt 97⟩, ⟨4, namedEnt 98⟩], by decide⟩

theorem parts_twoParts : Parts twoParts := by
  intro e he
  simp only [twoParts, List.mem_cons, List.not_mem_nil, or_false] at he
  obtain rfl | rfl := he
  · exact .inl rfl
  · exact .inr ⟨0, rfl⟩

def idle : Caller := ⟨poweron 0, fun _ => none⟩

def findB : List Op := [.findPartition [98], .fetchPartitionInfo 1 0]

theorem access_partition_b :
    ∃ a, access twoParts (run (step twoParts) idle findB) (.readImageFromOffset 0 0 0x200) =
      some (⟨4, namedEnt 98⟩, a) ∧ a.device = 4 := by
  have hvar : (run (step twoParts) idle findB).vars 0 = some ⟨4, namedEnt 98⟩ := rfl
  have hread : readImageFromOffset (namedEnt 98) 0 0x200 (run (step twoParts) idle findB).emmc =
      some ⟨4, BlockRange.blocks (2 ^ 32) (firstBlock (namedEnt 98) 0) (blksOf 0x200)⟩ :=
    readImageFromOffset_eq _ (by decide) (by decide)
  have h : access twoParts (run (step twoParts) idle findB) (.readImageFromOffset 0 0 0x200) =
      some (⟨4, namedEnt 98⟩,
        ⟨4, BlockRange.blocks (2 ^ 32) (firstBlock (namedEnt 98) 0) (blksOf 0x200)⟩) := by
    rw [access, hvar, Option.bind_some, hread]
    rfl
  exact ⟨_, h, (access_partition_iff twoParts parts_twoParts idle (honest_poweron 0) findB _ _ _
    h).mpr rfl⟩

theorem access_wrong_partition :
    (∃ a, access twoParts (run (step twoParts) idle findB) (.writeImageToOffset 0 0 0x200) =
      some (⟨4, namedEnt 98⟩, a) ∧ a.device = 0) ∧
    ∃ a, access twoParts (run (step twoParts) idle (findB ++ [.findPartition [97]]))
      (.readImageFromOffset 0 0 0x200) = some (⟨4, namedEnt 98⟩, a) ∧ a.device = 0 := by
  have hvar : (run (step twoParts) idle findB).vars 0 = some ⟨4, namedEnt 98⟩ := rfl
  have hvar' : (run (step twoParts) idle (findB ++ [.findPartition [97]])).vars 0 =
      some ⟨4, namedEnt 98⟩ := rfl
  have hwrite : writeImageToOffset true (namedEnt 98) 0 0x200
      (run (step twoParts) idle findB).emmc =
        (some ⟨0, writeEmmc (imageStart (namedEnt 98) 0) 0x200⟩, ⟨0, 0⟩) :=
    writeImageToOffset_within true _ (by decide)
  have hread : readImageFromOffset (namedEnt 98) 0 0x200
      (run (step twoParts) idle (findB ++ [.findPartition [97]])).emmc =
        some ⟨0, BlockRange.blocks (2 ^ 32) (firstBlock (namedEnt 98) 0) (blksOf 0x200)⟩ :=
    readImageFromOffset_eq _ (by decide) (by decide)
  refine ⟨⟨⟨0, writeEmmc (imageStart (namedEnt 98) 0) 0x200⟩, ?_, rfl⟩,
    ⟨⟨0, BlockRange.blocks (2 ^ 32) (firstBlock (namedEnt 98) 0) (blksOf 0x200)⟩, ?_, rfl⟩⟩
  · rw [access, hvar, Option.bind_some, hwrite]
    rfl
  · rw [access, hvar', Option.bind_some, hread]
    rfl

end SynaBoot.PartitionCalls
