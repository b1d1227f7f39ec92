import SynaBoot.EmmcParts
import SynaBoot.TsArea
import SynaBoot.VersionTable

namespace SynaBoot.VersionBounds

open SynaBoot.Crc32 SynaBoot.EmmcParts SynaBoot.FlashRecord SynaBoot.TableCrc
open SynaBoot.TsArea (load)
open SynaBoot.VersionTable (magicNumber ouDone VerTableEntry versionHeader length_crcAppend)

/-- With two copies, or as `CONFIG_EMMC_WRITE_PROTECT` has it. -/
inductive Layout where
  | twoCopies
  | writeProtect
  deriving DecidableEq, Repr

def Layout.entrySize : Layout → ℕ
  | .twoCopies => 68
  | .writeProtect => 48

def maxVersionTable : ℕ := 32

structure VerTable (L : Layout) where
  num : ℕ
  vt : Fin maxVersionTable → Bytes L.entrySize
  devIds : Fin maxVersionTable → UInt32

section Parser

variable (L : Layout) (flashDevIdInc : UInt32 → UInt32) (addr : ℕ) (buff : Bytes 2048)

def entryBytes (i : ℕ) : List UInt8 := (buff.1.drop (12 + L.entrySize * i)).take L.entrySize

def tableEntry (i : ℕ) : Option (Bytes L.entrySize) :=
  if h : 12 + L.entrySize * (i + 1) ≤ 2048 then
    some ⟨entryBytes L buff i, by
      rw [entryBytes, List.length_take, List.length_drop, buff.2]
      rw [Nat.mul_succ] at h
      omega⟩
  else none

def nextDevId (devId : UInt32) (e : List UInt8) : UInt32 :=
  match L with
  | .twoCopies =>
    if word e 24 ≠ word e 40 then flashDevIdInc (flashDevIdInc devId) else flashDevIdInc devId
  | .writeProtect => flashDevIdInc devId

/-- `none` is a write outside of the table. -/
def VerTable.push {L : Layout} (vts : VerTable L) (i : ℕ) (e : Bytes L.entrySize)
    (devId : UInt32) : Option (VerTable L) :=
  if h : i < maxVersionTable then
    some ⟨vts.num + 1, Function.update vts.vt ⟨i, h⟩ e, Function.update vts.devIds ⟨i, h⟩ devId⟩
  else none

def copyLoop : ℕ → ℕ → UInt32 → VerTable L → Option (VerTable L)
  | 0, _, _, vts => some vts
  | n + 1, i, devId, vts =>
    (tableEntry L buff i).bind fun e =>
      (vts.push i e devId).bind fun vts =>
        copyLoop n (i + 1) (nextDevId L flashDevIdInc devId e.1) vts

def numEntries : UInt32 := word buff.1 8

def vtSize : UInt32 := 12 + numEntries buff * UInt32.ofNat L.entrySize

/-- `none` is an access outside the buffer or outside the table. -/
def parseVersionTable (vts : VerTable L) : Option (Int × VerTable L) :=
  if 2048 ≤ vtSize L buff then some (flashOpErr, vts)
  else if word buff.1 0 ≠ magicNumber then some (flashOpErr, vts)
  else
    (load buff 0 (vtSize L buff + 4).toNat).bind fun bytes =>
      if 0xffffffff ≠ crc32 addr 0 bytes then some (flashOpErr, vts)
      else
        (copyLoop L flashDevIdInc buff (numEntries buff).toNat 0 0 { vts with num := 0 }).map
          (Prod.mk 0)

def Accepted : Prop :=
  vtSize L buff < 2048 ∧ word buff.1 0 = magicNumber ∧
    crc32 addr 0 (buff.1.take (vtSize L buff + 4).toNat) = 0xffffffff

def devIdAt : ℕ → UInt32
  | 0 => 0
  | i + 1 => nextDevId L flashDevIdInc (devIdAt i) (entryBytes L buff i)

structure Filled (i : ℕ) (vts : VerTable L) : Prop where
  num : vts.num = i
  vt : ∀ j : Fin maxVersionTable, j.1 < i → (vts.vt j).1 = entryBytes L buff j
  devIds : ∀ j : Fin maxVersionTable, j.1 < i → vts.devIds j = devIdAt L flashDevIdInc buff j

end Parser

variable {L : Layout} {flashDevIdInc : UInt32 → UInt32} {addr : ℕ} {buff : Bytes 2048}

theorem update_below {α : Type} {n i : ℕ} {P : Fin n → α → Prop} {f : Fin n → α} {a : α}
    (hi : i < n) (ha : P ⟨i, hi⟩ a) (hf : ∀ j : Fin n, j.1 < i → P j (f j)) :
    ∀ j : Fin n, j.1 < i + 1 → P j (Function.update f ⟨i, hi⟩ a j) := by
  intro j hj
  by_cases hji : j = ⟨i, hi⟩
  · rw [hji, Function.update_self]
    exact ha
  · rw [Function.update_of_ne hji]
    have hne : j.1 ≠ i := fun h => hji (Fin.ext h)
    exact hf j (by omega)

theorem Filled.push {i : ℕ} {vts : VerTable L} {e : Bytes L.entrySize}
    (hf : Filled L flashDevIdInc buff i vts) (hi : i < maxVersionTable)
    (he : tableEntry L buff i = some e) :
    ∃ vts', vts.push i e (devIdAt L flashDevIdInc buff i) = some vts' ∧
      Filled L flashDevIdInc buff (i + 1) vts' := by
  have hbytes : e.1 = entryBytes L buff i := by
    unfold tableEntry at he
    split at he
    · rw [← Option.some.inj he]
    · cases he
  refine ⟨_, dif_pos hi, ⟨congrArg (· + 1) hf.num, ?_, ?_⟩⟩
  · exact update_below (P := fun j (b : Bytes _) => b.1 = entryBytes L buff j) hi hbytes hf.vt
  · exact update_below (P := fun j d => d = devIdAt L flashDevIdInc buff j) hi rfl hf.devIds

theorem tableEntry_within (buff : Bytes 2048) {i : ℕ} (h : 12 + L.entrySize * (i + 1) ≤ 2048) :
    ∃ e, tableEntry L buff i = some e ∧ e.1 = entryBytes L buff i :=
  ⟨_, dif_pos h, rfl⟩

theorem copyLoop_within {n i : ℕ} {vts : VerTable L} (hf : Filled L flashDevIdInc buff i vts)
    (ht : i + n ≤ maxVersionTable) (hb : 12 + L.entrySize * (i + n) ≤ 2048) :
    ∃ vts', copyLoop L flashDevIdInc buff n i (devIdAt L flashDevIdInc buff i) vts = some vts' ∧
      Filled L flashDevIdInc buff (i + n) vts' := by
  induction n generalizing i vts with
  | zero => exact ⟨vts, rfl, hf⟩
  | succ n ih =>
    have hi : 12 + L.entrySize * (i + 1) ≤ 2048 :=
      (Nat.add_le_add_left (Nat.mul_le_mul_left _ (by omega)) 12).trans hb
    obtain ⟨e, he, hbytes⟩ := tableEntry_within buff hi
    obtain ⟨vts₁, hp, hf₁⟩ := hf.push (by omega) he
    rw [show i + (n + 1) = i + 1 + n by omega] at ht hb ⊢
    obtain ⟨vts₂, hc, hf₂⟩ := ih hf₁ ht hb
    refine ⟨vts₂, ?_, hf₂⟩
    rw [copyLoop, he, Option.bind_some, hp, Option.bind_some, hbytes]
    exact hc

theorem copyLoop_beyond {n i : ℕ} (devId : UInt32) (vts : VerTable L) (hi : i ≤ maxVersionTable)
    (h : maxVersionTable < i + n) : copyLoop L flashDevIdInc buff n i devId vts = none := by
  induction n generalizing i devId vts with
  | zero => omega
  | succ n ih =>
    rw [copyLoop, Option.bind_eq_none_iff]
    intro e _
    rw [Option.bind_eq_none_iff]
    intro vts' hp
    have hlt : i < maxVersionTable := by
      by_contra hge
      rw [VerTable.push, dif_neg hge] at hp
      cases hp
    exact ih _ vts' hlt (by omega)

theorem toNat_vtSize : (vtSize L buff).toNat =
    (12 + (numEntries buff).toNat * L.entrySize) % 2 ^ 32 := by
  have hsize : (UInt32.ofNat L.entrySize).toNat = L.entrySize := by cases L <;> rfl
  rw [vtSize, UInt32.toNat_add, UInt32.toNat_mul, hsize, Nat.add_mod_mod]
  rfl

theorem vtSize_room (h : vtSize L buff < 2048) : (vtSize L buff + 4).toNat ≤ 2048 := by
  have hsize : (vtSize L buff).toNat < 2048 := h
  have hmod : (vtSize L buff).toNat % 4 = 0 := by
    rw [toNat_vtSize]
    cases L <;> simp only [Layout.entrySize] <;> omega
  rw [UInt32.toNat_add]
  change ((vtSize L buff).toNat + 4) % 2 ^ 32 ≤ 2048
  omega

theorem load_checked (h : vtSize L buff < 2048) : load buff 0 (vtSize L buff + 4).toNat =
    some (buff.1.take (vtSize L buff + 4).toNat) := by
  have hroom := vtSize_room h
  exact if_pos (.inr (by omega))

theorem parseVersionTable_rejected (h : ¬ Accepted L addr buff) (vts : VerTable L) :
    parseVersionTable L flashDevIdInc addr buff vts = some (flashOpErr, vts) := by
  unfold parseVersionTable
  by_cases hsize : 2048 ≤ vtSize L buff
  · rw [if_pos hsize]
  have hlt : vtSize L buff < 2048 := UInt32.not_le.mp hsize
  by_cases hmagic : word buff.1 0 = magicNumber
  · rw [if_neg hsize, if_neg (not_not.mpr hmagic), load_checked hlt, Option.bind_some, if_pos]
    exact fun hcrc => h ⟨hlt, hmagic, hcrc.symm⟩
  · rw [if_neg hsize, if_pos hmagic]

theorem parseVersionTable_accepted (h : Accepted L addr buff) (vts : VerTable L) :
    parseVersionTable L flashDevIdInc addr buff vts =
      (copyLoop L flashDevIdInc buff (numEntries buff).toNat 0 0 { vts with num := 0 }).map
        (Prod.mk 0) := by
  obtain ⟨hsize, hmagic, hcrc⟩ := h
  unfold parseVersionTable
  rw [if_neg (UInt32.not_le.mpr hsize), if_neg (not_not.mpr hmagic), load_checked hsize,
    Option.bind_some, if_neg (not_not.mpr hcrc.symm)]

theorem Accepted.within (h : Accepted L addr buff)
    (hn : (numEntries buff).toNat ≤ maxVersionTable) :
    12 + L.entrySize * (numEntries buff).toNat ≤ 2048 := by
  have hsize : (vtSize L buff).toNat < 2048 := h.1
  have hle : L.entrySize ≤ 68 := by cases L <;> decide
  have hmul : (numEntries buff).toNat * L.entrySize ≤ 32 * 68 := Nat.mul_le_mul hn hle
  rw [toNat_vtSize, Nat.mod_eq_of_lt (by omega)] at hsize
  rw [Nat.mul_comm]
  exact hsize.le

theorem filled_zero (flashDevIdInc : UInt32 → UInt32) (buff : Bytes 2048) (vts : VerTable L) :
    Filled L flashDevIdInc buff 0 { vts with num := 0 } :=
  ⟨rfl, fun _ h => absurd h (Nat.not_lt_zero _), fun _ h => absurd h (Nat.not_lt_zero _)⟩

theorem parseVersionTable_within (flashDevIdInc : UInt32 → UInt32) (h : Accepted L addr buff)
    (hn : (numEntries buff).toNat ≤ maxVersionTable) (vts : VerTable L) :
    ∃ vts', parseVersionTable L flashDevIdInc addr buff vts = some (0, vts') ∧
      Filled L flashDevIdInc buff (numEntries buff).toNat vts' := by
  have hb := h.within hn
  rw [← Nat.zero_add (numEntries buff).toNat] at hn hb
  obtain ⟨vts', hc, hf⟩ := copyLoop_within (filled_zero flashDevIdInc buff vts) hn hb
  rw [Nat.zero_add] at hf
  refine ⟨vts', ?_, hf⟩
  rw [parseVersionTable_accepted h]
  exact congrArg (Option.map (Prod.mk 0)) hc

theorem parseVersionTable_beyond (h : Accepted L addr buff)
    (hn : maxVersionTable < (numEntries buff).toNat) (vts : VerTable L) :
    parseVersionTable L flashDevIdInc addr buff vts = none := by
  rw [parseVersionTable_accepted h, copyLoop_beyond 0 _ (Nat.zero_le _) (by omega)]
  rfl

/-- The parser stays inside exactly if no table with too many entries passes the checks. -/
theorem parse_version_table_safe_iff (L : Layout) (flashDevIdInc : UInt32 → UInt32) (addr : ℕ)
    (buff : Bytes 2048) (vts : VerTable L) :
    (∃ r vts', parseVersionTable L flashDevIdInc addr buff vts = some (r, vts') ∧
      (r = 0 → vts'.num = (numEntries buff).toNat ∧ vts'.num ≤ maxVersionTable)) ↔
    (Accepted L addr buff → (numEntries buff).toNat ≤ maxVersionTable) := by
  constructor
  · rintro ⟨r, vts', hp, -⟩ ha
    by_contra hn
    rw [parseVersionTable_beyond ha (Nat.lt_of_not_le hn)] at hp
    cases hp
  · intro h
    by_cases ha : Accepted L addr buff
    · obtain ⟨vts', hp, hf⟩ := parseVersionTable_within flashDevIdInc ha (h ha) vts
      exact ⟨0, vts', hp, fun _ => ⟨hf.num, hf.num.trans_le (h ha)⟩⟩
    · refine ⟨flashOpErr, vts, parseVersionTable_rejected ha vts, fun h0 => ?_⟩
      exact absurd h0 (by decide : flashOpErr ≠ 0)

theorem getD_take {l : List UInt8} {n i : ℕ} (h : i < n) : (l.take n).getD i 0 = l.getD i 0 := by
  rw [List.getD_eq_getElem?_getD, List.getElem?_take_of_lt h, ← List.getD_eq_getElem?_getD]

theorem ofBytes_take (l : List UInt8) :
    VerTableEntry.ofBytes (l.take 68) = VerTableEntry.ofBytes l := by
  have hword : ∀ i, i ≤ 64 → word (l.take 68) i = word l i := fun i hi =>
    word_congr fun j _ hj => getD_take (by omega)
  have hbytes : ∀ i, i ≤ 52 →
      VersionTable.bytesAt 16 (l.take 68) i = VersionTable.bytesAt 16 l i := by
    intro i hi
    apply Subtype.ext
    simp only [VersionTable.bytesAt]
    refine List.map_congr_left fun j hj => ?_
    have hlt := List.mem_range.mp hj
    exact getD_take (by omega)
  apply VerTableEntry.ext
  case name => exact hbytes 0 (by decide)
  case partType => exact hbytes 52 (by decide)
  all_goals exact hword _ (by decide)

theorem ofBytes_entryBytes (i : ℕ) : VerTableEntry.ofBytes (entryBytes .twoCopies buff i) =
    VerTableEntry.ofBytes (buff.1.drop (12 + 68 * i)) :=
  ofBytes_take _

theorem foldl_nextDevId (i : ℕ) :
    ((List.range i).map fun k => VerTableEntry.ofBytes (buff.1.drop (12 + 68 * k))).foldl
      (VersionTable.nextDevId flashDevIdInc) 0 = devIdAt .twoCopies flashDevIdInc buff i := by
  induction i with
  | zero => rfl
  | succ i ih =>
    rw [List.range_succ, List.map_append, List.foldl_append, ih, List.map_singleton,
      List.foldl_cons, List.foldl_nil, ← ofBytes_entryBytes]
    rfl

theorem word_versionHeader (n : ℕ) (r : List UInt8) :
    word (versionHeader n ++ r) 0 = magicNumber ∧
      word (versionHeader n ++ r) 8 = UInt32.ofNat n := by
  rw [versionHeader, List.append_assoc, List.append_assoc]
  refine ⟨word_head _ _, ?_⟩
  rw [word_tail _ (by decide), word_tail _ (by decide)]
  exact word_head _ _

theorem accepted_crcAppend (addr' n : ℕ) (body pad : List UInt8)
    (hbuff : buff.1 = crcAppend addr' (versionHeader n ++ body) ++ pad)
    (hsize : vtSize L buff = UInt32.ofNat (12 + body.length)) (hlt : 12 + body.length < 2048) :
    Accepted L addr buff := by
  have hnat : (UInt32.ofNat (12 + body.length)).toNat = 12 + body.length := by
    rw [UInt32.toNat_ofNat']
    omega
  refine ⟨?_, ?_, ?_⟩
  · rw [hsize, UInt32.lt_iff_toNat_lt, hnat]
    exact hlt
  · rw [hbuff, crcAppend, List.append_assoc, List.append_assoc]
    exact (word_versionHeader n _).1
  · have htake : (vtSize L buff + 4).toNat =
        (crcAppend addr' (versionHeader n ++ body)).length := by
      rw [length_crcAppend, List.length_append, hsize, UInt32.toNat_add, hnat]
      change (12 + body.length + 4) % 2 ^ 32 = 12 + body.length + 4
      omega
    rw [hbuff, List.take_left' htake.symm, crc32_crcAppend]

def wrappedTable : Bytes 2048 :=
  ⟨crcAppend 0 (versionHeader (2 ^ 30)) ++ List.replicate 2032 0, by
    rw [List.length_append, length_crcAppend, List.length_replicate]
    rfl⟩

def longTable : Bytes 2048 :=
  ⟨crcAppend 0 (versionHeader 33 ++ List.replicate 1584 0) ++ List.replicate 448 0, by
    rw [List.length_append, length_crcAppend, List.length_append, List.length_replicate,
      List.length_replicate]
    rfl⟩

theorem numEntries_crcAppend (addr' n : ℕ) (body pad : List UInt8)
    (hbuff : buff.1 = crcAppend addr' (versionHeader n ++ body) ++ pad) :
    numEntries buff = UInt32.ofNat n := by
  rw [numEntries, hbuff, crcAppend, List.append_assoc, List.append_assoc]
  exact (word_versionHeader n _).2

def emptyTable (L : Layout) : VerTable L :=
  ⟨0, fun _ => ⟨List.replicate L.entrySize 0, List.length_replicate⟩, fun _ => 0⟩

theorem wrappedTable_overruns (vts : VerTable L) :
    parseVersionTable L flashDevIdInc 0 wrappedTable vts = none := by
  have hw : wrappedTable.1 =
      crcAppend 0 (versionHeader (2 ^ 30) ++ []) ++ List.replicate 2032 0 := rfl
  have hn := numEntries_crcAppend _ _ _ _ hw
  apply parseVersionTable_beyond
  · apply accepted_crcAppend _ _ _ _ hw
    · rw [vtSize, hn]
      cases L <;> decide
    · decide
  · rw [hn]
    decide

theorem parse_version_table_overruns :
    parseVersionTable .twoCopies (· + 1) 0 wrappedTable (emptyTable _) = none ∧
    parseVersionTable .writeProtect (· + 1) 0 wrappedTable (emptyTable _) = none ∧
    parseVersionTable .writeProtect (· + 1) 0 longTable (emptyTable _) = none := by
  have hlong : numEntries longTable = UInt32.ofNat 33 :=
    numEntries_crcAppend 0 33 (List.replicate 1584 0) (List.replicate 448 0) rfl
  refine ⟨wrappedTable_overruns _, wrappedTable_overruns _, ?_⟩
  apply parseVersionTable_beyond
  · apply accepted_crcAppend 0 33 (List.replicate 1584 0) (List.replicate 448 0) rfl
    · rw [vtSize, hlong, List.length_replicate]
      decide
    · rw [List.length_replicate]
      decide
  · rw [hlong]
    decide

def noEntries : Bytes 2048 :=
  ⟨crcAppend 0 (versionHeader 0 ++ []) ++ List.replicate 2032 0, by
    rw [List.length_append, length_crcAppend, List.length_replicate]
    rfl⟩

end SynaBoot.VersionBounds
