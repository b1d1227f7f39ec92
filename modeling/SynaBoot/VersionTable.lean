import SynaBoot.Crc32
import SynaBoot.FlashRecord
import SynaBoot.PartTool

namespace SynaBoot.VersionTable

open SynaBoot.CText (uint32)
open SynaBoot.Crc32 SynaBoot.FlashRecord SynaBoot.PartTool SynaBoot.TableCrc

@[ext]
structure VerTableEntry where
  name : Bytes 16
  part1MinorVersion : UInt32
  part1MajorVersion : UInt32
  part1StartBlkind : UInt32
  part1Blks : UInt32
  part2MinorVersion : UInt32
  part2MajorVersion : UInt32
  part2StartBlkind : UInt32
  part2Blks : UInt32
  writeProtectFlag : UInt32
  partType : Bytes 16

def magicNumber : UInt32 := 0xd2ada3f1
def ouDone : UInt32 := 0x55504544

def VerTableEntry.toBytes (e : VerTableEntry) : List UInt8 :=
  e.name.1 ++ le32 e.part1MinorVersion ++ le32 e.part1MajorVersion ++ le32 e.part1StartBlkind ++
    le32 e.part1Blks ++ le32 e.part2MinorVersion ++ le32 e.part2MajorVersion ++
    le32 e.part2StartBlkind ++ le32 e.part2Blks ++ le32 e.writeProtectFlag ++ e.partType.1

def bytesAt (n : Nat) (l : List UInt8) (i : Nat) : Bytes n :=
  ⟨(List.range n).map fun j => l.getD (i + j) 0, by simp⟩

def VerTableEntry.ofBytes (l : List UInt8) : VerTableEntry where
  name := bytesAt 16 l 0
  part1MinorVersion := word l 16
  part1MajorVersion := word l 20
  part1StartBlkind := word l 24
  part1Blks := word l 28
  part2MinorVersion := word l 32
  part2MajorVersion := word l 36
  part2StartBlkind := word l 40
  part2Blks := word l 44
  writeProtectFlag := word l 48
  partType := bytesAt 16 l 52

def strcpy (dst : Bytes 16) (s : List Char) : Bytes 16 :=
  overwrite dst 0 (s.map Char.toUInt8 ++ [0])

def unsigned (x : Int) : UInt32 := UInt32.ofNat (uint32 x)

def wpMask (wp : List Char) (word : String) (mask : UInt32) : UInt32 :=
  if word.toList <:+: wp then mask else 0

def wpFlag (wp : List Char) : UInt32 :=
  wpMask wp "normal" 1 ||| wpMask wp "recovery" 2 ||| wpMask wp "all" 3

def startBlkind (args : Args) (e : TableEntry) : UInt32 := unsigned (e.start.tdiv args.blockSize)
def blks (args : Args) (e : TableEntry) : UInt32 := unsigned (e.size / args.blockSize)

def zeros : Bytes 16 := ⟨List.replicate 16 0, by simp⟩

def verTableEntry (args : Args) (table : List TableEntry) (e : TableEntry) : VerTableEntry :=
  let second := (e.backUpEntry.bind fun i => table[i]?).getD e
  { name := strcpy zeros e.name
    part1MinorVersion := unsigned args.verMinor
    part1MajorVersion := unsigned args.verMajor
    part1StartBlkind := startBlkind args e
    part1Blks := blks args e
    part2MinorVersion := 0
    part2MajorVersion := 0
    part2StartBlkind := startBlkind args second
    part2Blks := blks args second
    writeProtectFlag := wpFlag e.writeProtection
    partType := strcpy zeros e.partitionType }

/-- Written over what the variable `vt` held before. -/
def bootloaderEntry (args : Args) (vt : VerTableEntry) : VerTableEntry :=
  { vt with
    name := strcpy vt.name "bootloader".toList
    part1MinorVersion := unsigned args.verMinor
    part1MajorVersion := unsigned args.verMajor
    part1StartBlkind := 0
    part1Blks := 1
    part2MinorVersion := 0
    part2MajorVersion := 0
    part2StartBlkind := 0
    part2Blks := 1 }

/-- In eMMC mode those of the boot partitions come first. -/
def versionTable (emmc : Bool) (args : Args) (vt : VerTableEntry) (table : List TableEntry) :
    List VerTableEntry :=
  (if emmc then [bootloaderEntry args vt] else []) ++
    (table.filter fun e => !e.isBackUp).map (verTableEntry args table)

def versionHeader (numEntries : Nat) : List UInt8 :=
  le32 magicNumber ++ le32 ouDone ++ le32 (UInt32.ofNat numEntries)

/-- The header is written again when the entries are counted. -/
def versionTableFile (es : List VerTableEntry) : List UInt8 :=
  let file := versionHeader 0 ++ es.flatMap VerTableEntry.toBytes
  versionHeader es.length ++ file.drop (versionHeader es.length).length

def parsePt (emmc : Bool) (args : Args) (vt : VerTableEntry) (config : List Char) :
    Option (List UInt8) :=
  (acceptedTable (if emmc then .emmc else .nand) args config).map fun table =>
    versionTableFile (versionTable emmc args vt table)

structure VerTable where
  num : Nat
  vt : List VerTableEntry
  devIds : List UInt32

def nextDevId (flashDevIdInc : UInt32 → UInt32) (devId : UInt32) (e : VerTableEntry) : UInt32 :=
  let devId := flashDevIdInc devId
  if e.part1StartBlkind ≠ e.part2StartBlkind then flashDevIdInc devId else devId

/-- `parse_version_table` of a buffer at an address. -/
def parseVersionTable (flashDevIdInc : UInt32 → UInt32) (addr : Nat) (buff : List UInt8) :
    Option VerTable :=
  let numEntries := word buff 8
  let vtSize : UInt32 := 12 + numEntries * 68
  if 2048 ≤ vtSize then none
  else if word buff 0 ≠ magicNumber ∨ 0xffffffff ≠ crc32 addr 0 (buff.take (vtSize + 4).toNat) then
    none
  else
    let vt := (List.range numEntries.toNat).map fun i =>
      VerTableEntry.ofBytes (buff.drop (12 + 68 * i))
    some ⟨numEntries.toNat, vt, vt.scanl (nextDevId flashDevIdInc) 0 |>.dropLast⟩

theorem length_toBytes (e : VerTableEntry) : e.toBytes.length = 68 := by
  simp [VerTableEntry.toBytes, length_le32, e.name.2, e.partType.2]

theorem bytesAt_append {n : Nat} (b : Bytes n) (l r : List UInt8) :
    bytesAt n (l ++ (b.1 ++ r)) l.length = b := by
  apply Subtype.ext
  apply List.ext_getElem
  · simp [bytesAt, b.2]
  · intro i h₁ h₂
    simp only [bytesAt, List.getElem_map, List.getElem_range]
    rw [List.getD_append_right _ _ _ _ (by omega), Nat.add_sub_cancel_left,
      List.getD_append _ _ _ _ h₂, List.getD_eq_getElem _ _ h₂]

theorem word_flatMap (ws : List UInt32) (r : List UInt8) {k : Nat} (hk : k < ws.length) :
    word (ws.flatMap le32 ++ r) (4 * k) = ws[k] := by
  induction ws generalizing k with
  | nil => cases hk
  | cons w ws ih =>
    rw [List.flatMap_cons, List.append_assoc]
    cases k with
    | zero => exact word_head w _
    | succ k =>
      rw [word_tail w (by omega), Nat.mul_succ, Nat.add_sub_cancel]
      exact ih (Nat.lt_of_succ_lt_succ hk)

def VerTableEntry.words (e : VerTableEntry) : List UInt32 :=
  [e.part1MinorVersion, e.part1MajorVersion, e.part1StartBlkind, e.part1Blks, e.part2MinorVersion,
    e.part2MajorVersion, e.part2StartBlkind, e.part2Blks, e.writeProtectFlag]

theorem toBytes_append (e : VerTableEntry) (r : List UInt8) :
    e.toBytes ++ r = e.name.1 ++ (e.words.flatMap le32 ++ (e.partType.1 ++ r)) := by
  simp only [VerTableEntry.toBytes, VerTableEntry.words, List.flatMap_cons, List.flatMap_nil,
    List.append_nil, List.append_assoc]

theorem ofBytes_toBytes (e : VerTableEntry) (r : List UInt8) :
    VerTableEntry.ofBytes (e.toBytes ++ r) = e := by
  have hn := e.name.2
  have hword : ∀ k : Fin 9, word (e.toBytes ++ r) (16 + 4 * k.1) = e.words.get k := by
    intro k
    rw [toBytes_append, word_append (by omega), hn, Nat.add_sub_cancel_left]
    exact word_flatMap e.words _ k.2
  have hp : 52 = (e.name.1 ++ e.words.flatMap le32).length := by
    rw [List.length_append, hn]
    rfl
  apply VerTableEntry.ext
  case name =>
    change bytesAt 16 (e.toBytes ++ r) 0 = e.name
    rw [toBytes_append]
    exact bytesAt_append e.name [] _
  case part1MinorVersion => exact hword 0
  case part1MajorVersion => exact hword 1
  case part1StartBlkind => exact hword 2
  case part1Blks => exact hword 3
  case part2MinorVersion => exact hword 4
  case part2MajorVersion => exact hword 5
  case part2StartBlkind => exact hword 6
  case part2Blks => exact hword 7
  case writeProtectFlag => exact hword 8
  case partType =>
    change bytesAt 16 (e.toBytes ++ r) 52 = e.partType
    rw [toBytes_append, ← List.append_assoc, hp]
    exact bytesAt_append e.partType _ r

theorem drop_entries (e : VerTableEntry) (es : List VerTableEntry) (r : List UInt8) (i : Nat) :
    ((e :: es).flatMap VerTableEntry.toBytes ++ r).drop (68 * (i + 1)) =
      (es.flatMap VerTableEntry.toBytes ++ r).drop (68 * i) := by
  have hl := length_toBytes e
  rw [List.flatMap_cons, List.append_assoc, List.drop_append, List.drop_eq_nil_of_le (by omega),
    List.nil_append, hl, Nat.mul_succ, Nat.add_sub_cancel]

theorem range_ofBytes (es : List VerTableEntry) (r : List UInt8) :
    (List.range es.length).map (fun i =>
      VerTableEntry.ofBytes ((es.flatMap VerTableEntry.toBytes ++ r).drop (68 * i))) = es := by
  induction es with
  | nil => rfl
  | cons e es ih =>
    rw [List.length_cons, List.range_succ_eq_map, List.map_cons, List.map_map]
    refine List.cons_eq_cons.mpr ⟨?_, ?_⟩
    · rw [Nat.mul_zero, List.drop_zero, List.flatMap_cons, List.append_assoc, ofBytes_toBytes]
    · refine Eq.trans ?_ ih
      apply List.map_congr_left
      intro i _
      exact congrArg VerTableEntry.ofBytes (drop_entries e es r i)

theorem length_versionHeader (n : Nat) : (versionHeader n).length = 12 := rfl

theorem versionTableFile_eq (es : List VerTableEntry) :
    versionTableFile es = versionHeader es.length ++ es.flatMap VerTableEntry.toBytes := by
  unfold versionTableFile
  dsimp only
  rw [length_versionHeader, List.drop_left' (length_versionHeader 0)]

theorem length_versionTableFile (es : List VerTableEntry) :
    (versionTableFile es).length = 12 + 68 * es.length := by
  rw [versionTableFile_eq, List.length_append, length_versionHeader]
  congr 1
  induction es with
  | nil => rfl
  | cons e es ih =>
    rw [List.flatMap_cons, List.length_append, length_toBytes, ih, List.length_cons]
    omega

theorem length_crcAppend (addr : Nat) (file : List UInt8) :
    (crcAppend addr file).length = file.length + 4 := by
  rw [crcAppend, List.length_append]
  rfl

theorem parseVersionTable_crcAppend (flashDevIdInc : UInt32 → UInt32) (addr addr' : Nat)
    (es : List VerTableEntry) (pad : List UInt8) (h : (versionTableFile es).length < 2048) :
    ∃ vts, parseVersionTable flashDevIdInc addr (crcAppend addr' (versionTableFile es) ++ pad) =
      some vts ∧ vts.num = es.length ∧ vts.vt = es := by
  have hlen := length_versionTableFile es
  have hn : (UInt32.ofNat es.length).toNat = es.length := by
    rw [UInt32.toNat_ofNat']
    omega
  obtain ⟨r, hbuff⟩ : ∃ r, crcAppend addr' (versionTableFile es) ++ pad =
      versionHeader es.length ++ (es.flatMap VerTableEntry.toBytes ++ r) := by
    refine ⟨leBytes (fcrc32 addr' 0 (versionTableFile es) ^^^ 0xffffffff) ++ pad, ?_⟩
    rw [crcAppend, versionTableFile_eq, List.append_assoc, List.append_assoc]
  have hmagic : word (crcAppend addr' (versionTableFile es) ++ pad) 0 = magicNumber := by
    rw [hbuff, versionHeader, List.append_assoc, List.append_assoc, word_head]
  have hnum : word (crcAppend addr' (versionTableFile es) ++ pad) 8 = UInt32.ofNat es.length := by
    rw [hbuff, versionHeader, List.append_assoc, List.append_assoc, word_tail _ (by decide),
      word_tail _ (by decide)]
    exact word_head _ _
  have hsize : ((12 : UInt32) + UInt32.ofNat es.length * 68).toNat = 12 + 68 * es.length := by
    rw [UInt32.toNat_add, UInt32.toNat_mul, hn]
    change (12 + es.length * 68 % 2 ^ 32) % 2 ^ 32 = _
    omega
  have htake : (crcAppend addr' (versionTableFile es) ++ pad).take
      ((12 : UInt32) + UInt32.ofNat es.length * 68 + 4).toNat =
        crcAppend addr' (versionTableFile es) := by
    apply List.take_left'
    rw [length_crcAppend, hlen, UInt32.toNat_add, hsize]
    change _ = (_ + 4) % 2 ^ 32
    omega
  have hvt : (List.range (UInt32.ofNat es.length).toNat).map (fun i => VerTableEntry.ofBytes
      ((crcAppend addr' (versionTableFile es) ++ pad).drop (12 + 68 * i))) = es := by
    rw [hn, hbuff]
    refine Eq.trans ?_ (range_ofBytes es r)
    apply List.map_congr_left
    intro i _
    rw [← List.drop_drop, List.drop_left' (length_versionHeader _)]
  unfold parseVersionTable
  simp only [hmagic, hnum, htake, crc32_crcAppend, hvt]
  rw [if_neg, if_neg]
  · exact ⟨_, rfl, hn, rfl⟩
  · simp
  · rw [UInt32.le_iff_toNat_le, hsize]
    change ¬2048 ≤ _
    omega

/-- The loader reads back the version table of every configuration that `parse_pt` accepts. -/
theorem version_table_round_trip (emmc : Bool) (args : Args) (vt : VerTableEntry)
    (config : List Char) (file : List UInt8) (h : parsePt emmc args vt config = some file)
    (hsize : file.length < 2048) (flashDevIdInc : UInt32 → UInt32) (addr addr' : Nat) :
    (crcAppend addr' file).length ≤ 2048 ∧ ∀ pad : List UInt8, ∃ table vts,
      acceptedTable (if emmc then .emmc else .nand) args config = some table ∧
      parseVersionTable flashDevIdInc addr (crcAppend addr' file ++ pad) = some vts ∧
      vts.num = (versionTable emmc args vt table).length ∧
      vts.vt = versionTable emmc args vt table := by
  obtain ⟨table, ht, rfl⟩ := Option.map_eq_some_iff.mp h
  have hlen := length_versionTableFile (versionTable emmc args vt table)
  refine ⟨by rw [length_crcAppend]; omega, fun pad => ?_⟩
  obtain ⟨vts, hp, hn, hvt⟩ := parseVersionTable_crcAppend flashDevIdInc addr addr'
    (versionTable emmc args vt table) pad hsize
  exact ⟨table, vts, ht, hp, hn, hvt⟩

def bootArgs : Args := ⟨1, 0, 2 ^ 18, 2 ^ 23, by decide, by decide⟩
def bootConfig : List Char := "1M boot\n- data 1 slc normal all\n".toList
def blank : VerTableEntry := ⟨zeros, 0, 0, 0, 0, 0, 0, 0, 0, 0, zeros⟩

theorem version_table_round_trip_boot : ∃ file table vts,
    parsePt false bootArgs blank bootConfig = some file ∧
    acceptedTable .nand bootArgs bootConfig = some table ∧
    parseVersionTable (· + 1) 0 (crcAppend 0 file) = some vts ∧
    vts.vt = versionTable false bootArgs blank table := by
  have hsome : (parsePt false bootArgs blank bootConfig).isSome := by decide +kernel
  have hsmall : ∀ file ∈ parsePt false bootArgs blank bootConfig, file.length < 2048 := by
    decide +kernel
  obtain ⟨file, hf⟩ := Option.isSome_iff_exists.mp hsome
  obtain ⟨table, vts, ht, hp, -, hvt⟩ :=
    (version_table_round_trip false _ _ _ file hf (hsmall file hf) (· + 1) 0 0).2 []
  rw [List.append_nil] at hp
  exact ⟨file, table, vts, hf, ht, hp, hvt⟩

end SynaBoot.VersionTable
