import SynaBoot.CText
import SynaBoot.Schedules

namespace SynaBoot.Emmcburn

open SynaBoot.CText

def maxGptPtNum : Nat := 128
def partNameLen : Nat := 32
def gptEntryNumbers : Nat := 128
def gptHeaderLba : Nat := 1
def partitionEntryLba : Nat := 2
def firstUsableLba : Nat := partitionEntryLba + 32
def emmcPartUser : Nat := 0

def basicDataGuid : Nat := 0xebd0a0a2b9e5443387c068b6b72699c7

structure DiskPartition where
  start : Nat
  size : Nat
  name : List Char
  deriving DecidableEq, Repr

/-- `gpt_entry`. The type of an entry that is not in use is zero. -/
structure GptEntry where
  typeGuid : Nat
  startingLba : Nat
  endingLba : Nat
  name : List Char
  deriving DecidableEq, Repr

def unusedEntry : GptEntry := ⟨0, 0, 0, []⟩

def GptEntry.used (e : GptEntry) : Bool := e.typeGuid ≠ 0

def GptEntry.cnt (e : GptEntry) : Nat := uint64 (e.endingLba - e.startingLba + 1)

/-- The sectors, and the entries of the primary GPT if that is valid. -/
structure HwPart where
  lba : Nat
  gpt : Option (List GptEntry)
  lba_range : 67 ≤ lba ∧ lba < 2 ^ 64

@[ext]
structure GptCache where
  entries : List (Nat × GptEntry)
  length_le : entries.length ≤ maxGptPtNum

/-- The eMMC and the static variables of the burner. -/
structure Burner where
  hw : Nat → Option HwPart
  capacityBoot : Nat
  isGptReady : Bool
  cache : GptCache

def poweron (hw : Nat → Option HwPart) (capacityBoot : Nat) : Burner :=
  ⟨hw, capacityBoot, false, [], Nat.zero_le _⟩

def strtoull (cs : List Char) : Nat := digits cs % 2 ^ 64

/-- Blanks are dropped, up to the end of the text. -/
def processInput (text : List Char) : List Char :=
  (text.takeWhile (· ≠ '\x00')).filter fun c => c ≠ ' ' && c ≠ '\t' && c ≠ '\r'

/-- A line of at most one character counts as the end. -/
def getLine : List (List Char) → Option (List Char)
  | [] => none
  | line :: _ => if line.length ≤ 1 then none else some line

def createGptPartition (name : List Char) (start size : Int) : DiskPartition where
  start := uint64 ((int64 (start * 1024 * 1024)).tdiv 512)
  size := uint64 ((int64 (size * 1024 * 1024)).tdiv 512)
  name := name

inductive Rows where
  | done (partitions : List DiskPartition) (rest : List (List Char))
  | invalid
  | overrun

/-- Only the first row's start is read. -/
def parseRows (partitions : List DiskPartition) (ptStart ptSize : Int) : List (List Char) → Rows
  | [] => .done partitions []
  | line :: rest =>
    if line.length ≤ 1 then .done partitions rest
    else
      match fields ',' line with
      | name :: start :: size :: option =>
        if 1 < option.length ∨ partNameLen ≤ name.length ∨ maxGptPtNum ≤ partitions.length then
          .overrun
        else
          let ptStart := if partitions.length = 0 then int64 (strtoull start)
            else int64 (ptStart + ptSize)
          let ptSize := int64 (strtoull size)
          parseRows (partitions ++ [createGptPartition name ptStart ptSize]) ptStart ptSize rest
      | _ => .invalid

/-- A last partition without a size is given the rest of the disk. -/
def gptFillPte (lastUsableLba : Nat) : Nat → List DiskPartition → Option (List GptEntry)
  | _, [] => some []
  | offset, p :: ps =>
    let start := if p.start ≠ 0 then p.start else offset
    let offset := uint64 (start + p.size)
    if start < gptHeaderLba + 1 ∧ gptHeaderLba < offset ∨
        start < firstUsableLba ∧ partitionEntryLba < offset then none
    else if uint64 (lastUsableLba + 1) < offset then none
    else do
      let es ← gptFillPte lastUsableLba offset ps
      let ending := if ps.length = 0 ∧ p.size = 0 then lastUsableLba else uint64 (offset - 1)
      some (⟨basicDataGuid, start, ending, p.name⟩ :: es)

def gptRestore (lba : Nat) (ps : List DiskPartition) : Option (List GptEntry) := do
  let es ← gptFillPte (uint64 (lba - 34)) firstUsableLba ps
  some (es ++ List.replicate (gptEntryNumbers - es.length) unusedEntry)

def setGpt (part : Nat) (gpt : Option (List GptEntry)) (b : Burner) : Burner :=
  { b with hw := Function.update b.hw part ((b.hw part).map fun h => { h with gpt := gpt }) }

def cleanMbrGptTable (part : Nat) (b : Burner) : Bool × Burner :=
  let b := { b with isGptReady := false }
  match b.hw part with
  | none => (false, b)
  | some _ => (true, setGpt part none b)

def sectionPart (line : List Char) : Option (Nat × Bool) :=
  if line.take 3 = "#GP".toList then
    let index := (line.getD 3 '\x00').toNat - '0'.toNat
    if index < 1 ∨ 4 < index then none else some (3 + index, true)
  else if line.take 4 = "#UDA".toList then some (emmcPartUser, true)
  else some (emmcPartUser, false)

def parseSections : Nat → List (List Char) → Burner → Option (Int × Burner)
  | 0, _, b => some (0, b)
  | n + 1, lines, b =>
    match (getLine lines).bind sectionPart with
    | none => some (0, b)
    | some (part, named) =>
      match cleanMbrGptTable part b with
      | (false, b) => some (-1, b)
      | (true, b) =>
        match parseRows [] 0 0 (if named then lines.tail else lines) with
        | .overrun => none
        | .invalid => some (-1, b)
        | .done partitions rest =>
          match (b.hw part).bind fun h => gptRestore h.lba partitions with
          | none => some (-1, b)
          | some es => parseSections n rest { setGpt part (some es) b with isGptReady := false }

def parsePartAndGenGpt (text : List Char) (b : Burner) : Option (Int × Burner) :=
  let lines := fields '\n' (processInput text)
  match getLine lines with
  | none => some (-1, b)
  | some line =>
    if line.length ≠ 4 ∧ line.take 4 ≠ "#GPT".toList then some (0, b)
    else parseSections 5 lines.tail b

def parseGptTable (part : Nat) (entries : List GptEntry) (cache : GptCache) : GptCache where
  entries := cache.entries ++
    ((entries.take (maxGptPtNum - cache.entries.length)).filter GptEntry.used).map (part, ·)
  length_le := by
    have h := (List.length_filter_le GptEntry.used
      (entries.take (maxGptPtNum - cache.entries.length))).trans (List.length_take_le _ _)
    have hc := cache.length_le
    rw [List.length_append, List.length_map]
    omega

def readPartGptPartitionInfo (hw : Nat → Option HwPart) (cache : GptCache) (part : Nat) :
    GptCache :=
  match (hw part).bind HwPart.gpt with
  | none => cache
  | some entries => parseGptTable part entries cache

def gptParts (hw : Nat → Option HwPart) : List Nat :=
  if (hw 4).isSome then [0, 4, 5, 6, 7] else [0]

def readAllGptPartitionInfo (b : Burner) : Burner :=
  if b.isGptReady then b
  else
    { b with
      cache := (gptParts b.hw).foldl (readPartGptPartitionInfo b.hw) b.cache
      isGptReady := true }

def getPartitionNum (part index : Nat) : Nat → Nat → List (Nat × GptEntry) → Option Nat
  | _, _, [] => none
  | i, j, e :: es =>
    if e.1 = part then
      if index = j + 1 then some i else getPartitionNum part index (i + 1) (j + 1) es
    else getPartitionNum part index (i + 1) j es

/-- `struct pt_info`, an error, or whatever stands behind the table. -/
inductive Info where
  | found (part startLba cnt : Nat) (name : List Char)
  | failed
  | outOfBounds
  deriving DecidableEq, Repr

/-- A number not found is unsigned: the table is read at `2 ^ 32 - 1`. -/
def findEntry (part index : Nat) (cache : GptCache) : Info :=
  match (getPartitionNum part index 0 0 cache.entries).bind fun i => cache.entries[i]? with
  | none => .outOfBounds
  | some (_, e) => .found part e.startingLba e.cnt e.name

def getPartitionInfo (name : List Char) (b : Burner) : Info × Burner :=
  let b := readAllGptPartitionInfo b
  let index (cs : List Char) : Nat := strtoull cs % 2 ^ 32
  let info := match name with
    | 'b' :: '1' :: _ => .found 1 0 (b.capacityBoot / 512) "boot1".toList
    | 'b' :: '2' :: _ => .found 2 0 (b.capacityBoot / 512) "boot2".toList
    | 'b' :: _ => .failed
    | 's' :: 'd' :: cs => findEntry emmcPartUser (index cs) b.cache
    | 'g' :: 'p' :: c :: cs =>
      let num := uint32 (c.toNat - '0'.toNat : Int)
      if num < 1 ∨ 4 < num then .failed else findEntry (3 + num) (index cs.tail) b.cache
    | _ => .failed
  (info, b)

inductive Event where
  | partImport (text : List Char)
  | clean (part : Nat)
  | lookup (name : List Char)
  deriving DecidableEq, Repr

def step (e : Event) (b : Burner) : Burner :=
  match e with
  | .partImport text => ((parsePartAndGenGpt text b).map Prod.snd).getD b
  | .clean part => (cleanMbrGptTable part b).2
  | .lookup name => (getPartitionInfo name b).2

end SynaBoot.Emmcburn
