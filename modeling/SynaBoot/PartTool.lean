import SynaBoot.CText

namespace SynaBoot.PartTool

open SynaBoot.CText

/-- `parse_pt` for NAND and for eMMC, and `parse_pt_emmc` for eMMC. -/
inductive Mode where
  | nand
  | emmc
  | emmcGpt
  deriving DecidableEq, Repr

def partNameMaxLen : Nat := 15
def maxEntries : Nat := 256
def sectorSize : Nat := 512
def gptPartReservedSize : Nat := 16 * 2 ^ 20
def backupGptPartMinReservedSize : Nat := 2 ^ 20

structure TableEntry where
  layout : List Char
  name : List Char
  partitionType : List Char := []
  writeProtection : List Char := []
  emmcOperation : List Char := []
  start : Int := 0
  size : Nat := 0
  invisible : Bool := false
  isBackUp : Bool := false
  hasBackUp : Bool := false
  backUpEntry : Option Nat := none
  deriving DecidableEq, Repr

structure Args where
  verMajor : Int
  verMinor : Int
  blockSize : Int
  chipSize : Int
  blockSize_lt : blockSize < 2 ^ 31
  chipSize_lt : chipSize < 2 ^ 63

/-- `int` products, but for megabytes. -/
def amount (blockSize : Int) (text : List Char) : Nat :=
  match text.getLast? with
  | some 'B' | some 'b' => uint64 (int32 (atoi text.dropLast * blockSize))
  | some 'M' | some 'm' => uint64 (atoi text.dropLast * 1024 * 1024)
  | some 'K' | some 'k' => uint64 (int32 (atoi text.dropLast * 1024))
  | _ => uint64 (atoi text)

def unaligned (blockSize : Int) (x : Nat) : Bool := x &&& (blockSize - 1).toNat != 0

def layoutSize (layout : List Char) : List Char := layout.takeWhile (· ≠ '@')
def layoutPos (layout : List Char) : List Char := (layout.dropWhile (· ≠ '@')).tail

def parseLayout (blockSize : Int) (e : TableEntry) : Option TableEntry :=
  let pos := if '@' ∈ e.layout then amount blockSize (layoutPos e.layout) else 0
  let size := amount blockSize (layoutSize e.layout)
  if unaligned blockSize pos || unaligned blockSize size then none
  else some { e with start := int64 pos, size := size }

def fits (w : List Char) : Bool := w.length ≤ partNameMaxLen

/-- The first two of the six are required. -/
def scanNand (line : List Char) : Option TableEntry := do
  let (layout, cs) ← word line
  let (name, cs) ← word cs
  let e : TableEntry := { layout := layout, name := name }
  if !fits layout || !fits name then none
  else
    match (skipNumber cs).bind word with
    | none => some e
    | some (type, cs) =>
      let e := { e with partitionType := type }
      if !fits type then none
      else
        match word cs with
        | none => some e
        | some (data, cs) =>
          if !fits data then none
          else
            match word cs with
            | none => some e
            | some (wp, _) => if fits wp then some { e with writeProtection := wp } else none

/-- Three of the four are required. -/
def scanEmmc (line : List Char) : Option TableEntry := do
  let (layout, cs) ← word line
  let (name, cs) ← word cs
  let (operation, cs) ← word cs
  let option := (word cs).map Prod.fst
  if fits layout && fits name && fits operation && fits (option.getD []) then
    some { layout := layout, name := name, emmcOperation := operation }
  else none

structure Scan where
  table : List TableEntry
  pos1 : Int
  entry : Option Nat
  halfSizeEntry : Option Nat
  chipSize : Int

def halve (e : TableEntry) : TableEntry := { e with size := e.size / 2 }

/-- At most one entry has the operation `enhance`. -/
def markEnhanced (mode : Mode) (s : Scan) (e : TableEntry) : Option Scan :=
  if mode = .emmcGpt then
    let args := fields ',' e.emmcOperation
    if 8 < args.length then none
    else
      match args.count "enhance".toList, s.halfSizeEntry with
      | 0, _ => some s
      | 1, none => some { s with halfSizeEntry := some s.table.length }
      | _, _ => none
  else some s

/-- Up to the entry `-` positions grow from the front. -/
def addEntry (blockSize : Int) (s : Scan) (e : TableEntry) : Option Scan :=
  let i := s.table.length
  if e.layout = ['-'] ∧ s.entry.isSome then none
  else
    let entry := if e.layout = ['-'] then some i else s.entry
    if entry.isSome then some { s with table := s.table ++ [e], entry := entry }
    else do
      let e ← parseLayout blockSize e
      let half := s.halfSizeEntry = some i
      let e := if half then halve e else e
      let chipSize := if half then int64 (s.chipSize - e.size) else s.chipSize
      let pos1 := if e.start = 0 then int64 (s.pos1 + e.size) else int64 (e.start + e.size)
      let e := if e.start = 0 then { e with start := s.pos1 } else e
      if chipSize < pos1 then none
      else some { s with table := s.table ++ [e], pos1 := pos1, chipSize := chipSize }

def readLine (mode : Mode) (blockSize : Int) (s : Scan) (line : List Char) : Option Scan :=
  let line := line.takeWhile fun c => c ≠ '#' && c ≠ '\x00'
  if line.length < 2 then some s
  else do
    let e ← if mode = .nand then scanNand line else scanEmmc line
    let s ← markEnhanced mode s e
    if maxEntries ≤ s.table.length then none else addEntry blockSize s e

def readLines (mode : Mode) (blockSize : Int) (s : Scan) : List (List Char) → Option Scan
  | [] => some s
  | line :: ls => do
    let s ← readLine mode blockSize s line
    readLines mode blockSize s ls

/-- The entries behind `-`, from the last one on. -/
def backward (blockSize : Int) (half : Option Nat) (chipSize : Int) :
    Nat → List TableEntry → Option (List TableEntry × Int × Int)
  | _, [] => some ([], chipSize, chipSize)
  | i, e :: es => do
    let (es, pos2, chipSize) ← backward blockSize half chipSize (i + 1) es
    let e ← parseLayout blockSize e
    let e := if half = some i then halve e else e
    let chipSize := if half = some i then int64 (chipSize - e.size) else chipSize
    let pos2 := if half = some i then chipSize else pos2
    let pos2 := int64 (pos2 - e.size)
    let e := if e.start = 0 then { e with start := pos2 } else e
    some (e :: es, pos2, chipSize)

/-- Made when `-` itself has half size. -/
def backwardAgain (blockSize chipSize : Int) : List TableEntry → Option (List TableEntry × Int)
  | [] => some ([], chipSize)
  | e :: es => do
    let (es, pos2) ← backwardAgain blockSize chipSize es
    let e ← parseLayout blockSize e
    some (e :: es, int64 (pos2 - e.size))

def placeTail (blockSize : Int) (s : Scan) : Option (List TableEntry) :=
  match s.entry.bind fun i => s.table[i]?.map fun e => (i, e) with
  | none => some s.table
  | some (i, e) => do
    let front := s.table.take i
    let (tail, pos2, chipSize) ←
      backward blockSize s.halfSizeEntry s.chipSize (i + 1) (s.table.drop (i + 1))
    if pos2 < s.pos1 then none
    else
      let e := { e with start := s.pos1, size := uint64 (pos2 - s.pos1) }
      if s.halfSizeEntry = some i then do
        let e := halve e
        let (tail, pos2) ← backwardAgain blockSize (int64 (chipSize - e.size)) tail
        if pos2 < s.pos1 then none else some (front ++ e :: tail)
      else some (front ++ e :: tail)

/-- A comparison of unsigned values. -/
def overlaps : List TableEntry → Bool
  | e :: f :: es => uint64 f.start < uint64 (e.start + e.size) || overlaps (f :: es)
  | _ => false

/-- The first MiB is kept; a logical partition takes two records. -/
def genEmmcPartTable (table : List TableEntry) : List TableEntry :=
  table.mapIdx fun i e =>
    if i = 0 then
      let start := int64 (e.start + 2 ^ 20)
      { e with start := start, size := uint64 (e.size - start) }
    else if i < 3 ∨ table.length = 4 then e
    else { e with start := int64 (e.start + 2 ^ 20), size := uint64 (e.size - 2 ^ 20) }

/-- At least six records are wanted. -/
def partTableRecords (entries : Nat) : Nat := if entries ≤ 4 then entries else 2 * entries - 2

/-- A name with a leading `@` is invisible, or the back-up of another. -/
def parseName (mode : Mode) (table : List TableEntry) (i : Nat) : List TableEntry :=
  match table[i]? with
  | none => table
  | some e =>
    match e.name with
    | '@' :: str =>
      let isOriginal (j : Nat) : Bool :=
        j ≠ i && (table[j]?.map fun f => f.name.isPrefixOf str).getD false
      let e := { e with invisible := true, name := str }
      match if mode = .emmcGpt then none else (List.range table.length).find? isOriginal with
      | none => table.set i e
      | some j =>
        (table.modify j fun f => { f with hasBackUp := true, backUpEntry := some i }).set i
          { e with isBackUp := true }
    | _ => table

def bootName : Mode → List Char
  | .emmcGpt => "preboot".toList
  | _ => "bootloader".toList

def reservedTail (chipSize : Int) : Nat :=
  let tail := uint64 chipSize % gptPartReservedSize
  if tail < backupGptPartMinReservedSize then tail + gptPartReservedSize else tail

def layoutTable (mode : Mode) (args : Args) (file : List Char) : Option (List TableEntry × Option Nat) :=
  let chipSize := if mode = .emmcGpt then int64 (args.chipSize - reservedTail args.chipSize)
    else args.chipSize
  if args.blockSize ≤ 0 ∨ chipSize ≤ 0 then none
  else do
    let pos1 := if mode = .emmcGpt then (gptPartReservedSize : Int) else 0
    let s ← readLines mode args.blockSize ⟨[], pos1, none, none, chipSize⟩
      (lines 511 file.length file)
    let table ← placeTail args.blockSize s
    let table := if mode = .emmc then genEmmcPartTable table else table
    if mode = .emmc ∧ partTableRecords table.length < 6 then none
    else if overlaps table then none
    else some (table, s.halfSizeEntry)

def acceptedTable (mode : Mode) (args : Args) (file : List Char) : Option (List TableEntry) := do
  let (table, _) ← layoutTable mode args file
  let table := (List.range table.length).foldl (parseName mode) table
  if mode ≠ .nand ∧ table.any (fun e => !e.invisible && e.name = bootName mode) then none
  else some table

end SynaBoot.PartTool
