import SynaBoot.PowerCut

namespace SynaBoot.FlashDevice

open SynaBoot.PowerCut

/-- An erased page reads as all zeros or all ones. -/
structure Geometry where
  pageSize : Nat
  blockSize : Nat
  startBlock : Nat
  blocks : Nat
  isBlockBad : Nat → Bool
  erased : UInt8
  erased_blank : erased = 0x00 ∨ erased = 0xff

abbrev Flash := Nat → UInt8

/-- A power loss in a block erase leaves the pages of `mask` erased. -/
inductive Outcome where
  | ok
  | fail (changed : Bool)
  | cut (mask : Nat → Bool)

def load (f : Flash) (addr n : Nat) : List UInt8 := (List.range n).map (fun i => f (addr + i))

def store (f : Flash) (addr : Nat) (bytes : List UInt8) : Flash := fun a =>
  if addr ≤ a ∧ a < addr + bytes.length then bytes.getD (a - addr) 0 else f a

def eraseWhere (g : Geometry) (mask : Nat → Bool) (f : Flash) (addr : Nat) : Flash := fun a =>
  if addr ≤ a ∧ a < addr + g.blockSize ∧ mask ((a - addr) / g.pageSize) = true then g.erased
  else f a

def sectorSize : Nat := 512

def pageBuffSize : Nat := (8448 / 4 + 64) * 4

/-- A page below a sector moves nothing, one above the buffer overruns it. -/
def transferable (g : Geometry) : Bool :=
  decide (g.pageSize / sectorSize ≠ 0) && decide (g.pageSize ≤ pageBuffSize)

def nFlashPageRead (g : Geometry) (o : Outcome) (addr : Nat) : Prog Flash (Int × List UInt8) :=
  if transferable g then
    match o with
    | .ok => fun f => .ret (0, load f addr g.pageSize) f
    | .fail _ => fun f => .ret (-1, []) f
    | .cut _ => fun f => .cut f
  else Prog.fault

def nFlashPageWrite (g : Geometry) (o : Outcome) (addr : Nat) (buf : List UInt8) :
    Prog Flash Int :=
  if transferable g then
    match o with
    | .ok => fun f => .ret 0 (store f addr buf)
    | .fail changed => fun f => .ret (-1) (if changed then store f addr buf else f)
    | .cut _ => fun f => .cut f
  else Prog.fault

def nFlashErase (g : Geometry) (o : Outcome) (addr : Nat) : Prog Flash Int :=
  match o with
  | .ok => fun f => .ret 0 (eraseWhere g (fun _ => true) f addr)
  | .fail _ => fun f => .ret (-1) f
  | .cut mask => fun f => .cut (eraseWhere g mask f addr)

/-- A page that cannot be read counts as erased. -/
def nandReadPage (g : Geometry) (o : Outcome) (page size : Nat) : Prog Flash (Int × List UInt8) :=
  if g.pageSize < size then pure (-1, [])
  else do
    let (res, buf) ← nFlashPageRead g o (page * g.pageSize)
    if res ≠ 0 then return (0, List.replicate size 0xff)
    return (0, buf.take size)

def nandWritePage (g : Geometry) (o : Outcome) (page : Nat) (buf : List UInt8) : Prog Flash Int :=
  if g.pageSize < buf.length then pure (-1)
  else do
    let res ← nFlashPageWrite g o (page * g.pageSize) buf
    if res ≠ 0 then return -1
    return 0

def base (g : Geometry) : Nat := g.startBlock * g.blockSize

def partitionSize (g : Geometry) : Nat := g.blocks * g.blockSize

def flashBlockIsbad (g : Geometry) (off : Nat) : Bool := g.isBlockBad (base g + off)

def flashErase (g : Geometry) (o : Outcome) (off : Nat) : Prog Flash Int :=
  nFlashErase g o (base g + off)

/-- The `k`-th page write of the call meets `wr k`. -/
def flashWriteLoop (g : Geometry) (wr : Nat → Outcome) : Nat → Nat → Nat → List UInt8 → Prog Flash Int
  | 0, _, _, _ => pure 0
  | fuel + 1, k, page, buf =>
    if buf = [] then pure 0
    else do
      let chunk := min buf.length g.pageSize
      let res ← nandWritePage g (wr k) page (buf.take chunk)
      if res = 0 then flashWriteLoop g wr fuel (k + 1) (page + 1) (buf.drop chunk)
      else return res

def flashWrite (g : Geometry) (wr : Nat → Outcome) (off : Nat) (buf : List UInt8) : Prog Flash Int :=
  flashWriteLoop g wr buf.length 0 ((base g + off) / g.pageSize) buf

/-- The loop of `flash_read`, with the bytes read so far. -/
def flashReadLoop (g : Geometry) (rd : Nat → Outcome) :
    Nat → Nat → Nat → Nat → List UInt8 → Prog Flash (Int × List UInt8)
  | 0, _, _, _, acc => pure (0, acc)
  | fuel + 1, k, page, size, acc =>
    if size = 0 then pure (0, acc)
    else do
      let chunk := min size g.pageSize
      let (res, buf) ← nandReadPage g (rd k) page chunk
      if res = 0 then flashReadLoop g rd fuel (k + 1) (page + 1) (size - chunk) (acc ++ buf)
      else return (res, acc)

def flashRead (g : Geometry) (rd : Nat → Outcome) (off size : Nat) :
    Prog Flash (Int × List UInt8) :=
  flashReadLoop g rd size 0 ((base g + off) / g.pageSize) size []

end SynaBoot.FlashDevice
