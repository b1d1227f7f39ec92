import SynaBoot.FlashDevice
import SynaBoot.FlashRecord

namespace SynaBoot.FlashTs

open SynaBoot.PowerCut SynaBoot.FlashDevice SynaBoot.FlashRecord

def eio : Int := 1
def einval : Int := 2
def enospc : Int := 3
def enodev : Int := 4

abbrev CString := { l : List UInt8 // (0 : UInt8) ∉ l }

def equalsSign : UInt8 := 0x3d

def strlen (l : List UInt8) : Nat := (l.takeWhile (· ≠ 0)).length

structure Priv where
  offset : Nat
  cache : FlashTs

def flashTsKeySearchLoop (key : List UInt8) : Nat → Nat → List UInt8 → Option Nat
  | 0, _, _ => none
  | fuel + 1, pos, l =>
    if l.headD 0 = 0 then none
    else if l.take key.length = key ∧ l.getD key.length 0 = equalsSign then some pos
    else flashTsKeySearchLoop key fuel (pos + (strlen l + 1)) (l.drop (strlen l + 1))

def flashTsKeySearch (data : List UInt8) (key : List UInt8) : Option Nat :=
  flashTsKeySearchLoop key data.length 0 data

inductive Update where
  | same
  | noSpace
  | changed (cache : FlashTs)

def writeValue (c : FlashTs) (p klen : Nat) (value : List UInt8) : FlashTs :=
  if value.length ≠ 0 then { c with data := overwrite c.data (p + klen + 1) (value ++ [0]) } else c

def replaceEntry (c : FlashTs) (p klen : Nat) (value : List UInt8) : Update :=
  let len := c.len.toNat
  let curLen := strlen (c.data.1.drop p) + 1
  let newLen := if value.length ≠ 0 then klen + 1 + value.length + 1 else 0
  if curLen ≠ newLen then
    if flashTsMaxDataSize < len - curLen + newLen then .noSpace
    else
      let rest := (c.data.1.drop (p + curLen)).take (len - (p + curLen))
      .changed (writeValue { c with
        data := overwrite c.data (p + newLen) rest
        len := UInt32.ofNat (len - curLen + newLen) } p klen value)
  else if (c.data.1.drop (p + klen + 1)).takeWhile (· ≠ 0) = value then .same
  else .changed (writeValue c p klen value)

def appendEntry (c : FlashTs) (key value : List UInt8) : Update :=
  let len := key.length + 1 + value.length + 1
  if value.length = 0 then .same
  else if flashTsMaxDataSize < c.len.toNat + len then .noSpace
  else
    .changed { c with
      data := overwrite c.data (c.len.toNat - 1) (key ++ equalsSign :: (value ++ [0, 0]))
      len := UInt32.ofNat (c.len.toNat + len) }

def updateCache (c : FlashTs) (key value : List UInt8) : Update :=
  match flashTsKeySearch c.data.1 key with
  | some p => replaceEntry c p key.length value
  | none => appendEntry c key value

/-- `clp2`: round up to the next power of two. -/
def clp2 (x : UInt32) : UInt32 :=
  let x := x - 1
  let x := x ||| (x >>> 1)
  let x := x ||| (x >>> 2)
  let x := x ||| (x >>> 4)
  let x := x ||| (x >>> 8)
  let x := x ||| (x >>> 16)
  x + 1

def alignDown (x n : Nat) : Nat := x - (x &&& (n - 1))

def chunk (g : Geometry) : Nat :=
  (clp2 (UInt32.ofNat (alignDown (flashTsMaxSize + g.pageSize - 1) g.pageSize))).toNat

structure Fate where
  erase : Outcome
  write : Nat → Outcome
  read : Nat → Outcome
  eraseOld : Outcome

def writeVerify (g : Geometry) (fate : Fate) (off : Nat) (buf : List UInt8) : Prog Flash Bool := do
  let res ← flashWrite g fate.write off buf
  if res ≠ 0 then return false
  let (res, verify) ← flashRead g fate.read off buf.length
  if res ≠ 0 then return false
  return decide (verify = buf)

def isNewBlock (g : Geometry) (off : Nat) : Bool := (off &&& (g.blockSize - 1)) == 0

def eraseNew (g : Geometry) (fate : Fate) (off : Nat) : Prog Flash Int :=
  if isNewBlock g off then flashErase g fate.erase off else pure 0

/-- The previous block is erased after the write is done. -/
def erasePrevious (g : Geometry) (fate : Fate) (ts : Priv) (off : Nat) : Prog Flash Unit :=
  let preBlockBase := alignDown ts.offset g.blockSize
  let curBlockBase := alignDown off g.blockSize
  if isNewBlock g off && curBlockBase != preBlockBase then
    flashErase g fate.eraseOld preBlockBase >>= fun _ => pure ()
  else pure ()

def commitLoop (g : Geometry) (ts : Priv) (fate : Nat → Fate) (buf : List UInt8) :
    Nat → Nat → Nat → Prog Flash (Int × Priv)
  | 0, _, _ => pure (-eio, ts)
  | n + 1, i, off =>
    let off := if partitionSize g ≤ off then 0 else off
    if isNewBlock g off && flashBlockIsbad g off then
      commitLoop g ts fate buf n (i + 1) (off + g.blockSize)
    else do
      let res ← eraseNew g (fate i) off
      if res ≠ 0 then commitLoop g ts fate buf n (i + 1) (off + g.blockSize)
      else do
        let verified ← writeVerify g (fate i) off buf
        if verified then do
          erasePrevious g (fate i) ts off
          return (0, { ts with offset := off })
        else commitLoop g ts fate buf n (i + 1) (alignDown (off + g.blockSize) g.blockSize)

def fillUnused (c : FlashTs) : FlashTs :=
  let fill := List.replicate (flashTsMaxDataSize - c.len.toNat) 0xff
  { c with data := overwrite c.data c.len.toNat fill }

def flashTsCommit (g : Geometry) (fate : Nat → Fate) (ts : Priv) : Prog Flash (Int × Priv) :=
  let ts := { ts with cache := fillUnused ts.cache }
  let y := flashTsHdrSize + ts.cache.len.toNat + chunk g - 1
  let buf := (toBytes ts.cache).take (alignDown y (chunk g))
  commitLoop g ts fate buf (partitionSize g / g.blockSize * 2) 0 (ts.offset + chunk g)

def nextVersion (c : FlashTs) : FlashTs :=
  let c := { c with version := c.version + 1 }
  { c with crc := flashTsCrc c }

/-- `flash_ts_set` on an initialised store. -/
def flashTsSet (g : Geometry) (fate : Nat → Fate) (key value : CString) (ts : Priv) :
    Prog Flash (Int × Priv) :=
  if ts.cache.crc ≠ flashTsCrc ts.cache then pure (-einval, ts)
  else
    match updateCache ts.cache key.1 value.1 with
    | .same => pure (0, ts)
    | .noSpace => pure (-enospc, ts)
    | .changed c => do
      let (res, ts') ← flashTsCommit g fate { ts with cache := nextVersion c }
      if res ≠ 0 then return (res, { ts' with cache := ts.cache })
      return (res, ts')

def strncpy (src : List UInt8) (size : Nat) : List UInt8 :=
  let s := (src.takeWhile (· ≠ 0)).take size
  s ++ List.replicate (size - s.length) 0

def flashTsGet (ts : Priv) (key : CString) (value : List UInt8) : List UInt8 :=
  let value := value.set 0 0
  if ts.cache.crc ≠ flashTsCrc ts.cache then value
  else
    match flashTsKeySearch ts.cache.data.1 key.1 with
    | some p => strncpy (ts.cache.data.1.drop (p + key.1.length + 1)) value.length
    | none => value

def scanLoop (g : Geometry) (rd : Nat → Nat → Outcome) :
    Nat → Nat → Nat → Priv → Prog Flash (Nat × Priv)
  | 0, _, goodBlocks, ts => pure (goodBlocks, ts)
  | fuel + 1, off, goodBlocks, ts =>
    if isNewBlock g off && flashBlockIsbad g off then
      let off := off + g.blockSize
      if off < partitionSize g then scanLoop g rd fuel off goodBlocks ts
      else pure (goodBlocks, ts)
    else do
      let goodBlocks := if isNewBlock g off then goodBlocks + 1 else goodBlocks
      let (res, verify) ← flashRead g (rd off) off flashTsMaxSize
      let r := ofBytes verify
      let version := flashTsCheckHeader r
      let ts := if res = 0 ∧ ts.cache.version < version then { offset := off, cache := r } else ts
      let off :=
        if res = 0 ∧ version = 0 ∧ isBlank verify = true then
          alignDown (off + g.blockSize) g.blockSize
        else off + chunk g
      if off < partitionSize g then scanLoop g rd fuel off goodBlocks ts
      else pure (goodBlocks, ts)

def flashTsScan (g : Geometry) (rd : Nat → Nat → Outcome) (ts : Priv) : Prog Flash (Int × Priv) := do
  let (goodBlocks, ts) ← scanLoop g rd (partitionSize g + 1) 0 0 ts
  if goodBlocks = 0 then return (-enodev, ts)
  return (0, ts)

def isPowerOf2 (n : Nat) : Bool := decide (0 < n) && (n &&& (n - 1)) == 0

def emptyCache (old : Bytes flashTsMaxDataSize) : FlashTs :=
  let c : FlashTs := ⟨flashTsMagic, 0, 1, 0, overwrite old 0 [0]⟩
  { c with crc := flashTsCrc c }

/-- `rd off k` is the fate of the `k`-th page read at `off`. -/
def flashTsInit (g : Geometry) (rd : Nat → Nat → Outcome) (old : Bytes flashTsMaxDataSize) :
    Prog Flash (Int × Option Priv) :=
  if !isPowerOf2 g.pageSize || !isPowerOf2 g.blockSize then pure (-enodev, none)
  else if g.blockSize < chunk g then pure (-enodev, none)
  else do
    let (res, ts) ← flashTsScan g rd
      { offset := partitionSize g - chunk g, cache := emptyCache old }
    if res ≠ 0 then return (res, none)
    return (res, some ts)

end SynaBoot.FlashTs
