import SynaBoot.BootMode

namespace SynaBoot.MiscFlash

open SynaBoot.BootMode (Mode BootloaderMessage miscMode)

abbrev Bytes := Nat → UInt8

def slice (mem : Bytes) (start n : Nat) : List UInt8 := (List.range n).map fun i => mem (start + i)

inductive Device where
  | nor
  | emmc
  deriving DecidableEq, Repr

structure Flash where
  device : Device
  blocksize : Nat
  pagesize : Nat
  eraseOk : Bool
  writeOk : Bool
  readOk : Bool

/-- `nor_set_parameters` ignores what it is given. -/
def Flash.getBlockSize (f : Flash) : Nat :=
  match f.device with
  | .nor => 0x10000
  | .emmc => f.blocksize

def Flash.getPageSize (f : Flash) : Nat :=
  match f.device with
  | .nor => 512
  | .emmc => f.pagesize

/-- The commands of the SPI flash carry three bytes of an address. -/
def spiAddr (offset : Nat) : Nat := offset % 2 ^ 24

def spiEarseABlock (mem : Bytes) (offset : Nat) : Bytes :=
  fun a => if a / 0x10000 = spiAddr offset / 0x10000 then 0xff else mem a

def spiErase (offset size : Nat) (mem : Bytes) : Bytes :=
  let start := offset / 0x10000 * 0x10000
  let stop := (offset + size) % 2 ^ 32
  (List.range ((stop - start + 0xffff) / 0x10000)).foldl
    (fun mem k => spiEarseABlock mem (start + 0x10000 * k)) mem

/-- It clears bits of one page and starts again at its first byte. -/
def spiWriteAPage (buff : Bytes) (mem : Bytes) (offset size : Nat) : Bytes := fun a =>
  let i := (a + 256 - spiAddr offset % 256) % 256
  if a / 256 = spiAddr offset / 256 ∧ i < size then mem a &&& buff i else mem a

def spiWrite (buff : Bytes) (offset size : Nat) (mem : Bytes) : Bytes :=
  (List.range ((size + 255) / 256)).foldl (fun mem k =>
    spiWriteAPage (fun i => buff (256 * k + i)) mem (offset + 256 * k) (min 256 (size - 256 * k))) mem

/-- The block number that reaches the device is an `int`. -/
def mmcBlock (start : Nat) : Nat := start / 512 % 2 ^ 32

def doEmmcwrite (buff : Bytes) (start blks : Nat) (mem : Bytes) : Bytes := fun a =>
  if mmcBlock start ≤ a / 512 ∧ a / 512 < mmcBlock start + blks then
    buff (a - 512 * mmcBlock start) else mem a

def flashOpErr : Int := -2

/-- The eMMC adaptor has no erase function, the NOR one drops the result. -/
def Flash.eraseFlash (f : Flash) (start size : Nat) (mem : Bytes) : Int × Bytes :=
  match f.device with
  | .nor => (0, if f.eraseOk then spiErase (start % 2 ^ 32) size mem else mem)
  | .emmc => (flashOpErr, mem)

def Flash.writeFlash (f : Flash) (start size : Nat) (buff mem : Bytes) : Int × Bytes :=
  match f.device with
  | .nor => (0, if f.writeOk then spiWrite buff (start % 2 ^ 32) size mem else mem)
  | .emmc =>
    if f.writeOk then (0, doEmmcwrite buff start ((size + 511) / 512) mem) else (-1, mem)

/-- `read_flash`: the buffer after a read that succeeds. -/
def Flash.readFlash (f : Flash) (start : Nat) (mem : Bytes) : Option Bytes :=
  match f.device with
  | .nor => if 0x1000000 < start then none else some fun i => mem (start + i)
  | .emmc =>
    if start % 512 ≠ 0 ∨ f.readOk = false then none else some fun i => mem (512 * mmcBlock start + i)

inductive Partition where
  | vt (startBlkind blks : UInt32)
  | gpt (lbaStart lbaEnd : Fin (2 ^ 53))

def Flash.miscStart (f : Flash) : Partition → Nat
  | .vt startBlkind _ => startBlkind.toNat * f.getBlockSize
  | .gpt lbaStart _ => lbaStart * 512

/-- `read_image`: a read must not exceed the partition. -/
def Flash.readImage (f : Flash) (p : Partition) (size : Nat) (mem : Bytes) : Option Bytes :=
  match p with
  | .vt startBlkind blks =>
    if (startBlkind + blks).toNat * f.getBlockSize < f.miscStart p + size then none
    else f.readFlash (f.miscStart p) mem
  | .gpt _ lbaEnd =>
    if (lbaEnd * 512 : Int) < size + f.miscStart p - 512 then none
    else f.readFlash (f.miscStart p) mem

/-- With `CONFIG_ANDROID_BOOTCTRL` or not. -/
inductive Bootctrl where
  | syna
  | android
  deriving DecidableEq, Repr

def Bootctrl.messageSize : Bootctrl → Nat
  | .syna => 1088
  | .android => 2048

def Bootctrl.synaSpaceOffsetInMisc : Bootctrl → Nat
  | .syna => 4096
  | .android => 2048

def messageOf (buff : Bytes) : BootloaderMessage :=
  ⟨slice buff 0 32, slice buff 32 32, slice buff 64 768, slice buff 832 32⟩

/-- `check_misc_command` with a misc partition. -/
def Flash.checkMiscCommand (f : Flash) (p : Partition) (mem : Bytes) : Mode :=
  let readSize := if 2048 < f.getPageSize then f.getPageSize else 2048
  match f.readImage p readSize mem with
  | none => .normal
  | some buff => miscMode (messageOf buff)

def copied (metadata : Fin 32 → UInt8) (temp : Bytes) : Bytes := fun i =>
  if h : i < 32 then metadata ⟨i, h⟩ else temp i

/-- `write_bootctrl_metadata` with a misc partition. -/
def Flash.writeBootctrlMetadata (f : Flash) (c : Bootctrl) (p : Partition) (bootctrlIsExist : Bool)
    (metadata : Fin 32 → UInt8) (temp mem : Bytes) : Int × Bytes :=
  if bootctrlIsExist then
    let buff := copied metadata temp
    match p with
    | .vt startBlkind _ =>
      let start := startBlkind.toNat * f.getBlockSize + c.synaSpaceOffsetInMisc
      let (ret, mem) := f.eraseFlash (start - (start &&& (f.getBlockSize - 1))) f.getBlockSize mem
      if ret ≠ 0 then (-1, mem)
      else
        let (ret, mem) := f.writeFlash start f.getPageSize buff mem
        (if ret ≠ 0 then -1 else 0, mem)
    | .gpt lbaStart _ =>
      let (ret, mem) := f.writeFlash (lbaStart * 512 + c.synaSpaceOffsetInMisc) 32 buff mem
      (if ret ≠ 0 then -1 else 0, mem)
  else (0, mem)

def Flash.message (f : Flash) (c : Bootctrl) (p : Partition) (mem : Bytes) : List UInt8 :=
  slice mem (f.miscStart p) c.messageSize

end SynaBoot.MiscFlash
