import SynaBoot.BlockRange
import SynaBoot.PartTable

namespace SynaBoot.FastbootMmc

open SynaBoot.BlockRange SynaBoot.PartTable

structure DiskPartition where
  start : UInt64
  size : UInt64
  blksz : UInt64
  blksz_pow : ∃ k < 32, blksz.toNat = 2 ^ k

structure BlkRead where
  start : UInt64
  blkcnt : UInt64
  deriving DecidableEq, Repr

def BlkRead.blks (r : BlkRead) : List ℕ := blocks (2 ^ 64) r.start.toNat r.blkcnt.toNat

def lldiv (dividend divisor : UInt64) : UInt64 := dividend / divisor.toUInt32.toUInt64

def blkcntOf (info : DiskPartition) (readBytes : UInt32) : UInt64 :=
  lldiv ((readBytes.toUInt64 + (info.blksz - 1)) &&& ~~~(info.blksz - 1)) info.blksz

/-- `read_raw_image_from_offset`: the read that is issued, if any. -/
def readRawImageFromOffset (info : DiskPartition) (readBytes offset : UInt32) : Option BlkRead :=
  let blkcnt := blkcntOf info readBytes
  if offset.toUInt64 % info.blksz ≠ 0 then none
  else
    let start := info.start + offset.toUInt64 / info.blksz
    if info.size < blkcnt then none else some ⟨start, blkcnt⟩

def infoLoop (info : ℕ → Option PartInfo) (name : List UInt8) : ℕ → ℕ → Option (ℕ × PartInfo)
  | 0, _ => none
  | n + 1, i =>
    match info i with
    | none => none
    | some p => if name = p.name then some (i, p) else infoLoop info name n (i + 1)

def fPartGetInfoByName (d : MmcDevice) (hwpart : ℕ) (name : List UInt8) : Option (ℕ × PartInfo) :=
  infoLoop (d.getInfo hwpart) name (gptEntryNumbers - 1) 1

def ascii (cs : List Char) : List UInt8 := cs.map Char.toUInt8

def aliasWord : List UInt8 :=
  ascii ['f', 'a', 's', 't', 'b', 'o', 'o', 't', '_', 'p', 'a', 'r', 't', 'i', 't', 'i', 'o', 'n',
    '_', 'a', 'l', 'i', 'a', 's', '_']

def bootloader : List UInt8 := ascii ['b', 'o', 'o', 't', 'l', 'o', 'a', 'd', 'e', 'r']

structure Fastboot where
  device : MmcDevice
  gpp : Bool
  table : Option Slots
  envGet : List UInt8 → Option (List UInt8)

section Lookup

variable (f : Fastboot) (name : List UInt8) (hwpart : ℕ)

def fPartGetInfoByNameOrAlias : Option (ℕ × PartInfo) :=
  match fPartGetInfoByName f.device hwpart name with
  | some found => some found
  | none => (f.envGet (aliasWord ++ name.take 32)).bind (fPartGetInfoByName f.device hwpart)

def getMmcPartByName : ℕ :=
  if name = bootloader ∨ name = bootloader ++ ascii ['1'] then 1
  else if name = bootloader ++ ascii ['2'] then 2
  else if f.gpp then (fMmcGetHwpartFromTable f.table name).toNat else 0

/-- The hardware partition stays if it cannot be selected. -/
def blkDselectHwpart (part : ℕ) : ℕ := if f.device.selects part then part else hwpart

def fMmcGetPartInfo : Option (ℕ × DiskPartition) × ℕ :=
  let part := getMmcPartByName f name
  let hwpart := blkDselectHwpart f hwpart part
  if part = 1 ∨ part = 2 then
    (some (0, ⟨0, f.device.lba hwpart, f.device.blksz, f.device.blksz_pow⟩), hwpart)
  else
    ((fPartGetInfoByNameOrAlias f name hwpart).map fun (i, p) =>
      (i, ⟨p.start, p.size, f.device.blksz, f.device.blksz_pow⟩), hwpart)

def fbMmcFlashReadFromOffset (readBytes offset : UInt32) : Option BlkRead × ℕ :=
  let (info, hwpart) := fMmcGetPartInfo f name hwpart
  (info.bind fun (_, info) => readRawImageFromOffset info readBytes offset, hwpart)

def fbMmcFlashRead (readBytes : UInt32) : Option BlkRead × ℕ :=
  fbMmcFlashReadFromOffset f name hwpart readBytes 0

end Lookup

theorem fMmcGetPartInfo_again (f : Fastboot) (name : List UInt8) (hwpart : ℕ) :
    fMmcGetPartInfo f name (fMmcGetPartInfo f name hwpart).2 = fMmcGetPartInfo f name hwpart := by
  have hsel : (fMmcGetPartInfo f name hwpart).2 =
      blkDselectHwpart f hwpart (getMmcPartByName f name) := by
    unfold fMmcGetPartInfo
    dsimp only
    split <;> rfl
  have hagain : blkDselectHwpart f (blkDselectHwpart f hwpart (getMmcPartByName f name))
      (getMmcPartByName f name) = blkDselectHwpart f hwpart (getMmcPartByName f name) := by
    unfold blkDselectHwpart
    split <;> rfl
  rw [hsel]
  unfold fMmcGetPartInfo
  dsimp only
  rw [hagain]

variable {info : DiskPartition} {readBytes offset : UInt32} {r : BlkRead}

theorem DiskPartition.blksz_pos (info : DiskPartition) : 0 < info.blksz.toNat := by
  obtain ⟨k, -, hk⟩ := info.blksz_pow
  rw [hk]
  exact Nat.two_pow_pos k

theorem DiskPartition.blksz_lt (info : DiskPartition) : info.blksz.toNat < 2 ^ 32 := by
  obtain ⟨k, hlt, hk⟩ := info.blksz_pow
  rw [hk]
  exact Nat.pow_lt_pow_right (by decide) hlt

theorem toNat_blkcntOf (info : DiskPartition) (readBytes : UInt32) :
    (blkcntOf info readBytes).toNat =
      (readBytes.toNat + (info.blksz.toNat - 1)) / info.blksz.toNat := by
  have hpos := info.blksz_pos
  have hlt := info.blksz_lt
  have hbytes := readBytes.toNat_lt
  obtain ⟨k, hk, hpow⟩ := info.blksz_pow
  have hone : (info.blksz - 1).toNat = info.blksz.toNat - 1 :=
    UInt64.toNat_sub_of_le _ _ (UInt64.le_iff_toNat_le.mpr hpos)
  have hsum : (readBytes.toUInt64 + (info.blksz - 1)).toNat =
      readBytes.toNat + (info.blksz.toNat - 1) := by
    rw [UInt64.toNat_add, UInt32.toNat_toUInt64, hone]
    exact Nat.mod_eq_of_lt (by omega)
  have hmask : (~~~(info.blksz - 1)).toNat = 2 ^ 64 - 2 ^ k := by
    rw [UInt64.toNat_not, hone, ← hpow]
    change 2 ^ 64 - 1 - _ = _
    omega
  have hdiv : info.blksz.toUInt32.toUInt64.toNat = info.blksz.toNat := by
    rw [UInt32.toNat_toUInt64, UInt64.toNat_toUInt32]
    exact Nat.mod_eq_of_lt hlt
  rw [blkcntOf, lldiv, UInt64.toNat_div, UInt64.toNat_and, hsum, hmask, hdiv,
    and_mask (by omega) (by omega), hpow, Nat.mul_div_cancel _ (Nat.two_pow_pos k)]

theorem readRawImageFromOffset_some (h : readRawImageFromOffset info readBytes offset = some r) :
    offset.toNat % info.blksz.toNat = 0 ∧ blkcntOf info readBytes ≤ info.size ∧
      r = ⟨info.start + offset.toUInt64 / info.blksz, blkcntOf info readBytes⟩ := by
  unfold readRawImageFromOffset at h
  by_cases hmod : offset.toUInt64 % info.blksz = 0
  · by_cases hsize : info.size < blkcntOf info readBytes
    · simp only [hmod, ne_eq, not_true_eq_false, if_false, if_pos hsize] at h
      cases h
    · simp only [hmod, ne_eq, not_true_eq_false, if_false, if_neg hsize] at h
      refine ⟨?_, UInt64.not_lt.mp hsize, (Option.some.inj h).symm⟩
      have hnat := congrArg UInt64.toNat hmod
      rw [UInt64.toNat_mod, UInt32.toNat_toUInt64] at hnat
      exact hnat
  · simp only [ne_eq, hmod, not_false_eq_true, if_true] at h
    cases h

theorem blks_eq (info : DiskPartition) (offset : UInt32) (blkcnt : UInt64) :
    BlkRead.blks ⟨info.start + offset.toUInt64 / info.blksz, blkcnt⟩ =
      blocks (2 ^ 64) (info.start.toNat + offset.toNat / info.blksz.toNat) blkcnt.toNat := by
  rw [BlkRead.blks, UInt64.toNat_add, UInt64.toNat_div, UInt32.toNat_toUInt64]
  exact blocks_mod _ _ _

/-- A read stays inside exactly if its blocks are no more than those behind the offset. -/
theorem read_raw_confined_iff (info : DiskPartition) (readBytes offset : UInt32) (r : BlkRead)
    (h : readRawImageFromOffset info readBytes offset = some r) :
    (∀ b ∈ r.blks, info.start.toNat ≤ b ∧ b < info.start.toNat + info.size.toNat) ↔
      readBytes = 0 ∨
      offset.toNat / info.blksz.toNat +
        (readBytes.toNat + (info.blksz.toNat - 1)) / info.blksz.toNat ≤ info.size.toNat ∧
      info.start.toNat + offset.toNat / info.blksz.toNat +
        (readBytes.toNat + (info.blksz.toNat - 1)) / info.blksz.toNat ≤ 2 ^ 64 := by
  obtain ⟨-, -, rfl⟩ := readRawImageFromOffset_some h
  have hpos := info.blksz_pos
  have hlt := info.blksz_lt
  have hoff := (Nat.div_le_self offset.toNat info.blksz.toNat).trans_lt offset.toNat_lt
  have hcnt := Nat.div_le_self (readBytes.toNat + (info.blksz.toNat - 1)) info.blksz.toNat
  have hbytes := readBytes.toNat_lt
  have hzero : readBytes = 0 ↔
      (readBytes.toNat + (info.blksz.toNat - 1)) / info.blksz.toNat = 0 := by
    rw [Nat.div_eq_zero_iff_lt hpos, ← UInt32.toNat_inj]
    change readBytes.toNat = 0 ↔ _
    omega
  rw [blks_eq, toNat_blkcntOf, blocks_within_iff (Nat.le_add_right _ _) (by omega), hzero]
  generalize offset.toNat / info.blksz.toNat = first
  generalize (readBytes.toNat + (info.blksz.toNat - 1)) / info.blksz.toNat = count
  omega

def tenBlocks : DiskPartition := ⟨100, 10, 512, pow_512⟩

theorem read_raw_confined_two : ∃ r, readRawImageFromOffset tenBlocks 1000 4096 = some r ∧
    ∀ b ∈ r.blks, 100 ≤ b ∧ b < 110 := by
  have h : readRawImageFromOffset tenBlocks 1000 4096 = some ⟨108, 2⟩ := by decide
  exact ⟨_, h, (read_raw_confined_iff tenBlocks 1000 4096 _ h).mpr (.inr (by decide))⟩

theorem read_raw_behind_end : ∃ r, readRawImageFromOffset tenBlocks 512 5120 = some r ∧
    110 ∈ r.blks := by
  have h : readRawImageFromOffset tenBlocks 512 5120 = some ⟨110, 1⟩ := by decide
  exact ⟨_, h, by decide⟩

end SynaBoot.FastbootMmc
