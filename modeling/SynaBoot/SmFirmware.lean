import SynaBoot.FastbootMmc
import SynaBoot.Genimg

namespace SynaBoot.SmFirmware

open SynaBoot.BlockRange SynaBoot.FastbootMmc SynaBoot.PartTable
open SynaBoot.FlashRecord (le32)
open SynaBoot.Genimg (findChunk offsetAt sizeAt)

def synaSmMaxFwSize : ℕ := 0x20000
def maxPagesize : ℕ := 8192
def sdioBlkSize : UInt32 := 512
def imgInfoMagic : ℕ := 0xe11d
def prependImageInfoSize : ℕ := 64
def imageChunkIdSmFw : UInt32 := 0x57464d53

def firmware : List UInt8 := ascii ['f', 'i', 'r', 'm', 'w', 'a', 'r', 'e', '_']

def ptName (slot : Bool) : List UInt8 := firmware ++ ascii [if slot then 'b' else 'a']

inductive Origin where
  | old
  | disk (hwpart blk byte : ℕ)
  deriving DecidableEq, Repr

def onDisk (hwpart start blksz p : ℕ) : Origin :=
  .disk hwpart ((start + p / blksz) % 2 ^ 64) (p % blksz)

def bytesRead (blksz : ℕ) (read : Option BlkRead) : ℕ :=
  (read.map fun r => r.blkcnt.toNat * blksz).getD 0

def filled (blksz hwpart : ℕ) (read : Option BlkRead) (p : ℕ) : Origin :=
  match read with
  | none => .old
  | some r => if p < bytesRead blksz (some r) then onDisk hwpart r.start.toNat blksz p else .old

structure Memory where
  disk : ℕ → ℕ → ℕ → UInt8
  header : ℕ → UInt8
  payloadOk : Bool
  headerOk : Bool

def Origin.value (disk : ℕ → ℕ → ℕ → UInt8) (old : UInt8) : Origin → UInt8
  | .old => old
  | .disk hwpart blk byte => disk hwpart blk byte

structure Chunk where
  offset : UInt32
  size : UInt32
  deriving DecidableEq, Repr

def Chunk.imgOffset (c : Chunk) : UInt32 := c.offset + UInt32.ofNat prependImageInfoSize

def Chunk.imgReadOffset (c : Chunk) : UInt32 := c.imgOffset / sdioBlkSize * sdioBlkSize

def Chunk.imgReadSize (c : Chunk) : UInt32 :=
  (c.size + 2 * sdioBlkSize - 1) / sdioBlkSize * sdioBlkSize

def Chunk.alignedOffset (c : Chunk) : UInt32 := c.imgOffset - c.imgReadOffset

structure Verify where
  chunk : Chunk
  bytes : ℕ
  payload : ℕ → Origin

section Loader

variable (f : Fastboot) (m : Memory) (teeVerifyImage : Verify → Int) (slot : Bool) (hwpart : ℕ)

def headerBytes : List UInt8 :=
  let (read, hwpart) := fbMmcFlashRead f (ptName slot) hwpart (UInt32.ofNat maxPagesize)
  (List.range maxPagesize).map fun p =>
    (filled f.device.blksz.toNat hwpart read p).value m.disk (m.header p)

/-- The verifier is called whatever came of the read. -/
def loadPayload (hwpart : ℕ) (c : Chunk) : Verify :=
  let (read, hwpart) :=
    fbMmcFlashReadFromOffset f (ptName slot) hwpart c.imgReadSize c.imgReadOffset
  ⟨c, bytesRead f.device.blksz.toNat read, filled f.device.blksz.toNat hwpart read⟩

def synaLoadSm : Int × Option Verify :=
  if !m.payloadOk || !m.headerOk then (-1, none)
  else
    let header := headerBytes f m slot hwpart
    let hwpart := (fbMmcFlashRead f (ptName slot) hwpart (UInt32.ofNat maxPagesize)).2
    if (header.getD 4 0).toNat + (header.getD 5 0).toNat * 2 ^ 8 ≠ imgInfoMagic then (-1, none)
    else
      let imgHdr := header.drop prependImageInfoSize
      let idx := findChunk imageChunkIdSmFw imgHdr
      if 0 ≤ idx then
        let v := loadPayload f slot hwpart ⟨offsetAt imgHdr idx.toNat, sizeAt imgHdr idx.toNat⟩
        (if teeVerifyImage v ≤ 0 then -1 else 0, some v)
      else (-1, none)

def partition : Option (ℕ × DiskPartition) × ℕ := fMmcGetPartInfo f (ptName slot) hwpart

def chunkByte (c : Chunk) (k : ℕ) : Option Origin :=
  (partition f slot hwpart).1.map fun (_, info) =>
    onDisk (partition f slot hwpart).2 info.start.toNat info.blksz.toNat
      (c.offset.toNat + prependImageInfoSize + k)

structure Complete (v : Verify) : Prop where
  bounded : v.bytes ≤ synaSmMaxFwSize
  holds : ∀ k < v.chunk.size.toNat, v.chunk.alignedOffset.toNat + k < synaSmMaxFwSize ∧
    some (v.payload (v.chunk.alignedOffset.toNat + k)) = chunkByte f slot hwpart v.chunk k

def payloadRead (c : Chunk) : Option BlkRead :=
  (partition f slot hwpart).1.bind fun (_, info) =>
    readRawImageFromOffset info c.imgReadSize c.imgReadOffset

def Fits (c : Chunk) : Prop :=
  bytesRead f.device.blksz.toNat (payloadRead f slot hwpart c) ≤ synaSmMaxFwSize ∧
  (c.size = 0 ∨ (payloadRead f slot hwpart c).isSome ∧
    c.offset.toNat + prependImageInfoSize < 2 ^ 32 ∧ c.size.toNat + 1023 < 2 ^ 32)

end Loader

variable {f : Fastboot} {m : Memory} {teeVerifyImage : Verify → Int} {slot : Bool} {hwpart : ℕ}
  {c : Chunk}

variable {info : DiskPartition}

theorem blksz_partition {i : ℕ} (h : (partition f slot hwpart).1 = some (i, info)) :
    info.blksz = f.device.blksz := by
  unfold partition fMmcGetPartInfo at h
  dsimp only at h
  split at h
  · exact (congrArg (fun q => q.2.blksz) (Option.some.inj h)).symm
  · obtain ⟨p, -, hp⟩ := Option.map_eq_some_iff.mp h
    exact (congrArg (fun q => q.2.blksz) hp).symm

theorem loadPayload_eq (c : Chunk) :
    loadPayload f slot (partition f slot hwpart).2 c =
      ⟨c, bytesRead f.device.blksz.toNat (payloadRead f slot hwpart c),
        filled f.device.blksz.toNat (partition f slot hwpart).2 (payloadRead f slot hwpart c)⟩ := by
  unfold loadPayload fbMmcFlashReadFromOffset
  rw [partition, fMmcGetPartInfo_again]
  rfl

theorem synaLoadSm_verify {ret : Int} {v : Verify}
    (h : synaLoadSm f m teeVerifyImage slot hwpart = (ret, some v)) :
    ∃ c, v = loadPayload f slot (partition f slot hwpart).2 c := by
  unfold synaLoadSm at h
  split at h
  · cases h
  · dsimp only at h
    split at h
    · cases h
    · split at h
      · exact ⟨_, (Option.some.inj (congrArg Prod.snd h)).symm⟩
      · cases h

theorem Chunk.toNat_imgOffset (c : Chunk) :
    c.imgOffset.toNat = (c.offset.toNat + prependImageInfoSize) % 2 ^ 32 :=
  UInt32.toNat_add _ _

theorem Chunk.toNat_imgReadOffset (c : Chunk) :
    c.imgReadOffset.toNat = c.imgOffset.toNat / 512 * 512 := by
  have h := c.imgOffset.toNat_lt
  rw [imgReadOffset, UInt32.toNat_mul, UInt32.toNat_div]
  change c.imgOffset.toNat / 512 * 512 % 2 ^ 32 = _
  omega

theorem Chunk.toNat_imgReadSize (c : Chunk) :
    c.imgReadSize.toNat = (c.size.toNat + 1023) % 2 ^ 32 / 512 * 512 := by
  have hsum : (c.size + 2 * sdioBlkSize - 1).toNat = (c.size.toNat + 1023) % 2 ^ 32 := by
    rw [UInt32.toNat_sub, UInt32.toNat_add]
    change (2 ^ 32 - 1 + (c.size.toNat + 1024) % 2 ^ 32) % 2 ^ 32 = _
    omega
  rw [imgReadSize, UInt32.toNat_mul, UInt32.toNat_div, hsum]
  change (c.size.toNat + 1023) % 2 ^ 32 / 512 * 512 % 2 ^ 32 = _
  omega

theorem Chunk.toNat_alignedOffset (c : Chunk) :
    c.alignedOffset.toNat = c.imgOffset.toNat % 512 := by
  have hread := c.toNat_imgReadOffset
  rw [alignedOffset, UInt32.toNat_sub_of_le _ _ (UInt32.le_iff_toNat_le.mpr (by omega)), hread]
  omega

theorem onDisk_read {r : BlkRead} {offset size : UInt32}
    (h : readRawImageFromOffset info size offset = some r) (hwpart p : ℕ) :
    onDisk hwpart r.start.toNat info.blksz.toNat p =
      onDisk hwpart info.start.toNat info.blksz.toNat (offset.toNat + p) := by
  obtain ⟨halign, -, rfl⟩ := readRawImageFromOffset_some h
  obtain ⟨q, hq⟩ := Nat.dvd_of_mod_eq_zero halign
  have hdiv : (info.start + offset.toUInt64 / info.blksz).toNat =
      (info.start.toNat + q) % 2 ^ 64 := by
    rw [UInt64.toNat_add, UInt64.toNat_div, UInt32.toNat_toUInt64, hq,
      Nat.mul_div_cancel_left _ info.blksz_pos]
  unfold onDisk
  rw [hdiv, hq, Nat.mul_add_div info.blksz_pos, Nat.mul_add_mod, Nat.mod_add_mod, Nat.add_assoc]

theorem onDisk_ne (info : DiskPartition) (hwpart p : ℕ) :
    onDisk hwpart info.start.toNat info.blksz.toNat p ≠
      onDisk hwpart info.start.toNat info.blksz.toNat (p + 2 ^ 32) := by
  obtain ⟨k, hk, hpow⟩ := info.blksz_pow
  have hsplit : 2 ^ 32 = 2 ^ k * 2 ^ (32 - k) := by
    rw [← Nat.pow_add, Nat.add_sub_cancel' hk.le]
  have hlt : 2 ^ (32 - k) ≤ 2 ^ 32 := Nat.pow_le_pow_right (by decide) (Nat.sub_le 32 k)
  have hpos := Nat.two_pow_pos (32 - k)
  intro h
  have hblk : (info.start.toNat + p / 2 ^ k) % 2 ^ 64 =
      (info.start.toNat + (p + 2 ^ 32) / 2 ^ k) % 2 ^ 64 := by
    unfold onDisk at h
    rw [hpow] at h
    exact (Origin.disk.inj h).2.1
  rw [hsplit, Nat.add_mul_div_left _ _ (Nat.two_pow_pos k)] at hblk
  generalize p / 2 ^ k = q at hblk
  generalize 2 ^ (32 - k) = d at hblk hlt hpos
  omega

theorem complete_of_refused (h : payloadRead f slot hwpart c = none) :
    Complete f slot hwpart (loadPayload f slot (partition f slot hwpart).2 c) ↔ c.size = 0 := by
  rw [loadPayload_eq, h]
  constructor
  · intro hc
    by_contra hsize
    have hpos : 0 < c.size.toNat := Nat.pos_of_ne_zero fun h0 => hsize (UInt32.toNat_inj.mp h0)
    obtain ⟨-, hbyte⟩ := hc.holds 0 hpos
    obtain ⟨q, -, hq⟩ := Option.map_eq_some_iff.mp hbyte.symm
    cases hq
  · intro hsize
    refine ⟨Nat.zero_le _, fun k hk => ?_⟩
    rw [show (Verify.chunk _).size = c.size from rfl, hsize] at hk
    exact absurd hk (Nat.not_lt_zero k)

section Issued

variable {i : ℕ} {info : DiskPartition} {r : BlkRead}
  (hpart : (partition f slot hwpart).1 = some (i, info))
  (hr : readRawImageFromOffset info c.imgReadSize c.imgReadOffset = some r)

include hpart

theorem chunkByte_eq (k : ℕ) : chunkByte f slot hwpart c k =
    some (onDisk (partition f slot hwpart).2 info.start.toNat info.blksz.toNat
      (c.offset.toNat + prependImageInfoSize + k)) := by
  rw [chunkByte, hpart]
  rfl

theorem payloadRead_eq : payloadRead f slot hwpart c =
    readRawImageFromOffset info c.imgReadSize c.imgReadOffset := by
  rw [payloadRead, hpart]
  rfl

include hr

theorem imgReadSize_le : c.imgReadSize.toNat ≤ bytesRead f.device.blksz.toNat (some r) := by
  obtain ⟨-, -, rfl⟩ := readRawImageFromOffset_some hr
  have hpos := info.blksz_pos
  change _ ≤ (blkcntOf info c.imgReadSize).toNat * f.device.blksz.toNat
  rw [toNat_blkcntOf, ← blksz_partition hpart]
  have hmod := Nat.div_add_mod (c.imgReadSize.toNat + (info.blksz.toNat - 1)) info.blksz.toNat
  have hlt := Nat.mod_lt (c.imgReadSize.toNat + (info.blksz.toNat - 1)) hpos
  rw [Nat.mul_comm] at hmod
  omega

theorem filled_eq {p : ℕ} (hp : p < bytesRead f.device.blksz.toNat (some r)) :
    filled f.device.blksz.toNat (partition f slot hwpart).2 (some r) p =
      onDisk (partition f slot hwpart).2 info.start.toNat info.blksz.toNat
        (c.imgReadOffset.toNat + p) := by
  rw [← onDisk_read hr, blksz_partition hpart]
  exact if_pos hp

theorem complete_of_fits (hfits : Fits f slot hwpart c) :
    Complete f slot hwpart (loadPayload f slot (partition f slot hwpart).2 c) := by
  rw [loadPayload_eq]
  obtain ⟨hbound, hsize⟩ := hfits
  refine ⟨hbound, fun k hk => ?_⟩
  change k < c.size.toNat at hk
  have hne : c.size ≠ 0 := by
    intro h0
    rw [h0] at hk
    exact Nat.not_lt_zero k hk
  obtain ⟨-, hoffset, hwrap⟩ := hsize.resolve_left hne
  rw [payloadRead_eq hpart, hr] at hbound ⊢
  have hread := imgReadSize_le hpart hr
  rw [c.toNat_imgReadSize, Nat.mod_eq_of_lt hwrap] at hread
  have hoff := c.toNat_imgOffset
  rw [Nat.mod_eq_of_lt hoffset] at hoff
  have hal := c.toNat_alignedOffset
  have hro := c.toNat_imgReadOffset
  dsimp only
  refine ⟨by omega, ?_⟩
  rw [chunkByte_eq hpart, filled_eq hpart hr (by omega), ← hoff]
  congr 2
  omega

theorem fits_of_complete
    (hc : Complete f slot hwpart (loadPayload f slot (partition f slot hwpart).2 c)) :
    Fits f slot hwpart c := by
  rw [loadPayload_eq] at hc
  obtain ⟨hbound, hholds⟩ := hc
  refine ⟨hbound, ?_⟩
  by_cases hsize : c.size = 0
  · exact .inl hsize
  have hpos : 0 < c.size.toNat := Nat.pos_of_ne_zero fun h0 => hsize (UInt32.toNat_inj.mp h0)
  have hlast := (hholds (c.size.toNat - 1) (Nat.sub_lt hpos Nat.one_pos)).1
  have hfirst := (hholds 0 hpos).2
  dsimp only at hlast hfirst
  have hmax : synaSmMaxFwSize = 0x20000 := rfl
  rw [payloadRead_eq hpart, hr] at hbound hfirst ⊢
  refine .inr ⟨rfl, ?_, by omega⟩
  by_contra hwrap
  -- the offset wraps: what is read is 4 GiB in front of the chunk
  have hread := imgReadSize_le hpart hr
  rw [c.toNat_imgReadSize, Nat.mod_eq_of_lt (by omega)] at hread
  have hoff := c.toNat_imgOffset
  have hlt := c.offset.toNat_lt
  have hal := c.toNat_alignedOffset
  have hro := c.toNat_imgReadOffset
  have hprepend : prependImageInfoSize = 64 := rfl
  rw [chunkByte_eq hpart, filled_eq hpart hr (by omega)] at hfirst
  refine onDisk_ne info (partition f slot hwpart).2 c.imgOffset.toNat ?_
  have hplace := Option.some.inj hfirst
  rw [show c.imgReadOffset.toNat + (c.alignedOffset.toNat + 0) = c.imgOffset.toNat by omega,
    show c.offset.toNat + prependImageInfoSize + 0 = c.imgOffset.toNat + 2 ^ 32 by omega] at hplace
  exact hplace

end Issued

theorem Complete.value {v : Verify} {i : ℕ} (h : Complete f slot hwpart v)
    (hpart : (partition f slot hwpart).1 = some (i, info)) {k : ℕ} (hk : k < v.chunk.size.toNat)
    (disk : ℕ → ℕ → ℕ → UInt8) (old : UInt8) :
    (v.payload (v.chunk.alignedOffset.toNat + k)).value disk old =
      (onDisk (partition f slot hwpart).2 info.start.toNat info.blksz.toNat
        (v.chunk.offset.toNat + prependImageInfoSize + k)).value disk old := by
  have hbyte := (h.holds k hk).2
  rw [chunkByte_eq hpart] at hbyte
  rw [Option.some.inj hbyte]

def smBoot (size : UInt64) : Fastboot :=
  ⟨(Tables.mk [⟨ptName false, 0x1000, size⟩] [] (Nat.zero_le 4)).device, false, none, fun _ => none⟩

def smHeader (size : UInt32) : List UInt8 :=
  List.replicate 4 0 ++ [0x1d, 0xe1] ++ List.replicate 118 0 ++ le32 1 ++ le32 imageChunkIdSmFw ++
    le32 0x200 ++ le32 size

def smMemory (size : UInt32) : Memory where
  disk := fun hwpart blk byte =>
    if hwpart = 0 ∧ blk = 0x1000 then (smHeader size).getD byte 0 else 0
  header := fun _ => 0
  payloadOk := true
  headerOk := true

end SynaBoot.SmFirmware
