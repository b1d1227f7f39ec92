import SynaBoot.EmmcBlocks
import SynaBoot.EmmcParts
import SynaBoot.Genimg

namespace SynaBoot.BootImages

open SynaBoot.BlockRange SynaBoot.CText SynaBoot.EmmcBlocks SynaBoot.EmmcParts SynaBoot.Genimg
open SynaBoot.FlashRecord (le32)

def bootPartitionSize : UInt32 := 512 * 1024

/-- The flash that `g_flash` is built for. -/
inductive Adaptor where
  | emmc
  | nor
  deriving DecidableEq, Repr

def spiBootPartNum : UInt32 := 2
def spiBootPartSize : UInt32 := 0x200000

/-- The start of a boot partition; that of part 0 wraps. -/
def norSwitchPart (part : UInt32) : Int :=
  if spiBootPartNum < part then flashSwitchPartNoexist
  else ((part - 1) * spiBootPartSize).toNat

def switchFlashPart (a : Adaptor) (ok : Bool) (part : UInt32) (s : Emmc) : Int × Emmc :=
  match a with
  | .emmc => switchEmmcPart ok part s
  | .nor => (int32 (norSwitchPart part), s)

def readFlash (a : Adaptor) (ok : Bool) (start : ℕ) (size : UInt32) : Int :=
  match a with
  | .emmc => if (readEmmc start size).isNone then -1 else if ok then 0 else flashOpErr
  | .nor => if 0x1000000 < start then -1 else 0

structure Env where
  switchOk : Bool
  readOk : Bool
  backOk : Bool
  deriving DecidableEq, Repr

structure FlashRead where
  chunk : ℕ
  device : UInt32
  partAddr : Int
  start : ℕ
  size : UInt32
  deriving DecidableEq, Repr

inductive Outcome where
  | hangs
  | returns (ret : Int)
  deriving DecidableEq, Repr

structure Result where
  read : Option FlashRead
  outcome : Outcome
  emmc : Emmc
  deriving DecidableEq, Repr

section Loader

variable (imgHeaderAddr : UInt32) (a : Adaptor) (env : Env) (part : UInt32) (gih : List UInt8)
  (id : UInt32) (s : Emmc)

def chunkOffset (i : ℕ) : UInt32 := offsetAt gih i + imgHeaderAddr

/-- `read_image_from_GIH` outside of U-Boot. -/
def readImageFromGIH : Result :=
  let chunkId := findChunk id gih
  if 0 ≤ chunkId then
    let offset := chunkOffset imgHeaderAddr gih chunkId.toNat
    let size := sizeAt gih chunkId.toNat
    let (partAddr, s) := switchFlashPart a env.switchOk part s
    if partAddr < 0 then ⟨none, .returns flashOpErr, s⟩
    else if bootPartitionSize < offset + size then ⟨none, .hangs, s⟩
    else
      let start := (UInt32.ofInt partAddr + offset).toNat
      let read := some ⟨chunkId.toNat, s.device, partAddr, start, size⟩
      if readFlash a env.readOk start size ≠ 0 then ⟨read, .returns flashOpErr, s⟩
      else
        let (partAddr, s) := switchFlashPart a env.backOk 0 s
        if partAddr < 0 then ⟨read, .returns flashOpErr, s⟩ else ⟨read, .returns 0, s⟩
  else ⟨none, .hangs, s⟩

end Loader

def FlashRead.Inside (r : FlashRead) : Prop :=
  ∀ b : ℕ, r.start ≤ b → b < r.start + r.size.toNat →
    r.partAddr ≤ b ∧ (b : Int) < r.partAddr + bootPartitionSize.toNat

variable {imgHeaderAddr : UInt32} {a : Adaptor} {env : Env} {part : UInt32} {gih : List UInt8}
  {id : UInt32} {s : Emmc} {r : FlashRead}

theorem inside_iff (r : FlashRead) : r.Inside ↔ r.size = 0 ∨ r.partAddr ≤ r.start ∧
    (r.start : Int) + r.size.toNat ≤ r.partAddr + bootPartitionSize.toNat := by
  constructor
  · intro h
    by_cases h0 : r.size = 0
    · exact .inl h0
    · have hpos : 0 < r.size.toNat := Nat.pos_of_ne_zero fun h => h0 (UInt32.toNat_inj.mp h)
      have hfirst := h r.start le_rfl (by omega)
      have hlast := h (r.start + r.size.toNat - 1) (by omega) (by omega)
      exact .inr ⟨hfirst.1, by omega⟩
  · rintro (h0 | ⟨hlo, hhi⟩) b hb hlt
    · rw [h0] at hlt
      change b < r.start + 0 at hlt
      omega
    · omega

theorem findChunk_range (h : 0 ≤ findChunk id gih) :
    ∃ i : ℕ, findChunk id gih = i ∧ i < (chunkNum gih).toNat ∧ chunkIdAt gih i = id := by
  unfold findChunk at h ⊢
  split at h
  case isFalse => exact absurd h (by decide)
  case isTrue hn =>
    rw [if_pos hn]
    split at h
    case h_2 => exact absurd h (by decide)
    case h_1 i hf =>
      refine ⟨i, rfl, List.mem_range.mp (List.mem_of_find?_eq_some hf), ?_⟩
      have hid := List.find?_some hf
      exact (of_decide_eq_true hid).symm

theorem switchEmmcPart_ret (ok : Bool) (part : UInt32) (s : Emmc) :
    (switchEmmcPart ok part s).1 ≤ 0 := by
  by_cases hp : 8 < part
  · rw [switch_noexist ok hp]
    exact (by decide : flashSwitchPartNoexist ≤ 0)
  · by_cases hc : s.currentPart = part
    · rw [switch_current ok hp hc]
    · cases ok
      · rw [switch_fails hp hc]
        exact (by decide : flashOpErr ≤ 0)
      · rw [switch_moves hp hc]

theorem switchFlashPart_addr {ok : Bool} {p : Int} {s' : Emmc}
    (h : switchFlashPart a ok part s = (p, s')) (hp : 0 ≤ p) : p = 0 ∨ p = 0x200000 := by
  cases a with
  | emmc =>
    have hle := switchEmmcPart_ret ok part s
    rw [show switchEmmcPart ok part s = (p, s') from h] at hle
    exact .inl (le_antisymm hle hp)
  | nor =>
    obtain rfl : int32 (norSwitchPart part) = p := congrArg Prod.fst h
    by_cases hlt : spiBootPartNum < part
    · rw [norSwitchPart, if_pos hlt] at hp
      exact absurd hp (by decide)
    · have hle : part.toNat ≤ 2 := UInt32.not_lt.mp hlt
      rw [norSwitchPart, if_neg hlt] at hp ⊢
      obtain rfl | rfl | rfl : part = 0 ∨ part = 1 ∨ part = 2 := by
        simp only [← UInt32.toNat_inj]
        change part.toNat = 0 ∨ part.toNat = 1 ∨ part.toNat = 2
        omega
      · exact absurd hp (by decide)
      · exact .inl (by decide)
      · exact .inr (by decide)

theorem readImageFromGIH_read
    (h : (readImageFromGIH imgHeaderAddr a env part gih id s).read = some r) :
    ∃ (i : ℕ) (p : Int) (s' : Emmc), findChunk id gih = i ∧
      switchFlashPart a env.switchOk part s = (p, s') ∧ 0 ≤ p ∧
      chunkOffset imgHeaderAddr gih i + sizeAt gih i ≤ bootPartitionSize ∧
      r = ⟨i, s'.device, p, (UInt32.ofInt p + chunkOffset imgHeaderAddr gih i).toNat,
        sizeAt gih i⟩ := by
  unfold readImageFromGIH at h
  by_cases hfound : 0 ≤ findChunk id gih
  · obtain ⟨i, hi⟩ := Int.eq_ofNat_of_zero_le hfound
    obtain ⟨p, s', hsw⟩ : ∃ p s', switchFlashPart a env.switchOk part s = (p, s') := ⟨_, _, rfl⟩
    rw [hi] at hfound
    simp only [hi, if_pos hfound, Int.toNat_natCast, hsw] at h
    by_cases hp : p < 0
    · rw [if_pos hp] at h
      cases h
    by_cases hsize : bootPartitionSize < chunkOffset imgHeaderAddr gih i + sizeAt gih i
    · rw [if_neg hp, if_pos hsize] at h
      cases h
    rw [if_neg hp, if_neg hsize] at h
    refine ⟨i, p, s', hi, hsw, not_lt.mp hp, UInt32.not_lt.mp hsize, ?_⟩
    split at h
    · exact (Option.some.inj h).symm
    · split at h <;> exact (Option.some.inj h).symm
  · simp only [if_neg hfound] at h
    cases h

theorem inside_read_iff {i : ℕ} {p : Int} {device offset size : UInt32}
    (hp : p = 0 ∨ p = 0x200000) (hsize : offset + size ≤ bootPartitionSize) :
    FlashRead.Inside ⟨i, device, p, (UInt32.ofInt p + offset).toNat, size⟩ ↔
      offset.toNat + size.toNat < 2 ^ 32 := by
  have hsum : (offset.toNat + size.toNat) % 2 ^ 32 ≤ 0x80000 := by
    have h := UInt32.le_iff_toNat_le.mp hsize
    rw [UInt32.toNat_add] at h
    exact h
  have ho := offset.toNat_lt
  have hz := size.toNat_lt
  have hzero : size = 0 ↔ size.toNat = 0 := UInt32.toNat_inj.symm
  have hboot : bootPartitionSize.toNat = 0x80000 := rfl
  rw [inside_iff]
  dsimp only
  rw [UInt32.toNat_add, hzero, hboot]
  obtain rfl | rfl := hp
  · rw [show (UInt32.ofInt 0).toNat = 0 from rfl]
    omega
  · rw [show (UInt32.ofInt 0x200000).toNat = 0x200000 from rfl]
    omega

/-- A flash read is inside the boot partition exactly if the end of the chunk does not wrap. -/
theorem read_image_inside_iff (imgHeaderAddr : UInt32) (a : Adaptor) (env : Env) (part : UInt32)
    (gih : List UInt8) (id : UInt32) (s : Emmc) (r : FlashRead)
    (h : (readImageFromGIH imgHeaderAddr a env part gih id s).read = some r) :
    r.chunk < (chunkNum gih).toNat ∧ chunkIdAt gih r.chunk = id ∧
    (r.Inside ↔
      (chunkOffset imgHeaderAddr gih r.chunk).toNat + (sizeAt gih r.chunk).toNat < 2 ^ 32) := by
  obtain ⟨i, p, s', hi, hsw, hp, hsize, rfl⟩ := readImageFromGIH_read h
  obtain ⟨j, hj, hlt, hid⟩ := findChunk_range (hi ▸ Int.natCast_nonneg i)
  obtain rfl : j = i := Int.ofNat.inj (hj.symm.trans hi)
  exact ⟨hlt, hid, inside_read_iff (switchFlashPart_addr hsw hp) hsize⟩

def imageChunkIdBootloader : UInt32 := 0x524c5442

def oneChunk (offset size : UInt32) : List UInt8 :=
  List.replicate 60 0 ++ (le32 1 ++ (le32 imageChunkIdBootloader ++ (le32 offset ++
    (le32 size ++ List.replicate 20 0))))

def allOk : Env := ⟨true, true, true⟩

theorem read_image_inside_chunk : ∃ r, (readImageFromGIH 0xd000 .emmc allOk 1
    (oneChunk 0x3000 0x8000) imageChunkIdBootloader (poweron 0)).read = some r ∧ r.Inside := by
  have h : (readImageFromGIH 0xd000 .emmc allOk 1 (oneChunk 0x3000 0x8000)
      imageChunkIdBootloader (poweron 0)).read = some ⟨0, 1, 0, 0x10000, 0x8000⟩ := by decide
  exact ⟨_, h, (read_image_inside_iff _ _ _ _ _ _ _ _ h).2.2.mpr (by decide)⟩

theorem read_image_outside : ∃ r, (readImageFromGIH 0xd000 .emmc allOk 1
    (oneChunk 0xffff2e00 0x400) imageChunkIdBootloader (poweron 0)).read = some r ∧
      r.start = 0xfffffe00 ∧ ¬ r.Inside := by
  have h : (readImageFromGIH 0xd000 .emmc allOk 1 (oneChunk 0xffff2e00 0x400)
      imageChunkIdBootloader (poweron 0)).read = some ⟨0, 1, 0, 0xfffffe00, 0x400⟩ := by decide
  refine ⟨_, h, rfl, ?_⟩
  rw [inside_iff]
  decide

theorem FlashRead.Inside.blocks_lt {blks : List ℕ} (h : r.Inside) (hp : r.partAddr = 0)
    (hr : readEmmc r.start r.size = some blks) : ∀ b ∈ blks, b < 1024 := by
  have hblk : (mmcBlockSize : Int) = 512 := rfl
  have hboot : bootPartitionSize.toNat = 0x80000 := rfl
  obtain ⟨halign, rfl⟩ : (r.start : Int).tmod mmcBlockSize = 0 ∧
      doEmmcread r.start (blksOf r.size) = blks := by
    unfold readEmmc at hr
    split at hr
    · cases hr
    case isFalse ht => exact ⟨not_not.mp ht, Option.some.inj hr⟩
  rw [hblk, Int.tmod_eq_emod_of_nonneg (Int.natCast_nonneg _)] at halign
  rw [doEmmcread_eq]
  obtain h0 | ⟨-, hend⟩ := (inside_iff r).mp h
  · rw [h0, show blksOf 0 = 0 from rfl, blocks_eq_nil.mpr rfl]
    intro b hb
    cases hb
  · rw [hp, hboot] at hend
    have hlba : lbaOf r.start = r.start / 512 := by
      unfold lbaOf uint64 mmcBlockSize
      omega
    have hcount : blksOf r.size = (r.size.toNat + 511) / 512 := by
      unfold blksOf mmcBlockSize
      omega
    rw [hlba, hcount]
    have hin : ∀ b ∈ blocks (2 ^ 32) (r.start / 512) ((r.size.toNat + 511) / 512),
        0 ≤ b ∧ b < 1024 := by
      refine (blocks_within_iff (Nat.zero_le _) ?_).mpr (.inr ⟨?_, ?_⟩)
      all_goals omega
    exact fun b hb => (hin b hb).2

end SynaBoot.BootImages
