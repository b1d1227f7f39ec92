import SynaBoot.LoadGpt

namespace SynaBoot.ImageAccess

open SynaBoot.BlockRange SynaBoot.CText SynaBoot.EmmcBlocks SynaBoot.EmmcParts SynaBoot.LoadGpt

def sdioBlkSize : Int := 0x200

def imageStart (e : GptEnt) (ptOffset : UInt32) : Int :=
  int64 (int64 (int64 e.entLbaStart.toNat * sdioBlkSize) + ptOffset.toNat)

/-- The start of the last block of the partition. -/
def imageEnd (e : GptEnt) : Int := int64 (int64 e.entLbaEnd.toNat * sdioBlkSize)

def exceeds (e : GptEnt) (ptOffset size : UInt32) : Bool :=
  imageEnd e < int64 (int64 (size.toNat + imageStart e ptOffset) - sdioBlkSize)

structure Access where
  device : UInt32
  blks : List ℕ
  deriving DecidableEq

def readImageFromOffset (e : GptEnt) (ptOffset size : UInt32) (s : Emmc) : Option Access :=
  if exceeds e ptOffset size then none
  else (readEmmc (imageStart e ptOffset) size).map (Access.mk s.device)

/-- The result of the switch to the user area is not looked at. -/
def writeImageToOffset (ok : Bool) (e : GptEnt) (ptOffset size : UInt32) (s : Emmc) :
    Option Access × Emmc :=
  if exceeds e ptOffset size then (none, s)
  else
    let s := (switchEmmcPart ok 0 s).2
    (some ⟨s.device, writeEmmc (imageStart e ptOffset) size⟩, s)

variable {e : GptEnt} {ptOffset size : UInt32}

def firstBlock (e : GptEnt) (ptOffset : UInt32) : ℕ := e.entLbaStart.toNat + ptOffset.toNat / 512

theorem imageStart_eq (e : GptEnt) (ptOffset : UInt32) :
    imageStart e ptOffset = int64 ((e.entLbaStart.toNat * 512 + ptOffset.toNat : ℕ) : Int) := by
  unfold imageStart int64 sdioBlkSize
  rw [Int.bmod_mul_bmod, Int.bmod_add_bmod]
  norm_num

theorem lbaOf_imageStart (e : GptEnt) (ptOffset : UInt32) :
    lbaOf (imageStart e ptOffset) = firstBlock e ptOffset % 2 ^ 32 := by
  have hu : uint64 (imageStart e ptOffset) =
      (e.entLbaStart.toNat * 512 + ptOffset.toNat) % 2 ^ 64 := by
    rw [imageStart_eq, uint64, int64]
    have h := Int.bmod_emod (x := ((e.entLbaStart.toNat * 512 + ptOffset.toNat : ℕ) : Int)) (m := 2 ^ 64)
    push_cast at h
    push_cast
    omega
  unfold lbaOf firstBlock mmcBlockSize
  omega

theorem imageEnd_le (e : GptEnt) : imageEnd e ≤ (e.entLbaEnd.toNat * 512 : ℕ) := by
  unfold imageEnd int64 sdioBlkSize
  rw [Int.bmod_mul_bmod, Int.bmod_def]
  split <;> omega

theorem firstBlock_span (e : GptEnt) (ptOffset size : UInt32) :
    firstBlock e ptOffset + blksOf size ≤ e.entLbaStart.toNat + 2 ^ 32 := by
  have ho := ptOffset.toNat_lt
  have hb := blksOf_lt size
  unfold firstBlock
  omega

theorem firstBlock_le_end (h : exceeds e ptOffset size = false)
    (hw : firstBlock e ptOffset + blksOf size ≤ 2 ^ 32) (hn : blksOf size ≠ 0) :
    firstBlock e ptOffset + blksOf size ≤ e.entLbaEnd.toNat + 1 := by
  have hs := size.toNat_lt
  have ho := ptOffset.toNat_lt
  have hend := imageEnd_le e
  have hblks := blksOf_le size
  unfold mmcBlockSize at hblks
  have hfirst : e.entLbaStart.toNat < 2 ^ 32 := by
    unfold firstBlock at hw
    omega
  have hstart : imageStart e ptOffset = ((e.entLbaStart.toNat * 512 + ptOffset.toNat : ℕ) : Int) := by
    rw [imageStart_eq]
    exact int64_of_range (by omega)
  have hblk : sdioBlkSize = 512 := rfl
  have hsum : int64 (size.toNat + imageStart e ptOffset) = size.toNat + imageStart e ptOffset :=
    int64_of_range (by omega)
  have hdiff : int64 (size.toNat + imageStart e ptOffset - sdioBlkSize) =
      size.toNat + imageStart e ptOffset - sdioBlkSize :=
    int64_of_range (by omega)
  rw [exceeds, hsum, hdiff, hstart, hblk] at h
  have hle := Int.not_lt.mp (of_decide_eq_false h)
  clear hsum hdiff hstart hblk
  unfold firstBlock
  omega

theorem access_blks {ok : Bool} {s : Emmc} {a : Access}
    (h : readImageFromOffset e ptOffset size s = some a ∨
      (writeImageToOffset ok e ptOffset size s).1 = some a) :
    exceeds e ptOffset size = false ∧
      a.blks = blocks (2 ^ 32) (firstBlock e ptOffset) (blksOf size) := by
  unfold readImageFromOffset writeImageToOffset at h
  cases hx : exceeds e ptOffset size with
  | true => simp [hx] at h
  | false =>
    simp only [hx, Bool.false_eq_true, if_false] at h
    refine ⟨rfl, ?_⟩
    rw [← blocks_mod, ← lbaOf_imageStart]
    obtain h | h := h
    · obtain ⟨blks, hblks, rfl⟩ := Option.map_eq_some_iff.mp h
      unfold readEmmc at hblks
      split at hblks
      · cases hblks
      · cases hblks
        exact doEmmcread_eq _ _
    · cases h
      rfl

theorem readImageFromOffset_eq (s : Emmc) (hx : exceeds e ptOffset size = false)
    (ha : (imageStart e ptOffset).tmod mmcBlockSize = 0) :
    readImageFromOffset e ptOffset size s =
      some ⟨s.device, blocks (2 ^ 32) (firstBlock e ptOffset) (blksOf size)⟩ := by
  unfold readImageFromOffset readEmmc
  rw [hx, if_neg Bool.false_ne_true, if_neg (not_not.mpr ha), doEmmcread_eq, lbaOf_imageStart,
    blocks_mod]
  rfl

theorem writeImageToOffset_exceeds (ok : Bool) (s : Emmc) (hx : exceeds e ptOffset size = true) :
    writeImageToOffset ok e ptOffset size s = (none, s) := if_pos hx

theorem writeImageToOffset_within (ok : Bool) (s : Emmc) (hx : exceeds e ptOffset size = false) :
    writeImageToOffset ok e ptOffset size s =
      (some ⟨(switchEmmcPart ok 0 s).2.device, writeEmmc (imageStart e ptOffset) size⟩,
        (switchEmmcPart ok 0 s).2) := by
  unfold writeImageToOffset
  rw [hx, if_neg Bool.false_ne_true]

/-- An access stays in its partition exactly if its block numbers have 32 bits. -/
theorem access_confined_iff (e : GptEnt) (ptOffset size : UInt32) (ok : Bool) (s : Emmc) (a : Access)
    (h : readImageFromOffset e ptOffset size s = some a ∨
      (writeImageToOffset ok e ptOffset size s).1 = some a) :
    (∀ b ∈ a.blks, e.entLbaStart.toNat ≤ b ∧ b ≤ e.entLbaEnd.toNat) ↔
      a.blks = [] ∨ e.entLbaStart.toNat + ptOffset.toNat / 512 + a.blks.length ≤ 2 ^ 32 := by
  obtain ⟨hx, hblks⟩ := access_blks h
  have hlo : e.entLbaStart.toNat ≤ firstBlock e ptOffset := Nat.le_add_right _ _
  have hiff : (∀ b ∈ blocks (2 ^ 32) (firstBlock e ptOffset) (blksOf size),
      e.entLbaStart.toNat ≤ b ∧ b < e.entLbaEnd.toNat + 1) ↔ _ :=
    blocks_within_iff hlo (firstBlock_span e ptOffset size)
  rw [hblks, length_blocks, blocks_eq_nil]
  simp only [Nat.lt_succ_iff] at hiff
  rw [hiff]
  constructor
  · exact Or.imp_right And.right
  · intro hor
    by_cases hn : blksOf size = 0
    · exact .inl hn
    · have hw := hor.resolve_left hn
      exact .inr ⟨firstBlock_le_end hx hw hn, hw⟩

theorem length_zeros (n : ℕ) : (List.replicate n (0 : UInt8)).length = n := List.length_replicate

def blank (n : ℕ) : FlashRecord.Bytes n := ⟨List.replicate n 0, length_zeros n⟩

def zeroEnt : GptEnt := ⟨blank 16, blank 16, 0, 0, 0, blank 72⟩

def bootEnt : GptEnt := { zeroEnt with entLbaStart := 0x800, entLbaEnd := 0x80f }

theorem access_confined_boot :
    readImageFromOffset bootEnt 0x400 0x1c00 (poweron 0) = some ⟨0, blocks (2 ^ 32) 0x802 14⟩ ∧
      ∀ b ∈ blocks (2 ^ 32) 0x802 14, 0x800 ≤ b ∧ b ≤ 0x80f := by
  have hread : readImageFromOffset bootEnt 0x400 0x1c00 (poweron 0) =
      some ⟨0, blocks (2 ^ 32) 0x802 14⟩ :=
    readImageFromOffset_eq (poweron 0) (by decide) (by decide)
  exact ⟨hread, (access_confined_iff bootEnt 0x400 0x1c00 true (poweron 0) _ (.inl hread)).mpr
    (.inr (by decide))⟩

def farEnt : GptEnt := { zeroEnt with entLbaStart := 0x100000000, entLbaEnd := 0x10000000f }
def wrappedEnt : GptEnt := { zeroEnt with entLbaStart := 0x80000000000000, entLbaEnd := 0x8000000000000f }

theorem hostile_entries_escape :
    readImageFromOffset farEnt 0 0x200 (poweron 0) = some ⟨0, [0]⟩ ∧
      readImageFromOffset wrappedEnt 0 0x200 (poweron 0) = some ⟨0, [0]⟩ ∧
      (writeImageToOffset true farEnt 0 0x200 (poweron 0)).1 = some ⟨0, [0]⟩ ∧
      (writeImageToOffset true wrappedEnt 0 0x200 (poweron 0)).1 = some ⟨0, [0]⟩ ∧
      ¬ farEnt.entLbaStart.toNat ≤ 0 ∧ ¬ wrappedEnt.entLbaStart.toNat ≤ 0 := by
  rw [readImageFromOffset_eq (e := farEnt) _ (by decide) (by decide),
    readImageFromOffset_eq (e := wrappedEnt) _ (by decide) (by decide)]
  decide

end SynaBoot.ImageAccess
