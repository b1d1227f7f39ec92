import SynaBoot.MiscFlash

namespace SynaBoot.MiscFrame

open SynaBoot.BootMode (miscMode kFtsBootcmdRecovery)
open SynaBoot.MiscFlash

theorem foldl_frame {α : Type} {f : Bytes → α → Bytes} {l : List α} {a : Nat} (mem : Bytes)
    (h : ∀ k ∈ l, ∀ mem, f mem k a = mem a) : l.foldl f mem a = mem a := by
  induction l generalizing mem with
  | nil => rfl
  | cons k l ih =>
    rw [List.forall_mem_cons] at h
    rw [List.foldl_cons, ih _ h.2, h.1]

theorem spiWrite_frame (buff mem : Bytes) {offset size a : Nat}
    (h : ∀ k < (size + 255) / 256, a / 256 ≠ spiAddr (offset + 256 * k) / 256) :
    spiWrite buff offset size mem a = mem a := by
  refine foldl_frame mem fun k hk m => ?_
  unfold spiWriteAPage
  exact if_neg fun hc => h k (List.mem_range.mp hk) hc.1

theorem doEmmcwrite_frame (buff mem : Bytes) {start blks a : Nat}
    (h : a / 512 < mmcBlock start ∨ mmcBlock start + blks ≤ a / 512) :
    doEmmcwrite buff start blks mem a = mem a := by
  unfold doEmmcwrite
  exact if_neg (by omega)

theorem spiErase_block (b : Nat) (mem : Bytes) (hb : b < 0xffff) :
    spiErase (b * 0x10000) 0x10000 mem = spiEarseABlock mem (b * 0x10000) := by
  have hstop : (b * 0x10000 + 0x10000) % 2 ^ 32 = b * 0x10000 + 0x10000 :=
    Nat.mod_eq_of_lt (by omega)
  have hcount : (b * 0x10000 + 0x10000 - b * 0x10000 + 0xffff) / 0x10000 = 1 := by omega
  unfold spiErase
  rw [hstop, Nat.mul_div_cancel b (by decide)]
  dsimp only
  rw [hcount, List.range_one, List.foldl_cons, List.foldl_nil, Nat.mul_zero, Nat.add_zero]

theorem slice_congr {mem mem' : Bytes} {start n : Nat} (h : ∀ i < n, mem' (start + i) = mem (start + i)) :
    slice mem' start n = slice mem start n :=
  List.map_congr_left fun i hi => h i (List.mem_range.mp hi)

section

variable {f : Flash} {c : Bootctrl} {p : Partition} {mem mem' : Bytes}

theorem checkMiscCommand_congr
    (h : ∀ i < 32, mem' (f.miscStart p + i) = mem (f.miscStart p + i))
    (he : f.device = .emmc → ∀ i < 32,
      mem' (512 * mmcBlock (f.miscStart p) + i) = mem (512 * mmcBlock (f.miscStart p) + i)) :
    f.checkMiscCommand p mem' = f.checkMiscCommand p mem := by
  have hflash : (f.readFlash (f.miscStart p) mem').map (fun b => slice b 0 32) =
      (f.readFlash (f.miscStart p) mem).map fun b => slice b 0 32 := by
    unfold Flash.readFlash
    cases hd : f.device with
    | nor =>
      dsimp only
      split
      · rfl
      · exact congrArg some (slice_congr fun i hi => by simpa using h i hi)
    | emmc =>
      dsimp only
      split
      · rfl
      · exact congrArg some (slice_congr fun i hi => by simpa using he hd i hi)
  have himage (size : Nat) : (f.readImage p size mem').map (fun b => slice b 0 32) =
      (f.readImage p size mem).map fun b => slice b 0 32 := by
    unfold Flash.readImage
    cases p with
    | vt startBlkind blks =>
      dsimp only
      split
      · rfl
      · exact hflash
    | gpt lbaStart lbaEnd =>
      dsimp only
      split
      · rfl
      · exact hflash
  have hmode (m : Bytes) : f.checkMiscCommand p m = (((f.readImage p
      (if 2048 < f.getPageSize then f.getPageSize else 2048) m).map fun b => slice b 0 32).map
        fun command => miscMode ⟨command, [], [], []⟩).getD .normal := by
    unfold Flash.checkMiscCommand
    dsimp only
    cases f.readImage p (if 2048 < f.getPageSize then f.getPageSize else 2048) m with
    | none => rfl
    | some b => rfl
  rw [hmode, hmode, himage]

theorem messageSize_le (c : Bootctrl) : 32 ≤ c.messageSize ∧ c.messageSize ≤ c.synaSpaceOffsetInMisc ∧
    c.synaSpaceOffsetInMisc % 512 = 0 ∧ c.synaSpaceOffsetInMisc ≤ 4096 := by
  cases c <;> decide

theorem spiWrite_message (buff mem : Bytes) {start size i : Nat} (hstart : start % 512 = 0)
    (hsize : size ≤ 512) (hi : i < c.messageSize) :
    spiWrite buff ((start + c.synaSpaceOffsetInMisc) % 2 ^ 32) size mem (start + i) =
      mem (start + i) := by
  obtain ⟨-, hle, hoff, hmax⟩ := messageSize_le c
  refine spiWrite_frame buff mem fun k hk => ?_
  unfold spiAddr
  omega

theorem doEmmcwrite_message (buff mem : Bytes) {lba i : Nat} (hi : i < c.messageSize) :
    doEmmcwrite buff (lba * 512 + c.synaSpaceOffsetInMisc) 1 mem (lba * 512 + i) =
        mem (lba * 512 + i) ∧
      (i < 32 → doEmmcwrite buff (lba * 512 + c.synaSpaceOffsetInMisc) 1 mem
        (512 * mmcBlock (lba * 512) + i) = mem (512 * mmcBlock (lba * 512) + i)) := by
  obtain ⟨-, hle, hoff, hmax⟩ := messageSize_le c
  have hblock : mmcBlock (lba * 512 + c.synaSpaceOffsetInMisc) =
      (lba + c.synaSpaceOffsetInMisc / 512) % 2 ^ 32 := by
    unfold mmcBlock
    omega
  have hblock₀ : mmcBlock (lba * 512) = lba % 2 ^ 32 := by
    unfold mmcBlock
    omega
  refine ⟨doEmmcwrite_frame buff mem ?_, fun h32 => doEmmcwrite_frame buff mem ?_⟩
  · rw [hblock]
    omega
  · rw [hblock, hblock₀]
    omega

theorem eraseFlash_nor (hd : f.device = .nor) (blk : UInt32) (mem : Bytes) :
    f.eraseFlash (blk.toNat * 0x10000 + c.synaSpaceOffsetInMisc -
        (blk.toNat * 0x10000 + c.synaSpaceOffsetInMisc &&& (0x10000 - 1))) 0x10000 mem =
      (0, if f.eraseOk then spiErase (blk.toNat * 0x10000 % 2 ^ 32) 0x10000 mem else mem) := by
  obtain ⟨-, -, -, hmax⟩ := messageSize_le c
  have hmask : blk.toNat * 0x10000 + c.synaSpaceOffsetInMisc -
      (blk.toNat * 0x10000 + c.synaSpaceOffsetInMisc &&& (0x10000 - 1)) = blk.toNat * 0x10000 := by
    rw [show 0x10000 - 1 = 2 ^ 16 - 1 from rfl, Nat.and_two_pow_sub_one_eq_mod]
    omega
  rw [hmask]
  unfold Flash.eraseFlash
  rw [hd]

theorem preserved_of_frame (h : ∀ i < c.messageSize, mem' (f.miscStart p + i) = mem (f.miscStart p + i))
    (he : f.device = .emmc → ∀ i < 32,
      mem' (512 * mmcBlock (f.miscStart p) + i) = mem (512 * mmcBlock (f.miscStart p) + i)) :
    f.message c p mem' = f.message c p mem ∧
      f.checkMiscCommand p mem' = f.checkMiscCommand p mem :=
  ⟨slice_congr h, checkMiscCommand_congr (fun i hi => h i (hi.trans_le (messageSize_le c).1)) he⟩

theorem preserved_refl (f : Flash) (c : Bootctrl) (p : Partition) (mem : Bytes) :
    f.message c p mem = f.message c p mem ∧ f.checkMiscCommand p mem = f.checkMiscCommand p mem :=
  ⟨rfl, rfl⟩

theorem preserved_gpt (lbaStart lbaEnd : Fin (2 ^ 53)) (buff mem : Bytes) :
    let mem' := (f.writeFlash (lbaStart * 512 + c.synaSpaceOffsetInMisc) 32 buff mem).2
    f.message c (.gpt lbaStart lbaEnd) mem' = f.message c (.gpt lbaStart lbaEnd) mem ∧
      f.checkMiscCommand (.gpt lbaStart lbaEnd) mem' =
        f.checkMiscCommand (.gpt lbaStart lbaEnd) mem := by
  unfold Flash.writeFlash
  cases hd : f.device with
  | nor =>
    dsimp only
    split
    · refine preserved_of_frame (fun i hi => ?_) fun he => ?_
      · exact spiWrite_message buff mem (Nat.mul_mod_left _ _) (by decide) hi
      · rw [hd] at he
        cases he
    · exact preserved_refl f c _ mem
  | emmc =>
    dsimp only
    split
    · refine preserved_of_frame (fun i hi => ?_) fun _ i hi => ?_
      · exact (doEmmcwrite_message buff mem hi).1
      · exact (doEmmcwrite_message buff mem (hi.trans_le (messageSize_le c).1)).2 hi
    · exact preserved_refl f c _ mem

theorem writeFlash_nor (hd : f.device = .nor) (buff mem : Bytes) {start i : Nat}
    (hstart : start % 512 = 0) (hi : i < c.messageSize) :
    (f.writeFlash (start + c.synaSpaceOffsetInMisc) 512 buff mem).2 (start + i) =
      mem (start + i) := by
  unfold Flash.writeFlash
  rw [hd]
  dsimp only
  split
  · exact spiWrite_message buff mem hstart le_rfl hi
  · rfl

theorem spiErase_far (offset size : Nat) (mem : Bytes) {a : Nat} (ha : 2 ^ 24 ≤ a) :
    spiErase offset size mem a = mem a := by
  refine foldl_frame mem fun k _ m => ?_
  unfold spiEarseABlock spiAddr
  exact if_neg (by omega)

theorem erased_message {blk : Nat} (hblk : blk < 256) (mem : Bytes) {i : Nat}
    (hi : i < c.messageSize) :
    spiErase (blk * 0x10000 % 2 ^ 32) 0x10000 mem (blk * 0x10000 + i) = 0xff := by
  obtain ⟨-, hle, -, hmax⟩ := messageSize_le c
  rw [Nat.mod_eq_of_lt (by omega), spiErase_block blk mem (by omega)]
  unfold spiEarseABlock spiAddr
  exact if_pos (by omega)

theorem writeBootctrlMetadata_nor (hd : f.device = .nor) (blk blks : UInt32)
    (metadata : Fin 32 → UInt8) (temp mem : Bytes) :
    (f.writeBootctrlMetadata c (.vt blk blks) true metadata temp mem).2 =
      (f.writeFlash (blk.toNat * 0x10000 + c.synaSpaceOffsetInMisc) 512 (copied metadata temp)
        (if f.eraseOk then spiErase (blk.toNat * 0x10000 % 2 ^ 32) 0x10000 mem else mem)).2 := by
  have hblock : f.getBlockSize = 0x10000 := by
    unfold Flash.getBlockSize
    rw [hd]
  have hpage : f.getPageSize = 512 := by
    unfold Flash.getPageSize
    rw [hd]
  unfold Flash.writeBootctrlMetadata
  rw [if_pos rfl, hblock, hpage]
  dsimp only
  rw [eraseFlash_nor hd]
  rfl

theorem miscStart_nor (hd : f.device = .nor) (blk blks : UInt32) :
    f.miscStart (.vt blk blks) = blk.toNat * 0x10000 := by
  unfold Flash.miscStart Flash.getBlockSize
  rw [hd]

theorem preserved_nor (hd : f.device = .nor) (blk blks : UInt32)
    (h : ∀ i < c.messageSize, mem' (blk.toNat * 0x10000 + i) = mem (blk.toNat * 0x10000 + i)) :
    f.message c (.vt blk blks) mem' = f.message c (.vt blk blks) mem ∧
      f.checkMiscCommand (.vt blk blks) mem' = f.checkMiscCommand (.vt blk blks) mem := by
  refine preserved_of_frame (fun i hi => ?_) fun he => ?_
  · rw [miscStart_nor hd]
    exact h i hi
  · rw [hd] at he
    cases he

theorem mem_message_nor (hd : f.device = .nor) (blk blks : UInt32) (m : Bytes) (b : UInt8) :
    b ∈ f.message c (.vt blk blks) m ↔
      ∃ i < c.messageSize, m (blk.toNat * 0x10000 + i) = b := by
  unfold Flash.message slice
  rw [miscStart_nor hd]
  simp only [List.mem_map, List.mem_range]

theorem nor_message_iff (hd : f.device = .nor) (blk blks : UInt32)
    (hafter : ∀ i < c.messageSize, mem' (blk.toNat * 0x10000 + i) =
      (if f.eraseOk then spiErase (blk.toNat * 0x10000 % 2 ^ 32) 0x10000 mem else mem)
        (blk.toNat * 0x10000 + i)) :
    (f.message c (.vt blk blks) mem' = f.message c (.vt blk blks) mem ∧
        f.checkMiscCommand (.vt blk blks) mem' = f.checkMiscCommand (.vt blk blks) mem) ↔
      ¬(f.eraseOk = true ∧ blk.toNat < 256 ∧ ∃ b ∈ f.message c (.vt blk blks) mem, b ≠ 0xff) := by
  by_cases herase : f.eraseOk = true ∧ blk.toNat < 256
  · have hff : ∀ i < c.messageSize, mem' (blk.toNat * 0x10000 + i) = 0xff := by
      intro i hi
      rw [hafter i hi, if_pos herase.1]
      exact erased_message herase.2 mem hi
    constructor
    · rintro ⟨hsame, -⟩ ⟨-, -, b, hb, hne⟩
      rw [← hsame, mem_message_nor hd] at hb
      obtain ⟨i, hi, rfl⟩ := hb
      exact hne (hff i hi)
    · intro hall
      refine preserved_nor hd blk blks fun i hi => ?_
      rw [hff i hi]
      by_contra hne
      have hb := (mem_message_nor hd blk blks mem _).mpr ⟨i, hi, rfl⟩
      exact hall ⟨herase.1, herase.2, _, hb, fun h => hne h.symm⟩
  · refine iff_of_true (preserved_nor hd blk blks fun i hi => ?_) fun h => herase ⟨h.1, h.2.1⟩
    rw [hafter i hi]
    split
    case isTrue hok =>
      have hfar : ¬blk.toNat < 256 := fun h => herase ⟨hok, h⟩
      exact spiErase_far _ _ mem (by omega)
    case isFalse => rfl

end

/-- The message is kept in every build but one: a version table on NOR flash. -/
theorem metadata_keeps_message_iff (f : Flash) (c : Bootctrl) (p : Partition)
    (bootctrlIsExist : Bool) (metadata : Fin 32 → UInt8) (temp mem : Bytes) :
    let mem' := (f.writeBootctrlMetadata c p bootctrlIsExist metadata temp mem).2
    (f.message c p mem' = f.message c p mem ∧
        f.checkMiscCommand p mem' = f.checkMiscCommand p mem) ↔
      ¬(bootctrlIsExist = true ∧ f.device = .nor ∧ f.eraseOk = true ∧
        (∃ startBlkind blks, p = .vt startBlkind blks ∧ startBlkind.toNat < 256) ∧
        ∃ b ∈ f.message c p mem, b ≠ 0xff) := by
  intro mem'
  cases hex : bootctrlIsExist with
  | false =>
    have hmem : mem' = mem := by
      unfold mem' Flash.writeBootctrlMetadata
      rw [hex]
      rfl
    rw [hmem]
    exact iff_of_true (preserved_refl f c p mem) fun h => Bool.false_ne_true h.1
  | true =>
    cases p with
    | gpt lbaStart lbaEnd =>
      have hmem : mem' = (f.writeFlash (lbaStart * 512 + c.synaSpaceOffsetInMisc) 32
          (copied metadata temp) mem).2 := by
        unfold mem' Flash.writeBootctrlMetadata
        rw [hex]
        rfl
      rw [hmem]
      refine iff_of_true (preserved_gpt lbaStart lbaEnd _ mem) ?_
      rintro ⟨-, -, -, ⟨blk, blks, hp, -⟩, -⟩
      cases hp
    | vt blk blks =>
      cases hd : f.device with
      | emmc =>
        have hmem : mem' = mem := by
          unfold mem' Flash.writeBootctrlMetadata Flash.eraseFlash
          rw [hex, hd]
          rfl
        rw [hmem]
        refine iff_of_true (preserved_refl f c _ mem) ?_
        rintro ⟨-, hnor, -⟩
        cases hnor
      | nor =>
        have hafter : ∀ i < c.messageSize, mem' (blk.toNat * 0x10000 + i) =
            (if f.eraseOk then spiErase (blk.toNat * 0x10000 % 2 ^ 32) 0x10000 mem else mem)
              (blk.toNat * 0x10000 + i) := by
          intro i hi
          unfold mem'
          rw [hex, writeBootctrlMetadata_nor hd]
          exact writeFlash_nor hd _ _ (by omega) hi
        rw [nor_message_iff hd blk blks hafter]
        refine not_congr ⟨?_, ?_⟩
        · rintro ⟨hok, hlt, hb⟩
          exact ⟨rfl, rfl, hok, ⟨blk, blks, rfl, hlt⟩, hb⟩
        · rintro ⟨-, -, hok, ⟨blk', blks', hp, hlt⟩, hb⟩
          cases hp
          exact ⟨hok, hlt, hb⟩

def norFlash : Flash := ⟨.nor, 0, 0, true, true, true⟩

def recoveryAt (a : Nat) : UInt8 :=
  if a < 0x40000 then 0xff else kFtsBootcmdRecovery.getD (a - 0x40000) 0

theorem metadata_erases_command :
    norFlash.checkMiscCommand (.vt 4 16) recoveryAt = .recovery ∧
      norFlash.checkMiscCommand (.vt 4 16) (norFlash.writeBootctrlMetadata .syna (.vt 4 16) true
        (fun _ => 0) (fun _ => 0) recoveryAt).2 = .normal := by
  decide +kernel

end SynaBoot.MiscFrame
