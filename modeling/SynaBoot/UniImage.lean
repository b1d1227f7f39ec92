import SynaBoot.Crc32
import SynaBoot.FileWrites
import SynaBoot.FlashRecord

namespace SynaBoot.UniImage

open SynaBoot.Crc32 SynaBoot.FileWrites
open SynaBoot.FlashRecord (Bytes le32)

def partNameMaxLen : ℕ := 15
def magicNumer : UInt32 := 0xD2ADA3F1

structure Version where
  minorVersion : UInt32
  majorVersion : UInt32
  deriving DecidableEq

structure SubImgInfo where
  name : Bytes 16
  size : UInt64
  crc : UInt32
  version : Version
  reservedBlocks : UInt32
  chipStartBlkind : UInt32
  chipNumBlocks : UInt32
  dataType : UInt32
  partitionType : UInt32
  reserved : Bytes 8
  deriving DecidableEq

def le64 (x : UInt64) : List UInt8 := le32 x.toUInt32 ++ le32 (x >>> 32).toUInt32

def Version.toBytes (v : Version) : List UInt8 := le32 v.minorVersion ++ le32 v.majorVersion

def SubImgInfo.toBytes (h : SubImgInfo) : List UInt8 :=
  h.name.1 ++ (le64 h.size ++ (le32 h.crc ++ (h.version.toBytes ++ (le32 h.reservedBlocks ++
    (le32 h.chipStartBlkind ++ (le32 h.chipNumBlocks ++ (le32 h.dataType ++
      (le32 h.partitionType ++ h.reserved.1))))))))

section SubimgInfo

inductive DataType where
  | normal
  | oob
  | raw
  deriving DecidableEq, Repr

inductive PartitionType where
  | mlc
  | slc
  | eslc
  deriving DecidableEq, Repr

def DataType.code : DataType → UInt32
  | .normal => 0
  | .oob => 1
  | .raw => 2

def PartitionType.code : PartitionType → UInt32
  | .mlc => 0
  | .slc => 1
  | .eslc => 2

/-- A number that was not given is -1. -/
structure InfoOptions where
  name : List UInt8
  version : Version
  reservedBlocks : UInt32
  chipStartBlkind : UInt32
  chipNumBlocks : UInt32
  dataType : DataType
  partitionType : PartitionType

def InfoOptions.complete (o : InfoOptions) : Bool :=
  o.version.majorVersion ≠ 0xffffffff && o.version.minorVersion ≠ 0xffffffff &&
    o.reservedBlocks ≠ 0xffffffff && o.chipStartBlkind ≠ 0xffffffff &&
    o.chipNumBlocks ≠ 0xffffffff

theorem length_nameField (name : List UInt8) :
    ((name ++ List.replicate 16 0).take 16).length = 16 := by
  rw [List.length_take, List.length_append, List.length_replicate]
  omega

def nameField (name : List UInt8) : Bytes 16 := ⟨_, length_nameField name⟩

theorem length_eightZeros : (List.replicate 8 (0 : UInt8)).length = 8 := List.length_replicate

def subImgInfo (o : InfoOptions) (file : List UInt8) : SubImgInfo where
  name := nameField o.name
  size := UInt64.ofNat file.length
  crc := fcrc32 0 0 file
  version := o.version
  reservedBlocks := o.reservedBlocks
  chipStartBlkind := o.chipStartBlkind
  chipNumBlocks := o.chipNumBlocks
  dataType := o.dataType.code
  partitionType := o.partitionType.code
  reserved := ⟨List.replicate 8 0, length_eightZeros⟩

def genSubimgInfo (o : InfoOptions) (file : List UInt8) : Option SubImgInfo :=
  if o.complete then
    if partNameMaxLen < o.name.length then none else some (subImgInfo o file)
  else none

end SubimgInfo

section Uniimg

inductive DdrType where
  | ddr2
  | ddr3
  deriving DecidableEq, Repr

inductive DdrChannel where
  | dual
  | single
  deriving DecidableEq, Repr

def DdrType.code : DdrType → UInt8
  | .ddr2 => 2
  | .ddr3 => 3

def DdrChannel.code : DdrChannel → UInt8
  | .dual => 2
  | .single => 1

structure Settings where
  pageSize : UInt32
  blockSize : UInt32
  chipSize : ℤ
  version : Version
  ddrType : Option DdrType
  ddrChannel : Option DdrChannel
  cpuType : UInt8 × UInt8

/-- `none` is an exit with an error, or a division by 0. -/
def imgHdr (s : Settings) (numSubImages : ℕ) : Option (List UInt8) :=
  if s.pageSize = 0 ∨ s.blockSize = 0 then none
  else if s.chipSize.tmod s.blockSize.toNat ≠ 0 then none
  else if s.cpuType = (0, 0) then none
  else do
    let ddrType ← s.ddrType
    let ddrChannel ← s.ddrChannel
    return le32 magicNumer ++ (s.version.toBytes ++ (le32 s.pageSize ++ (le32 0 ++
      (le32 (s.blockSize / s.pageSize) ++
        (le32 (UInt32.ofNat (s.chipSize.tdiv s.blockSize.toNat % 2 ^ 32).toNat) ++
          (le32 (UInt32.ofNat numSubImages) ++ ([ddrType.code + 16 * ddrChannel.code,
            s.cpuType.1, s.cpuType.2] ++ List.replicate 29 0)))))))

structure SubFiles where
  info : Option SubImgInfo
  image : Option (List UInt8)

def adopt (h : SubImgInfo) (image : List UInt8) : SubImgInfo :=
  if UInt64.ofNat image.length ≠ h.size then { h with size := UInt64.ofNat image.length } else h

/-- The loop; the positions and the sum are `unsigned int`. -/
def addSubImages (n : ℕ) : ℕ → UInt32 → List UInt8 → List SubFiles → Option (List UInt8)
  | _, _, fout, [] => some fout
  | i, sum, fout, x :: xs => do
    let info ← x.info
    let image ← x.image
    let subHdr := adopt info image
    let pos := UInt32.ofNat (64 + 64 * i)
    let fout := writeAt fout pos.toNat subHdr.toBytes
    let pos := UInt32.ofNat (64 + 64 * n) + sum
    let fout := writeAt fout pos.toNat image
    addSubImages n (i + 1) (sum + subHdr.size.toUInt32) fout xs

def genUniimg (s : Settings) (xs : List SubFiles) : Option (List UInt8) :=
  if xs.length < 1 then none
  else do
    let hdr ← imgHdr s xs.length
    addSubImages xs.length 0 0 (writeAt [] 0 hdr) xs

end Uniimg

structure SubImage where
  options : InfoOptions
  old : List UInt8
  image : List UInt8

def SubImage.files (x : SubImage) : SubFiles := ⟨genSubimgInfo x.options x.old, some x.image⟩

def SubImage.hdr (x : SubImage) : SubImgInfo := adopt (subImgInfo x.options x.old) x.image

def imagePos (xs : List SubImage) (i : ℕ) : ℕ :=
  64 + 64 * xs.length + ((xs.take i).map fun x => x.image.length).sum

structure Consistent (s : Settings) (xs : List SubImage) (fout : List UInt8) : Prop where
  hdr : ∃ hdr, imgHdr s xs.length = some hdr ∧ Holds fout 0 hdr
  subHdrs : ∀ i x, xs[i]? = some x → Holds fout (64 + 64 * i) x.hdr.toBytes
  images : ∀ i x, xs[i]? = some x → Holds fout (imagePos xs i) x.image
  sizes : ∀ x ∈ xs, x.hdr.size.toNat = x.image.length
  crcs : ∀ x ∈ xs, x.hdr.crc = crc32 0 0 x.image

structure Unwrapped (xs : List SubImage) : Prop where
  subHdrs : ∀ i < xs.length, 64 + 64 * i < 2 ^ 32
  images : ∀ i x, xs[i]? = some x → x.image ≠ [] → imagePos xs i < 2 ^ 32

section Layout

variable {n i total : ℕ} {xs : List SubImage} {x : SubImage}

def laid (n : ℕ) : ℕ → ℕ → List SubImage → List (ℕ × List UInt8)
  | _, _, [] => []
  | i, total, x :: xs => (64 + 64 * i, x.hdr.toBytes) :: (64 + 64 * n + total, x.image) ::
      laid n (i + 1) (total + x.image.length) xs

theorem length_le32 (x : UInt32) : (le32 x).length = 4 := rfl

theorem SubImgInfo.length_toBytes (h : SubImgInfo) : h.toBytes.length = 64 := by
  simp only [SubImgInfo.toBytes, Version.toBytes, le64, List.length_append, length_le32, h.name.2,
    h.reserved.2]

theorem SubImgInfo.toBytes_ne_nil (h : SubImgInfo) : h.toBytes ≠ [] := by
  intro hnil
  have hlen := h.length_toBytes
  rw [hnil] at hlen
  cases hlen

variable {hdr : List UInt8} {sum : UInt32} {w : ℕ × List UInt8}

theorem length_imgHdr {s : Settings} (h : imgHdr s n = some hdr) : hdr.length = 64 := by
  unfold imgHdr at h
  split at h
  · cases h
  split at h
  · cases h
  split at h
  · cases h
  obtain ⟨ddrType, -, h⟩ := Option.bind_eq_some_iff.mp h
  obtain ⟨ddrChannel, -, h⟩ := Option.bind_eq_some_iff.mp h
  rw [← Option.some.inj h]
  simp only [Version.toBytes, List.length_append, length_le32, List.length_cons, List.length_nil,
    List.length_replicate]

theorem adopt_size (h : SubImgInfo) (image : List UInt8) :
    (adopt h image).size = UInt64.ofNat image.length := by
  unfold adopt
  split
  · rfl
  · next heq => exact (not_not.mp heq).symm

theorem adopt_crc (h : SubImgInfo) (image : List UInt8) : (adopt h image).crc = h.crc := by
  unfold adopt
  split <;> rfl

theorem hdr_crc (x : SubImage) : x.hdr.crc = crc32 0 0 x.old := by
  rw [SubImage.hdr, adopt_crc]
  exact fcrc32_eq 0 0 0 x.old

theorem toNat_add_size (hsum : sum.toNat = total % 2 ^ 32) (x : SubImage) :
    (sum + x.hdr.size.toUInt32).toNat = (total + x.image.length) % 2 ^ 32 := by
  rw [UInt32.toNat_add, UInt64.toNat_toUInt32, SubImage.hdr, adopt_size, UInt64.toNat_ofNat', hsum]
  omega

theorem toNat_pos (hsum : sum.toNat = total % 2 ^ 32) :
    (UInt32.ofNat (64 + 64 * n) + sum).toNat = (64 + 64 * n + total) % 2 ^ 32 := by
  rw [UInt32.toNat_add, UInt32.toNat_ofNat', hsum]
  omega

theorem addSubImages_eq {fout out : List UInt8} (hsum : sum.toNat = total % 2 ^ 32)
    (h : addSubImages n i sum fout (xs.map SubImage.files) = some out) :
    out = writes (wrapped (2 ^ 32) (laid n i total xs)) fout := by
  induction xs generalizing i total sum fout with
  | nil => exact (Option.some.inj h).symm
  | cons x xs ih =>
    rw [List.map_cons, addSubImages] at h
    obtain ⟨info, hinfo, h⟩ := Option.bind_eq_some_iff.mp h
    obtain ⟨image, himage, h⟩ := Option.bind_eq_some_iff.mp h
    obtain rfl : x.image = image := Option.some.inj himage
    have hhdr : adopt info x.image = x.hdr := by
      change genSubimgInfo x.options x.old = some info at hinfo
      unfold genSubimgInfo at hinfo
      split at hinfo
      · split at hinfo
        · cases hinfo
        · rw [SubImage.hdr, Option.some.inj hinfo]
      · cases hinfo
    dsimp only at h
    rw [hhdr, toNat_pos hsum, UInt32.toNat_ofNat'] at h
    exact ih (toNat_add_size hsum x) h

theorem mem_laid_iff : w ∈ laid n i total xs ↔ ∃ k x, xs[k]? = some x ∧
    (w = (64 + 64 * (i + k), x.hdr.toBytes) ∨
      w = (64 + 64 * n + (total + ((xs.take k).map fun x => x.image.length).sum), x.image)) := by
  induction xs generalizing i total with
  | nil => exact iff_of_false List.not_mem_nil fun ⟨k, x, h, _⟩ => by cases h
  | cons y xs ih =>
    rw [laid, List.mem_cons, List.mem_cons, ih]
    constructor
    · rintro (rfl | rfl | ⟨k, x, hx, hw⟩)
      · exact ⟨0, y, rfl, .inl rfl⟩
      · exact ⟨0, y, rfl, .inr rfl⟩
      · refine ⟨k + 1, x, hx, ?_⟩
        rw [List.take_succ_cons, List.map_cons, List.sum_cons, ← Nat.add_assoc total,
          Nat.add_comm k 1, ← Nat.add_assoc i]
        exact hw
    · rintro ⟨k, x, hx, hw⟩
      cases k with
      | zero =>
        obtain rfl := Option.some.inj hx
        exact hw.imp_right .inl
      | succ k =>
        rw [List.take_succ_cons, List.map_cons, List.sum_cons, ← Nat.add_assoc total,
          Nat.add_comm k 1, ← Nat.add_assoc i] at hw
        exact .inr (.inr ⟨k, x, hx, hw⟩)

theorem laid_bounds (hn : i + xs.length ≤ n) (hw : w ∈ laid n i total xs) :
    64 + 64 * i ≤ w.1 ∧ w.1 + w.2.length ≤ 64 + 64 * n ∨ 64 + 64 * n + total ≤ w.1 := by
  obtain ⟨k, x, hx, rfl | rfl⟩ := mem_laid_iff.mp hw
  · have hk : k < xs.length := (List.getElem?_eq_some_iff.mp hx).1
    refine .inl ⟨Nat.add_le_add_left (Nat.mul_le_mul_left 64 (Nat.le_add_right i k)) 64, ?_⟩
    dsimp only
    rw [SubImgInfo.length_toBytes]
    omega
  · exact .inr (Nat.add_le_add_left (Nat.le_add_right _ _) _)

theorem laid_apart (hn : i + xs.length ≤ n) : (laid n i total xs).Pairwise Apart := by
  induction xs generalizing i total with
  | nil => exact .nil
  | cons x xs ih =>
    rw [List.length_cons] at hn
    have hrest : i + 1 + xs.length ≤ n := by omega
    have hbounds (w) (hw : w ∈ laid n (i + 1) (total + x.image.length) xs) := laid_bounds hrest hw
    refine .cons (fun w hw => ?_) (.cons (fun w hw => ?_) (ih hrest))
    · unfold Apart
      dsimp only
      rw [SubImgInfo.length_toBytes]
      obtain rfl | hw := List.mem_cons.mp hw
      · dsimp only
        omega
      · have := hbounds w hw
        omega
    · unfold Apart
      dsimp only
      have := hbounds w hw
      omega

def layout (hdr : List UInt8) (xs : List SubImage) : List (ℕ × List UInt8) :=
  (0, hdr) :: laid xs.length 0 0 xs

theorem layout_apart (hlen : hdr.length = 64) : (layout hdr xs).Pairwise Apart := by
  have hn : 0 + xs.length ≤ xs.length := (Nat.zero_add _).le
  refine .cons (fun w hw => .inl ?_) (laid_apart hn)
  have := laid_bounds hn hw
  dsimp only
  omega

theorem genUniimg_eq {s : Settings} {out : List UInt8}
    (h : genUniimg s (xs.map SubImage.files) = some out) :
    ∃ hdr, imgHdr s xs.length = some hdr ∧ out = writes (wrapped (2 ^ 32) (layout hdr xs)) [] := by
  unfold genUniimg at h
  split at h
  · cases h
  · rw [List.length_map] at h
    obtain ⟨hdr, hhdr, h⟩ := Option.bind_eq_some_iff.mp h
    exact ⟨hdr, hhdr, addSubImages_eq rfl h⟩

theorem addSubImages_some {fout : List UInt8}
    (h : ∀ x ∈ xs, ∃ r, genSubimgInfo x.options x.old = some r) :
    ∃ out, addSubImages n i sum fout (xs.map SubImage.files) = some out := by
  induction xs generalizing i sum fout with
  | nil => exact ⟨fout, rfl⟩
  | cons x xs ih =>
    obtain ⟨r, hr⟩ := h x List.mem_cons_self
    rw [List.map_cons, addSubImages, SubImage.files, hr]
    exact ih fun y hy => h y (List.mem_cons_of_mem x hy)

theorem genUniimg_some (s : Settings) (hne : xs ≠ []) (hhdr : imgHdr s xs.length = some hdr)
    (h : ∀ x ∈ xs, ∃ r, genSubimgInfo x.options x.old = some r) :
    ∃ out, genUniimg s (xs.map SubImage.files) = some out := by
  have hpos := List.length_pos_of_ne_nil hne
  rw [genUniimg, List.length_map, if_neg (Nat.not_lt.mpr hpos), hhdr]
  exact addSubImages_some h

theorem mem_layout_iff : w ∈ layout hdr xs ↔
    w = (0, hdr) ∨ ∃ k x, xs[k]? = some x ∧
      (w = (64 + 64 * k, x.hdr.toBytes) ∨ w = (imagePos xs k, x.image)) := by
  rw [layout, List.mem_cons, mem_laid_iff]
  simp only [Nat.zero_add, imagePos]

theorem unwrapped_iff : (∀ w ∈ layout hdr xs, w.2 ≠ [] → w.1 < 2 ^ 32) ↔ Unwrapped xs := by
  constructor
  · intro h
    refine ⟨fun i hi => ?_, fun i x hx hne => ?_⟩
    · have hx := List.getElem?_eq_getElem hi
      exact h _ (mem_layout_iff.mpr (.inr ⟨i, _, hx, .inl rfl⟩)) (SubImgInfo.toBytes_ne_nil _)
    · exact h _ (mem_layout_iff.mpr (.inr ⟨i, x, hx, .inr rfl⟩)) hne
  · intro h w hw hne
    obtain rfl | ⟨k, x, hx, rfl | rfl⟩ := mem_layout_iff.mp hw
    · exact Nat.two_pow_pos 32
    · exact h.subHdrs k (List.getElem?_eq_some_iff.mp hx).1
    · exact h.images k x hx hne

/-- The image is right exactly if positions have 32 bits and checksums are those of the files. -/
theorem uniimg_consistent_iff (s : Settings) (xs : List SubImage) (fout : List UInt8)
    (h : genUniimg s (xs.map SubImage.files) = some fout)
    (hsize : ∀ x ∈ xs, x.image.length < 2 ^ 64) :
    Consistent s xs fout ↔
      Unwrapped xs ∧ ∀ x ∈ xs, crc32 0 0 x.old = crc32 0 0 x.image := by
  obtain ⟨hdr, hhdr, rfl⟩ := genUniimg_eq h
  have hlen := length_imgHdr hhdr
  have hapart : (layout hdr xs).Pairwise Apart := layout_apart hlen
  constructor
  · intro hc
    refine ⟨unwrapped_iff.mp (unwrapped_of_length (Nat.two_pow_pos 32) hapart fun w hw hne => ?_),
      fun x hx => (hdr_crc x).symm.trans (hc.crcs x hx)⟩
    obtain rfl | ⟨k, x, hx, rfl | rfl⟩ := mem_layout_iff.mp hw
    · obtain ⟨hdr', hhdr', hholds⟩ := hc.hdr
      obtain rfl := Option.some.inj (hhdr.symm.trans hhdr')
      exact hholds.length hne
    · exact (hc.subHdrs k x hx).length hne
    · exact (hc.images k x hx).length hne
  · rintro ⟨hun, hcrc⟩
    have hholds := holds_writes hapart []
    rw [writes_wrapped (unwrapped_iff.mpr hun)]
    refine ⟨⟨hdr, hhdr, hholds _ (mem_layout_iff.mpr (.inl rfl))⟩, fun i x hx => ?_, fun i x hx => ?_,
      fun x hx => ?_, fun x hx => (hdr_crc x).trans (hcrc x hx)⟩
    · exact hholds _ (mem_layout_iff.mpr (.inr ⟨i, x, hx, .inl rfl⟩))
    · exact hholds _ (mem_layout_iff.mpr (.inr ⟨i, x, hx, .inr rfl⟩))
    · rw [SubImage.hdr, adopt_size, UInt64.toNat_ofNat', Nat.mod_eq_of_lt (hsize x hx)]

end Layout

def someOptions (name : List UInt8) : InfoOptions :=
  ⟨name, ⟨1, 0⟩, 0, 0, 1, .normal, .mlc⟩

def someSettings : Settings := ⟨2048, 131072, 134217728, ⟨1, 0⟩, some .ddr3, some .dual, (0x43, 0)⟩

def freshImages : List SubImage :=
  [⟨someOptions [0x61], [1, 2, 3], [1, 2, 3]⟩, ⟨someOptions [0x62], [4, 5], [4, 5]⟩]

def staleImage : SubImage := ⟨someOptions [0x61], [1, 2, 3], [1, 2, 4]⟩

theorem uniimg_consistent_fresh :
    ∃ fout, genUniimg someSettings (freshImages.map SubImage.files) = some fout ∧
      Consistent someSettings freshImages fout := by
  have hne : freshImages ≠ [] := by decide
  obtain ⟨fout, hfout⟩ := genUniimg_some someSettings hne rfl
    (by simp [freshImages, genSubimgInfo, someOptions, InfoOptions.complete, partNameMaxLen])
  refine ⟨fout, hfout, (uniimg_consistent_iff _ _ _ hfout ?_).mpr ⟨⟨?_, ?_⟩, ?_⟩⟩
  · simp [freshImages]
  · decide
  · intro i x hx _
    match i, hx with
    | 0, _ | 1, _ => decide
  · simp [freshImages]

theorem uniimg_stale_crc :
    ∃ fout, genUniimg someSettings [staleImage.files] = some fout ∧
      ¬ Consistent someSettings [staleImage] fout := by
  obtain ⟨fout, hfout⟩ := genUniimg_some someSettings (List.cons_ne_nil staleImage []) rfl
    (by simp [staleImage, genSubimgInfo, someOptions, InfoOptions.complete, partNameMaxLen])
  refine ⟨fout, hfout, fun hc => ?_⟩
  have hcrc := hc.crcs staleImage List.mem_cons_self
  rw [hdr_crc] at hcrc
  exact absurd hcrc (by decide +kernel)

end SynaBoot.UniImage
