import SynaBoot.FlashRecord

namespace SynaBoot.SparseImage

open SynaBoot.FlashRecord (word le32)

/-- The block size of the eMMC. -/
def blksz : ℕ := 512
def fillbufSize : ℕ := 0x80000
def fillBufNumBlks : ℕ := fillbufSize / blksz

def half (l : List UInt8) (i : ℕ) : ℕ := (l.getD i 0).toNat + (l.getD (i + 1) 0).toNat * 2 ^ 8

/-- `sparse_header_t`. -/
structure SparseHeader where
  fileHdrSz : ℕ
  chunkHdrSz : ℕ
  blkSz : ℕ
  totalBlks : ℕ
  totalChunks : ℕ
  deriving DecidableEq, Repr

def SparseHeader.ofBytes (l : List UInt8) : SparseHeader :=
  ⟨half l 8, half l 10, (word l 12).toNat, (word l 16).toNat, (word l 20).toNat⟩

/-- `chunk_header_t`. -/
structure ChunkHeader where
  chunkType : ℕ
  chunkSz : ℕ
  totalSz : ℕ
  deriving DecidableEq, Repr

def ChunkHeader.ofBytes (l : List UInt8) : ChunkHeader :=
  ⟨half l 0, (word l 4).toNat, (word l 8).toNat⟩

def sizeofSparseHeader : ℕ := 28
def sizeofChunkHeader : ℕ := 12

def chunkTypeRaw : ℕ := 0xCAC1
def chunkTypeFill : ℕ := 0xCAC2
def chunkTypeDontCare : ℕ := 0xCAC3
def chunkTypeCrc32 : ℕ := 0xCAC4

def isSparseImage (l : List UInt8) : Bool := word l 0 = 0xed26ff3a && half l 4 = 1

/-- A request to write blocks from `blk` on. -/
structure Write where
  blk : ℕ
  blocks : List (List UInt8)
  deriving DecidableEq, Repr

/-- `struct sparse_storage`: `write` returns the number of blocks that are written, and
`erasedMemCont` is what the words of an erased block hold. -/
structure SparseStorage where
  start : ℕ
  size : ℕ
  erasedMemCont : UInt32
  write : Write → ℕ

/-- The variables of the loop over the chunks, and the requests made so far; `data` is the memory
from the pointer of that name on. -/
structure State where
  data : List UInt8
  blk : ℕ
  totalBlocks : ℕ
  log : List Write

/-- The message of an error, and the requests made before it. -/
abbrev Stop := String × List Write

variable (info : SparseStorage) (hdr : SparseHeader)

def request (w : Write) (s : State) : Except Stop State :=
  if info.write w < w.blocks.length then .error ("flash write failure", s.log ++ [w])
  else .ok { s with blk := (s.blk + info.write w) % 2 ^ 64, log := s.log ++ [w] }

def exceeds (blk blkcnt : ℕ) : Bool := (info.start + info.size) % 2 ^ 64 < (blk + blkcnt) % 2 ^ 64

def blockAt (data : List UInt8) (k : ℕ) : List UInt8 := (data.drop (k * blksz)).take blksz

def fillBlock (fillVal : UInt32) : List UInt8 := (List.replicate (blksz / 4) (le32 fillVal)).flatten

/-- The loop that writes a fill chunk, with the number of blocks that are left. -/
def fillLoop (block : List UInt8) : ℕ → ℕ → State → Except Stop State
  | 0, _, s => .ok s
  | fuel + 1, rest, s =>
    if rest = 0 then .ok s
    else
      let j := min rest fillBufNumBlks
      (request info ⟨s.blk, List.replicate j block⟩ s).bind fun s =>
        fillLoop block fuel (rest - j) s

def addBlocks (n : ℕ) (s : State) : State := { s with totalBlocks := (s.totalBlocks + n) % 2 ^ 32 }

def skipBlocks (n : ℕ) (s : State) : State := { s with blk := (s.blk + n) % 2 ^ 64 }

def rawChunk (ch : ChunkHeader) (chunkDataSz : ℕ) (s : State) : Except Stop State :=
  if ch.totalSz ≠ (hdr.chunkHdrSz + chunkDataSz) % 2 ^ 32 then
    .error ("Bogus chunk size for chunk type Raw", s.log)
  else if exceeds info s.blk (chunkDataSz / blksz) then
    .error ("Request would exceed partition size!", s.log)
  else
    (request info ⟨s.blk, (List.range (chunkDataSz / blksz)).map (blockAt s.data)⟩ s).map fun s =>
      addBlocks ch.chunkSz { s with data := s.data.drop chunkDataSz }

/-- A fill chunk with what an erased block holds is skipped, before the check of the size. -/
def fillChunk (ch : ChunkHeader) (chunkDataSz : ℕ) (s : State) : Except Stop State :=
  let blkcnt := chunkDataSz / blksz
  let fillVal := word s.data 0
  let s' := { s with data := s.data.drop 4 }
  if ch.totalSz ≠ hdr.chunkHdrSz + 4 then .error ("Bogus chunk size for chunk type FILL", s.log)
  else if fillVal = info.erasedMemCont then
    .ok (addBlocks (chunkDataSz / hdr.blkSz) (skipBlocks blkcnt s'))
  else if exceeds info s.blk blkcnt then .error ("Request would exceed partition size!", s.log)
  else
    (fillLoop info (fillBlock fillVal) blkcnt blkcnt s').map (addBlocks (chunkDataSz / hdr.blkSz))

def crcChunk (ch : ChunkHeader) (chunkDataSz : ℕ) (s : State) : Except Stop State :=
  if ch.totalSz ≠ hdr.chunkHdrSz then
    .error ("Bogus chunk size for chunk type Dont Care", s.log)
  else .ok (addBlocks ch.chunkSz { s with data := s.data.drop chunkDataSz })

/-- One chunk, with a header that may be longer than the loader knows. -/
def chunkStep (s : State) : Except Stop State :=
  let ch := ChunkHeader.ofBytes s.data
  let s := { s with
    data := s.data.drop (sizeofChunkHeader + (hdr.chunkHdrSz - sizeofChunkHeader)) }
  let chunkDataSz := hdr.blkSz * ch.chunkSz % 2 ^ 32
  if ch.chunkType = chunkTypeRaw then rawChunk info hdr ch chunkDataSz s
  else if ch.chunkType = chunkTypeFill then fillChunk info hdr ch chunkDataSz s
  else if ch.chunkType = chunkTypeDontCare then
    .ok (addBlocks ch.chunkSz (skipBlocks (chunkDataSz / blksz) s))
  else if ch.chunkType = chunkTypeCrc32 then crcChunk hdr ch chunkDataSz s
  else .error ("Unknown chunk type", s.log)

def chunkLoop : ℕ → State → Except Stop State
  | 0, s => .ok s
  | n + 1, s => (chunkStep info hdr s).bind (chunkLoop n)

/-- The number of blocks is compared with the header's when all chunks are done. -/
def finish : Except Stop State → Option String × List Write
  | .error e => (some e.1, e.2)
  | .ok s =>
    (if s.totalBlocks ≠ hdr.totalBlks then some "sparse image write failure" else none, s.log)

/-- A file header longer than the loader knows is skipped, and what it is longer by once more. -/
def firstChunk (image : List UInt8) : List UInt8 :=
  image.drop (hdr.fileHdrSz + (hdr.fileHdrSz - sizeofSparseHeader))

def writeChunks (image : List UInt8) : Option String × List Write :=
  if hdr.blkSz % blksz ≠ 0 then (some "sparse image block size issue", [])
  else finish hdr
    (chunkLoop info hdr hdr.totalChunks ⟨firstChunk hdr image, info.start, 0, []⟩)

/-- The message if the image is refused, and the requests. -/
def writeSparseImage (image : List UInt8) : Option String × List Write :=
  writeChunks info (SparseHeader.ofBytes image) image

/-- What holds of the state that a step ends with, or of the requests before an error. -/
def Ends (P : State → Prop) (Q : List Write → Prop) : Except Stop State → Prop
  | .ok s => P s
  | .error e => Q e.2

section Ends

variable {P R : State → Prop} {Q : List Write → Prop} {r : Except Stop State}

theorem Ends.bind {g : State → Except Stop State} (h : Ends P Q r)
    (hg : ∀ s, P s → Ends R Q (g s)) :
    Ends R Q (r.bind g) := by
  cases r with
  | error e => exact h
  | ok s => exact hg s h

theorem Ends.map {g : State → State} (h : Ends P Q r) (hg : ∀ s, P s → R (g s)) :
    Ends R Q (r.map g) := by
  cases r with
  | error e => exact h
  | ok s => exact hg s h

end Ends

variable {info hdr}

/-- Every request lies in the partition. -/
def AllInside (info : SparseStorage) (log : List Write) : Prop :=
  ∀ w ∈ log, info.start ≤ w.blk ∧ w.blk + w.blocks.length ≤ info.start + info.size

/-- More blocks than a chunk of 4 GiB has. -/
def chunkBlks : ℕ := 2 ^ 32 / blksz

/-- The requests so far lie in the partition, and each of `k` chunks moved the position by no more
than the blocks of a chunk. -/
structure Bounded (info : SparseStorage) (k blk : ℕ) (log : List Write) : Prop where
  lower : info.start ≤ blk
  upper : blk ≤ info.start + k * chunkBlks
  inside : AllInside info log

/-- A storage that never writes more than it is asked to, below block 2⁶³. -/
structure Honest (info : SparseStorage) : Prop where
  answer : ∀ w, info.write w ≤ w.blocks.length
  place : info.start + info.size < 2 ^ 63

section Bounded

variable {s : State} {ch : ChunkHeader} {log : List Write} {blk k n : ℕ}

theorem bounded_start (info : SparseStorage) : Bounded info 0 info.start [] :=
  ⟨le_rfl, Nat.le_add_right _ _, fun _ hw => absurd hw List.not_mem_nil⟩

theorem Bounded.succ (h : Bounded info k blk log) : Bounded info (k + 1) blk log := by
  refine ⟨h.lower, h.upper.trans ?_, h.inside⟩
  exact Nat.add_le_add_left (Nat.mul_le_mul_right _ (Nat.le_succ k)) _

theorem Bounded.advance (h : Bounded info k blk log) (hn : n < 2 ^ 32) {log' : List Write}
    (hlog : AllInside info log') : Bounded info (k + 1) (blk + n / blksz) log' := by
  have hblks : n / blksz ≤ chunkBlks := Nat.div_le_div_right hn.le
  refine ⟨h.lower.trans (Nat.le_add_right _ _), ?_, hlog⟩
  rw [Nat.succ_mul, ← Nat.add_assoc]
  exact Nat.add_le_add h.upper hblks

theorem crcChunk_bounded (h : Bounded info k s.blk s.log) :
    Ends (fun s' => Bounded info (k + 1) s'.blk s'.log) (AllInside info) (crcChunk hdr ch n s) := by
  unfold crcChunk
  split
  · exact h.inside
  · exact h.succ

variable (hi : Honest info)

include hi

theorem Bounded.no_wrap (h : Bounded info k blk log) (hk : k < 2 ^ 32) (hn : n < 2 ^ 32) :
    (blk + n / blksz) % 2 ^ 64 = blk + n / blksz := by
  have hupper := h.upper
  have hplace := hi.place
  have hblks : chunkBlks = 8388608 := by decide
  have hn' : n / blksz ≤ chunkBlks := Nat.div_le_div_right hn.le
  rw [hblks] at hupper hn'
  apply Nat.mod_eq_of_lt
  omega

theorem Bounded.fits (h : Bounded info k blk log) (hk : k < 2 ^ 32) (hn : n < 2 ^ 32)
    (he : ¬exceeds info blk (n / blksz)) : blk + n / blksz ≤ info.start + info.size := by
  have hplace := hi.place
  rw [exceeds, decide_eq_true_eq, Nat.not_lt, h.no_wrap hi hk hn] at he
  omega

theorem request_inside {blocks : List (List UInt8)} (hlo : info.start ≤ s.blk)
    (hlog : AllInside info s.log) (hend : s.blk + blocks.length ≤ info.start + info.size) :
    Ends (fun s' => s'.blk = s.blk + blocks.length ∧ AllInside info s'.log) (AllInside info)
      (request info ⟨s.blk, blocks⟩ s) := by
  have hall : AllInside info (s.log ++ [⟨s.blk, blocks⟩]) := by
    intro w hw
    rcases List.mem_append.mp hw with hw | hw
    · exact hlog w hw
    · rw [List.mem_singleton.mp hw]
      exact ⟨hlo, hend⟩
  have hans := hi.answer ⟨s.blk, blocks⟩
  have hplace := hi.place
  unfold request
  split
  · exact hall
  · refine ⟨?_, hall⟩
    dsimp only at *
    omega

theorem fillLoop_inside (block : List UInt8) {fuel rest : ℕ} (hlo : info.start ≤ s.blk)
    (hlog : AllInside info s.log) (hend : s.blk + rest ≤ info.start + info.size)
    (hfuel : rest ≤ fuel) :
    Ends (fun s' => s'.blk = s.blk + rest ∧ AllInside info s'.log) (AllInside info)
      (fillLoop info block fuel rest s) := by
  induction fuel generalizing rest s with
  | zero => exact ⟨by omega, hlog⟩
  | succ fuel ih =>
    unfold fillLoop
    split
    · exact ⟨by omega, hlog⟩
    · have hnum : fillBufNumBlks = 1024 := rfl
      dsimp only
      refine (request_inside hi hlo hlog (by rw [List.length_replicate]; omega)).bind ?_
      rintro s' ⟨hblk, hlog'⟩
      rw [List.length_replicate] at hblk
      have hrest := @ih s' (rest - min rest fillBufNumBlks) (by omega) hlog' (by omega) (by omega)
      rwa [hblk, Nat.add_assoc, Nat.add_sub_of_le (Nat.min_le_left _ _)] at hrest

theorem rawChunk_bounded (h : Bounded info k s.blk s.log) (hk : k < 2 ^ 32) (hn : n < 2 ^ 32) :
    Ends (fun s' => Bounded info (k + 1) s'.blk s'.log) (AllInside info)
      (rawChunk info hdr ch n s) := by
  unfold rawChunk
  split
  · exact h.inside
  · split
    · exact h.inside
    · next he =>
      have hend := h.fits hi hk hn he
      refine (request_inside hi h.lower h.inside (by simpa using hend)).map ?_
      rintro s' ⟨hblk, hlog⟩
      rw [List.length_map, List.length_range] at hblk
      change Bounded info (k + 1) s'.blk s'.log
      exact hblk ▸ h.advance hn hlog

theorem fillChunk_bounded (h : Bounded info k s.blk s.log) (hk : k < 2 ^ 32) (hn : n < 2 ^ 32) :
    Ends (fun s' => Bounded info (k + 1) s'.blk s'.log) (AllInside info)
      (fillChunk info hdr ch n s) := by
  unfold fillChunk
  dsimp only
  split
  · exact h.inside
  · split
    · change Bounded info (k + 1) ((s.blk + n / blksz) % 2 ^ 64) s.log
      rw [h.no_wrap hi hk hn]
      exact h.advance hn h.inside
    · split
      · exact h.inside
      · next he =>
        have hend := h.fits hi hk hn he
        refine (fillLoop_inside hi (s := { s with data := s.data.drop 4 }) _ h.lower h.inside hend
          le_rfl).map ?_
        rintro s' ⟨hblk, hlog⟩
        change Bounded info (k + 1) s'.blk s'.log
        exact hblk ▸ h.advance hn hlog

theorem chunkStep_bounded (h : Bounded info k s.blk s.log) (hk : k < 2 ^ 32) :
    Ends (fun s' => Bounded info (k + 1) s'.blk s'.log) (AllInside info)
      (chunkStep info hdr s) := by
  unfold chunkStep
  dsimp only
  generalize hsz : hdr.blkSz * (ChunkHeader.ofBytes s.data).chunkSz % 2 ^ 32 = n
  have hn : n < 2 ^ 32 := hsz ▸ Nat.mod_lt _ (Nat.two_pow_pos 32)
  split
  · exact rawChunk_bounded hi h hk hn
  split
  · exact fillChunk_bounded hi h hk hn
  split
  · change Bounded info (k + 1) ((s.blk + n / blksz) % 2 ^ 64) s.log
    rw [h.no_wrap hi hk hn]
    exact h.advance hn h.inside
  split
  · exact crcChunk_bounded h
  · exact h.inside

theorem chunkLoop_bounded (h : Bounded info k s.blk s.log) (hk : k + n ≤ 2 ^ 32) :
    Ends (fun s' => AllInside info s'.log) (AllInside info) (chunkLoop info hdr n s) := by
  induction n generalizing k s with
  | zero => exact h.inside
  | succ n ih => exact (chunkStep_bounded hi h (by omega)).bind fun s' hs' => ih hs' (by omega)

end Bounded

theorem finish_inside {r : Except Stop State}
    (h : Ends (fun s' => AllInside info s'.log) (AllInside info) r) :
    AllInside info (finish hdr r).2 := by
  cases r with
  | error e => exact h
  | ok s => exact h

theorem writeChunks_inside (hi : Honest info) (h : hdr.totalChunks ≤ 2 ^ 32) (image : List UInt8) :
    AllInside info (writeChunks info hdr image).2 := by
  unfold writeChunks
  split
  · exact (bounded_start info).inside
  · exact finish_inside (chunkLoop_bounded hi (bounded_start info) ((Nat.zero_add _).trans_le h))

/-- Whatever the image holds, every request lies in the partition. -/
theorem writeSparseImage_inside (hi : Honest info) (image : List UInt8) :
    AllInside info (writeSparseImage info image).2 :=
  writeChunks_inside hi (word image 20).toNat_lt.le image

end SynaBoot.SparseImage
