import SynaBoot.Overlay
import SynaBoot.SparseImage
import SynaBoot.VersionTable

namespace SynaBoot.SparseMeaning

open SynaBoot.FlashRecord SynaBoot.Overlay SynaBoot.SparseImage
open SynaBoot.VersionTable (word_flatMap)

/-- The kinds of chunks of an image without checksums. -/
inductive Body where
  | raw (bytes : List UInt8)
  | fill (fillVal : UInt32)
  | dontCare

/-- A chunk of `n` blocks of the image. -/
structure Chunk where
  n : ℕ
  body : Body

def Body.chunkType : Body → ℕ
  | .raw _ => chunkTypeRaw
  | .fill _ => chunkTypeFill
  | .dontCare => chunkTypeDontCare

def Body.payload : Body → List UInt8
  | .raw bytes => bytes
  | .fill fillVal => le32 fillVal
  | .dontCare => []

def Chunk.encode (c : Chunk) : List UInt8 :=
  [UInt32.ofNat c.body.chunkType, UInt32.ofNat c.n,
    UInt32.ofNat (sizeofChunkHeader + c.body.payload.length)].flatMap le32 ++ c.body.payload

/-- The image of chunks in blocks of `ratio` blocks of the eMMC. -/
def encode (ratio : ℕ) (cs : List Chunk) : List UInt8 :=
  [0xed26ff3a, 1, 0xc001c, UInt32.ofNat (blksz * ratio), UInt32.ofNat (cs.map Chunk.n).sum,
    UInt32.ofNat cs.length, 0].flatMap le32 ++ cs.flatMap Chunk.encode

/-- What the image says about its blocks, the ones to keep with `none`. -/
def Chunk.blocks (ratio : ℕ) (c : Chunk) : List (Option (List UInt8)) :=
  match c.body with
  | .raw bytes => (List.range (c.n * ratio)).map fun k => some (blockAt bytes k)
  | .fill fillVal => List.replicate (c.n * ratio) (some (fillBlock fillVal))
  | .dontCare => List.replicate (c.n * ratio) none

/-- The blocks that are written for it. -/
def Chunk.written (erased : UInt32) (ratio : ℕ) (c : Chunk) : List (Option (List UInt8)) :=
  match c.body with
  | .fill fillVal =>
    if fillVal = erased then List.replicate (c.n * ratio) none else c.blocks ratio
  | _ => c.blocks ratio

/-- The eMMC after requests that succeed. -/
def applied (log : List Write) (f : ℕ → List UInt8) : ℕ → List UInt8 :=
  log.foldl (fun f w => lay w.blk (w.blocks.map some) f) f

structure Chunk.Valid (ratio : ℕ) (c : Chunk) : Prop where
  small : sizeofChunkHeader + c.n * (blksz * ratio) < 2 ^ 32
  raw : ∀ bytes, c.body = .raw bytes → bytes.length = c.n * (blksz * ratio)

theorem applied_append (l r : List Write) (f : ℕ → List UInt8) :
    applied (l ++ r) f = applied r (applied l f) := by
  rw [applied, List.foldl_append]
  rfl

theorem length_blocks (ratio : ℕ) (c : Chunk) : (c.blocks ratio).length = c.n * ratio := by
  unfold Chunk.blocks
  split <;> simp

theorem length_written (erased : UInt32) (ratio : ℕ) (c : Chunk) :
    (c.written erased ratio).length = c.n * ratio := by
  unfold Chunk.written
  split
  · split
    · exact List.length_replicate
    · exact length_blocks ratio c
  · exact length_blocks ratio c

section Run

variable {info : SparseStorage} {hdr : SparseHeader} {s : State} {c : Chunk} {ratio : ℕ}
  (hwrite : ∀ w, info.write w = w.blocks.length) (hplace : info.start + info.size < 2 ^ 64)

include hwrite

theorem request_ok {blocks : List (List UInt8)} (h : s.blk + blocks.length < 2 ^ 64) :
    request info ⟨s.blk, blocks⟩ s =
      .ok { s with blk := s.blk + blocks.length, log := s.log ++ [⟨s.blk, blocks⟩] } := by
  rw [request, hwrite, if_neg (Nat.lt_irrefl _), Nat.mod_eq_of_lt h]

theorem fillLoop_ok (block : List UInt8) {fuel rest : ℕ} (h : s.blk + rest < 2 ^ 64)
    (hfuel : rest ≤ fuel) :
    ∃ ws, fillLoop info block fuel rest s =
        .ok { s with blk := s.blk + rest, log := s.log ++ ws } ∧
      ∀ f, applied ws f = lay s.blk (List.replicate rest (some block)) f := by
  induction fuel generalizing rest s with
  | zero =>
    obtain rfl : rest = 0 := by omega
    exact ⟨[], by simp [fillLoop], fun f => lay_nil.symm⟩
  | succ fuel ih =>
    by_cases hrest : rest = 0
    · subst hrest
      exact ⟨[], by simp [fillLoop], fun f => lay_nil.symm⟩
    · have hnum : fillBufNumBlks = 1024 := rfl
      set j := min rest fillBufNumBlks with hj
      have hreq := request_ok hwrite (show s.blk + (List.replicate j block).length < 2 ^ 64 by
        rw [List.length_replicate]; omega)
      rw [List.length_replicate] at hreq
      obtain ⟨ws, hloop, hws⟩ := @ih { s with
        blk := s.blk + j, log := s.log ++ [⟨s.blk, List.replicate j block⟩] } (rest - j)
        (by dsimp only; omega) (by omega)
      refine ⟨⟨s.blk, List.replicate j block⟩ :: ws, ?_, fun f => ?_⟩
      · rw [fillLoop, if_neg hrest]
        dsimp only
        rw [← hj, hreq]
        change fillLoop info block fuel (rest - j) _ = _
        rw [hloop]
        simp only [List.append_assoc, List.singleton_append, Nat.add_assoc]
        rw [Nat.add_sub_of_le (by omega)]
      · have hsplit : List.replicate rest (some block) =
            List.replicate j (some block) ++ List.replicate (rest - j) (some block) := by
          rw [List.replicate_append_replicate, Nat.add_sub_of_le (by omega)]
        rw [hsplit, lay_append, List.length_replicate, ← hws]
        change applied ws (lay s.blk ((List.replicate j block).map some) f) = _
        rw [List.map_replicate]

include hplace

theorem rawChunk_ok {ch : ChunkHeader} {N : ℕ} {bytes tail : List UInt8}
    (hhdr : hdr.chunkHdrSz = sizeofChunkHeader) (hdata : s.data = bytes ++ tail)
    (hlen : bytes.length = N * blksz) (hch : ch.totalSz = sizeofChunkHeader + N * blksz)
    (hsmall : sizeofChunkHeader + N * blksz < 2 ^ 32) (hend : s.blk + N ≤ info.start + info.size)
    (htotal : s.totalBlocks + ch.chunkSz < 2 ^ 32) :
    ∃ ws, rawChunk info hdr ch (N * blksz) s =
        .ok ⟨tail, s.blk + N, s.totalBlocks + ch.chunkSz, s.log ++ ws⟩ ∧
      ∀ f, applied ws f = lay s.blk ((List.range N).map fun k => some (blockAt bytes k)) f := by
  have hN : N * blksz / blksz = N := Nat.mul_div_cancel N (by decide)
  have hblocks : (List.range N).map (blockAt s.data) = (List.range N).map (blockAt bytes) := by
    apply List.map_congr_left
    intro k hk
    have hk' : (k + 1) * blksz ≤ bytes.length := by
      rw [hlen]
      exact Nat.mul_le_mul_right blksz (List.mem_range.mp hk)
    rw [Nat.succ_mul] at hk'
    rw [blockAt, blockAt, hdata, List.drop_append_of_le_length (by omega),
      List.take_append_of_le_length (by rw [List.length_drop]; omega)]
  have hexc : ¬exceeds info s.blk N = true := by
    rw [exceeds, decide_eq_true_eq]
    omega
  have hreq := request_ok hwrite (show s.blk + ((List.range N).map (blockAt bytes)).length < 2 ^ 64
    by rw [List.length_map, List.length_range]; omega)
  rw [List.length_map, List.length_range] at hreq
  refine ⟨[⟨s.blk, (List.range N).map (blockAt bytes)⟩], ?_, fun f => ?_⟩
  · rw [rawChunk, hhdr, hch, Nat.mod_eq_of_lt hsmall, if_neg (not_not_intro rfl), hN, if_neg hexc,
      hblocks, hreq]
    simp only [Except.map, addBlocks, hdata, Nat.mod_eq_of_lt htotal, List.drop_left' hlen]
  · change lay s.blk (((List.range N).map (blockAt bytes)).map some) f = _
    rw [List.map_map]
    rfl

theorem fillChunk_ok (ch : ChunkHeader) {N n : ℕ} {fillVal : UInt32} {tail : List UInt8}
    (hhdr : hdr.chunkHdrSz = sizeofChunkHeader) (hdata : s.data = le32 fillVal ++ tail)
    (hch : ch.totalSz = sizeofChunkHeader + 4) (hn : N * blksz / hdr.blkSz = n)
    (hend : s.blk + N ≤ info.start + info.size) (htotal : s.totalBlocks + n < 2 ^ 32) :
    ∃ ws, fillChunk info hdr ch (N * blksz) s =
        .ok ⟨tail, s.blk + N, s.totalBlocks + n, s.log ++ ws⟩ ∧
      ∀ f, applied ws f = lay s.blk (List.replicate N
        (if fillVal = info.erasedMemCont then none else some (fillBlock fillVal))) f := by
  have hN : N * blksz / blksz = N := Nat.mul_div_cancel N (by decide)
  have hexc : ¬exceeds info s.blk N = true := by
    rw [exceeds, decide_eq_true_eq]
    omega
  have hdrop : s.data.drop 4 = tail := by
    rw [hdata]
    exact List.drop_left' (length_le32 fillVal)
  have hval : word s.data 0 = fillVal := by rw [hdata, word_head]
  unfold fillChunk
  dsimp only
  rw [hhdr, hch, if_neg (not_not_intro rfl), hN, hval, hdrop, hn]
  by_cases herased : fillVal = info.erasedMemCont
  · refine ⟨[], ?_, fun f => ?_⟩
    · rw [if_pos herased, addBlocks, skipBlocks, List.append_nil]
      dsimp only
      rw [Nat.mod_eq_of_lt htotal, Nat.mod_eq_of_lt (by omega)]
    · rw [if_pos herased, lay_replicate_none]
      rfl
  · obtain ⟨ws, hloop, hws⟩ := fillLoop_ok hwrite (s := { s with data := tail })
      (fillBlock fillVal) (show s.blk + N < 2 ^ 64 by omega) le_rfl
    refine ⟨ws, ?_, fun f => ?_⟩
    · rw [if_neg herased, if_neg hexc, hloop]
      simp only [Except.map, addBlocks, Nat.mod_eq_of_lt htotal]
    · rw [if_neg herased]
      exact hws f

omit hwrite hplace in
theorem header_encode (hc : c.Valid ratio) (hratio : 0 < ratio) (tail : List UInt8) :
    ChunkHeader.ofBytes (c.encode ++ tail) =
      ⟨c.body.chunkType, c.n, sizeofChunkHeader + c.body.payload.length⟩ ∧
    (c.encode ++ tail).drop sizeofChunkHeader = c.body.payload ++ tail := by
  have hsmall := hc.small
  have hn : c.n < 2 ^ 32 := by
    have hpos : 0 < blksz * ratio := Nat.mul_pos (by decide) hratio
    have := Nat.le_mul_of_pos_right c.n hpos
    omega
  have hlen : sizeofChunkHeader + c.body.payload.length < 2 ^ 32 := by
    cases hbody : c.body with
    | raw bytes => rwa [Body.payload, hc.raw bytes hbody]
    | fill fillVal => exact (show 16 < 2 ^ 32 by decide)
    | dontCare => decide
  have htype : half (le32 (UInt32.ofNat c.body.chunkType)) 0 = c.body.chunkType := by
    cases c.body <;> (rw [Body.chunkType]; decide)
  rw [Chunk.encode, List.append_assoc]
  refine ⟨?_, List.drop_left' rfl⟩
  rw [ChunkHeader.ofBytes, word_flatMap _ _ (k := 1) (by simp), word_flatMap _ _ (k := 2) (by simp)]
  exact congr (congrArg₂ ChunkHeader.mk htype (UInt32.toNat_ofNat_of_lt' hn))
    (UInt32.toNat_ofNat_of_lt' hlen)

theorem chunkStep_ok {tail : List UInt8} (hhdr : hdr.chunkHdrSz = sizeofChunkHeader)
    (hblk : hdr.blkSz = blksz * ratio) (hratio : 0 < ratio) (hc : c.Valid ratio)
    (hdata : s.data = c.encode ++ tail) (hend : s.blk + c.n * ratio ≤ info.start + info.size)
    (htotal : s.totalBlocks + c.n < 2 ^ 32) :
    ∃ ws, chunkStep info hdr s =
        .ok ⟨tail, s.blk + c.n * ratio, s.totalBlocks + c.n, s.log ++ ws⟩ ∧
      ∀ f, applied ws f = lay s.blk (c.written info.erasedMemCont ratio) f := by
  obtain ⟨hch, hdrop⟩ := header_encode hc hratio tail
  have hsz : c.n * (blksz * ratio) = c.n * ratio * blksz := by ring
  have hsmall := hc.small
  rw [hsz] at hsmall
  have hmod : hdr.blkSz * c.n % 2 ^ 32 = c.n * ratio * blksz := by
    rw [hblk, Nat.mul_comm, hsz]
    exact Nat.mod_eq_of_lt (by omega)
  unfold chunkStep
  dsimp only
  rw [hdata, hch, hhdr, Nat.sub_self, Nat.add_zero, hdrop]
  dsimp only
  rw [hmod]
  cases hbody : c.body with
  | raw bytes =>
    have hlen := (hc.raw bytes hbody).trans hsz
    rw [Body.chunkType, if_pos rfl, Chunk.written, hbody, Chunk.blocks, hbody]
    exact rawChunk_ok hwrite hplace (s := { s with data := bytes ++ tail }) hhdr rfl hlen
      (congrArg (sizeofChunkHeader + ·) hlen) hsmall hend htotal
  | fill fillVal =>
    have hn : c.n * ratio * blksz / hdr.blkSz = c.n := by
      rw [hblk, ← hsz]
      exact Nat.mul_div_cancel c.n (Nat.mul_pos (by decide) hratio)
    obtain ⟨ws, hstep, hws⟩ := fillChunk_ok hwrite hplace
      ⟨chunkTypeFill, c.n, sizeofChunkHeader + 4⟩ (s := { s with data := le32 fillVal ++ tail })
      hhdr rfl rfl hn hend htotal
    rw [Body.chunkType, if_neg (by decide), if_pos rfl]
    refine ⟨ws, hstep, fun f => (hws f).trans ?_⟩
    rw [Chunk.written, hbody, Chunk.blocks, hbody]
    dsimp only
    split <;> rfl
  | dontCare =>
    refine ⟨[], ?_, fun f => ?_⟩
    · rw [Body.chunkType, if_neg (by decide), if_neg (by decide), if_pos rfl, addBlocks,
        skipBlocks, List.append_nil, Nat.mul_div_cancel _ (by decide)]
      dsimp only
      rw [Nat.mod_eq_of_lt htotal, Nat.mod_eq_of_lt (by omega)]
      rfl
    · rw [Chunk.written, hbody, Chunk.blocks, hbody]
      exact (lay_replicate_none _).symm

theorem chunkLoop_ok {cs : List Chunk} {tail : List UInt8}
    (hhdr : hdr.chunkHdrSz = sizeofChunkHeader)
    (hblk : hdr.blkSz = blksz * ratio) (hratio : 0 < ratio) (hvalid : ∀ c ∈ cs, c.Valid ratio)
    (hdata : s.data = cs.flatMap Chunk.encode ++ tail)
    (hend : s.blk + (cs.map Chunk.n).sum * ratio ≤ info.start + info.size)
    (htotal : s.totalBlocks + (cs.map Chunk.n).sum < 2 ^ 32) :
    ∃ ws, chunkLoop info hdr cs.length s = .ok ⟨tail, s.blk + (cs.map Chunk.n).sum * ratio,
        s.totalBlocks + (cs.map Chunk.n).sum, s.log ++ ws⟩ ∧
      ∀ f, applied ws f = lay s.blk (cs.flatMap (Chunk.written info.erasedMemCont ratio)) f := by
  induction cs generalizing s with
  | nil =>
    refine ⟨[], ?_, fun f => lay_nil.symm⟩
    rw [← (show s.data = tail from hdata), List.append_nil]
    simp [chunkLoop]
  | cons c cs ih =>
    rw [List.forall_mem_cons] at hvalid
    rw [List.flatMap_cons, List.append_assoc] at hdata
    rw [List.map_cons, List.sum_cons] at htotal hend ⊢
    rw [Nat.add_mul, ← Nat.add_assoc] at hend ⊢
    rw [← Nat.add_assoc] at htotal ⊢
    obtain ⟨ws, hstep, hws⟩ := chunkStep_ok hwrite hplace hhdr hblk hratio hvalid.1 hdata
      (by omega) (by omega)
    obtain ⟨vs, hloop, hvs⟩ := @ih ⟨cs.flatMap Chunk.encode ++ tail, s.blk + c.n * ratio,
      s.totalBlocks + c.n, s.log ++ ws⟩ hvalid.2 rfl hend htotal
    refine ⟨ws ++ vs, ?_, fun f => ?_⟩
    · rw [List.length_cons, chunkLoop, hstep, ← List.append_assoc]
      exact hloop
    · rw [applied_append, hvs, hws, List.flatMap_cons, lay_append, length_written]

end Run

/-- The blocks of the fill chunks that are not written already hold what the image has there. -/
def Blank (erased : UInt32) (ratio : ℕ) (f : ℕ → List UInt8) : ℕ → List Chunk → Prop
  | _, [] => True
  | pos, c :: cs => (c.body = .fill erased → ∀ k < c.n * ratio, f (pos + k) = fillBlock erased) ∧
      Blank erased ratio f (pos + c.n * ratio) cs

theorem lay_chunk_iff (erased : UInt32) (ratio : ℕ) (f : ℕ → List UInt8) (pos : ℕ) (c : Chunk) :
    lay pos (c.written erased ratio) f = lay pos (c.blocks ratio) f ↔
      (c.body = .fill erased → ∀ k < c.n * ratio, f (pos + k) = fillBlock erased) := by
  unfold Chunk.written
  split
  · next fillVal hbody =>
    rw [hbody, Body.fill.injEq]
    split
    · next herased =>
      rw [Chunk.blocks, hbody, herased, lay_replicate_eq_iff]
      exact ⟨fun h _ => h, fun h => h rfl⟩
    · next herased => exact iff_of_true rfl fun h => absurd h herased
  · next hbody => exact iff_of_true rfl fun h => absurd h (hbody erased)

theorem lay_written_iff (erased : UInt32) (ratio : ℕ) (f : ℕ → List UInt8) (pos : ℕ)
    (cs : List Chunk) :
    lay pos (cs.flatMap (Chunk.written erased ratio)) f =
        lay pos (cs.flatMap (Chunk.blocks ratio)) f ↔
      Blank erased ratio f pos cs := by
  induction cs generalizing pos with
  | nil => exact iff_of_true rfl trivial
  | cons c cs ih =>
    have hlen : (c.written erased ratio).length = (c.blocks ratio).length := by
      rw [length_written, length_blocks]
    rw [List.flatMap_cons, List.flatMap_cons, lay_append_eq_iff hlen, lay_chunk_iff, length_written,
      ih, Blank]

/-- An image in the format, without checksums, that the header can describe. -/
structure WellFormed (ratio : ℕ) (cs : List Chunk) : Prop where
  pos : 0 < ratio
  blkSz : blksz * ratio < 2 ^ 32
  valid : ∀ c ∈ cs, c.Valid ratio
  totalBlks : (cs.map Chunk.n).sum < 2 ^ 32
  totalChunks : cs.length < 2 ^ 32

def header (ratio : ℕ) (cs : List Chunk) : SparseHeader :=
  ⟨28, 12, blksz * ratio, (cs.map Chunk.n).sum, cs.length⟩

theorem header_image {ratio : ℕ} {cs : List Chunk} (h : WellFormed ratio cs) (rest : List UInt8) :
    isSparseImage (encode ratio cs ++ rest) = true ∧
    SparseHeader.ofBytes (encode ratio cs ++ rest) = header ratio cs ∧
    firstChunk (header ratio cs) (encode ratio cs ++ rest) = cs.flatMap Chunk.encode ++ rest := by
  rw [encode, List.append_assoc]
  refine ⟨?_, ?_, List.drop_left' rfl⟩
  · rw [isSparseImage, word_flatMap _ _ (k := 0) (by simp)]
    simp [half, le32]
  · rw [SparseHeader.ofBytes, word_flatMap _ _ (k := 3) (by simp),
      word_flatMap _ _ (k := 4) (by simp), word_flatMap _ _ (k := 5) (by simp)]
    simp only [header, half, List.getElem_cons_succ, List.getElem_cons_zero,
      UInt32.toNat_ofNat_of_lt' h.blkSz, UInt32.toNat_ofNat_of_lt' h.totalBlks,
      UInt32.toNat_ofNat_of_lt' h.totalChunks]
    simp [le32]

def fourBlocks : SparseStorage := ⟨8, 4, 0, fun w => w.blocks.length⟩

def threeChunks : List Chunk :=
  [⟨1, .raw (List.replicate 512 7)⟩, ⟨1, .fill 0⟩, ⟨2, .dontCare⟩]

end SynaBoot.SparseMeaning
