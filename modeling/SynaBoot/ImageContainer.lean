import Mathlib.Data.List.TakeWhile
import SynaBoot.Genimg

namespace SynaBoot.ImageContainer

open SynaBoot.FlashRecord SynaBoot.Genimg SynaBoot.Packing

structure Holds (a : Nat) (chunks : List (UInt32 × List UInt8)) (image : List UInt8) : Prop where
  found : ∀ i (hi : i < chunks.length), findChunk chunks[i].1 image = i
  dvd : ∀ i < chunks.length, a ∣ (offsetAt image i).toNat
  bytes : ∀ i (hi : i < chunks.length),
    (image.drop (offsetAt image i).toNat).take (sizeAt image i).toNat = chunks[i].2
  size : ∀ i (hi : i < chunks.length), (sizeAt image i).toNat = chunks[i].2.length
  behind : ∀ i < chunks.length, 64 + 32 * chunks.length ≤ (offsetAt image i).toNat
  disjoint : ∀ i j, i < j → j < chunks.length →
    (offsetAt image i).toNat + (sizeAt image i).toNat ≤ (offsetAt image j).toNat

def content (fs : Files) (path : Path) : List UInt8 := (fs path).getD []

def totalSize (fs : Files) (a : Nat) (paths : List Path) : Nat :=
  aligned a (64 + 32 * paths.length) + (paths.map fun p => aligned a (content fs p).length).sum

structure Clear (out header : Path) (paths : List Path) : Prop where
  notOut : ∀ p ∈ paths, p ≠ out
  notHeader : ∀ p ∈ paths, p ≠ header ∧ p ≠ header ++ dotFiller
  notFiller : ∀ p ∈ paths, ∀ q ∈ paths, p ≠ q ++ dotFiller
  fillerNotOut : ∀ p ∈ paths, p ++ dotFiller ≠ out

theorem Clear.tail {out header p : Path} {paths : List Path} (h : Clear out header (p :: paths)) :
    Clear out header paths where
  notOut := fun q hq => h.notOut q (List.mem_cons_of_mem p hq)
  notHeader := fun q hq => h.notHeader q (List.mem_cons_of_mem p hq)
  notFiller := fun q hq r hr =>
    h.notFiller q (List.mem_cons_of_mem p hq) r (List.mem_cons_of_mem p hr)
  fillerNotOut := fun q hq => h.fillerNotOut q (List.mem_cons_of_mem p hq)

section Ids

def Ascii (text : List UInt8) : Prop := text.length = 4 ∧ ∀ c ∈ text, c.toNat < 128

theorem toNat_charInt {c : UInt8} (h : c.toNat < 128) : (charInt c).toNat = c.toNat := by
  have hmsb : c.toBitVec.msb = false := by
    rw [BitVec.msb_eq_false_iff_two_mul_lt]
    change 2 * c.toNat < 2 ^ 8
    omega
  change (c.toBitVec.signExtend 32).toNat = c.toBitVec.toNat
  rw [BitVec.signExtend_eq_setWidth_of_msb_false hmsb, BitVec.toNat_setWidth]
  change c.toNat % 2 ^ 32 = c.toNat
  omega

theorem toNat_shift {c : UInt8} (h : c.toNat < 128) (k : UInt32) (n : Nat) (hk : k.toNat = n)
    (hn : n ≤ 24) : (charInt c <<< k).toNat = 2 ^ n * c.toNat := by
  have hle : 2 ^ n ≤ 2 ^ 24 := Nat.pow_le_pow_right (by decide) hn
  have hm : 2 ^ n * c.toNat ≤ 2 ^ 24 * 127 := Nat.mul_le_mul hle (by omega)
  rw [UInt32.toNat_shiftLeft, toNat_charInt h, hk, Nat.mod_eq_of_lt (by omega : n < 32),
    Nat.shiftLeft_eq, Nat.mul_comm]
  exact Nat.mod_eq_of_lt (by omega)

theorem toNat_chunkId {c0 c1 c2 c3 : UInt8} (h : Ascii [c0, c1, c2, c3]) :
    (chunkId [c0, c1, c2, c3]).toNat =
      2 ^ 24 * c3.toNat + 2 ^ 16 * c2.toNat + 2 ^ 8 * c1.toNat + c0.toNat := by
  have h0 := h.2 c0 (by simp)
  have h1 := h.2 c1 (by simp)
  have h2 := h.2 c2 (by simp)
  have h3 := h.2 c3 (by simp)
  change (charInt c3 <<< 24 ||| charInt c2 <<< 16 ||| charInt c1 <<< 8 ||| charInt c0).toNat = _
  rw [UInt32.toNat_or, UInt32.toNat_or, UInt32.toNat_or, toNat_shift h3 24 24 rfl (by decide),
    toNat_shift h2 16 16 rfl (by decide), toNat_shift h1 8 8 rfl (by decide), toNat_charInt h0]
  -- each character lies below the ones already joined
  rw [← Nat.two_pow_add_eq_or_of_lt (by omega : 2 ^ 16 * c2.toNat < 2 ^ 24)]
  rw [show 2 ^ 24 * c3.toNat + 2 ^ 16 * c2.toNat = 2 ^ 16 * (2 ^ 8 * c3.toNat + c2.toNat) by omega,
    ← Nat.two_pow_add_eq_or_of_lt (by omega : 2 ^ 8 * c1.toNat < 2 ^ 16)]
  rw [show 2 ^ 16 * (2 ^ 8 * c3.toNat + c2.toNat) + 2 ^ 8 * c1.toNat =
      2 ^ 8 * (2 ^ 16 * c3.toNat + 2 ^ 8 * c2.toNat + c1.toNat) by omega,
    ← Nat.two_pow_add_eq_or_of_lt (by omega : c0.toNat < 2 ^ 8)]

theorem chunkId_inj {s t : List UInt8} (hs : Ascii s) (ht : Ascii t) (h : chunkId s = chunkId t) :
    s = t := by
  obtain ⟨c0, c1, c2, c3, rfl⟩ := List.length_eq_four.mp hs.1
  obtain ⟨d0, d1, d2, d3, rfl⟩ := List.length_eq_four.mp ht.1
  have he := congrArg UInt32.toNat h
  rw [toNat_chunkId hs, toNat_chunkId ht] at he
  have c (x : UInt8) : x.toNat < 256 := x.toNat_lt
  have := c c0; have := c c1; have := c c2; have := c c3
  have := c d0; have := c d1; have := c d2; have := c d3
  rw [UInt8.toNat_inj.mp (by omega : c0.toNat = d0.toNat),
    UInt8.toNat_inj.mp (by omega : c1.toNat = d1.toNat),
    UInt8.toNat_inj.mp (by omega : c2.toNat = d2.toNat),
    UInt8.toNat_inj.mp (by omega : c3.toNat = d3.toNat)]

end Ids

section Header

variable (env : Env) (args : Args)

theorem length_toBytes (c : ChunkParam) : c.toBytes.length = 32 := by
  simp [ChunkParam.toBytes, length_le32]

theorem length_params (ps : List ChunkParam) :
    (ps.flatMap ChunkParam.toBytes).length = 32 * ps.length := by
  induction ps with
  | nil => rfl
  | cons c ps ih =>
    rw [List.flatMap_cons, List.length_append, length_toBytes, ih, List.length_cons]
    omega

theorem length_imageNameField (name : List UInt8) : (imageNameField name).length = 32 := by
  simp [imageNameField]

theorem length_fixedHeader (n : Nat) : (fixedHeader env args n).length = 64 := by
  simp [fixedHeader, length_le32, length_imageNameField]

theorem chunkNum_header (n : Nat) (rest : List UInt8) :
    chunkNum (fixedHeader env args n ++ rest) = UInt32.ofNat n := by
  unfold chunkNum fixedHeader
  rw [List.append_assoc]
  exact word_le32 _ (by simp [length_le32, length_imageNameField]) rfl

theorem word_params (ps : List ChunkParam) (rest : List UInt8) (i k : Nat) (hi : i < ps.length) :
    ∃ behind, word (ps.flatMap ChunkParam.toBytes ++ rest) (32 * i + k) =
      word (ps[i].toBytes ++ behind) k := by
  induction ps generalizing i with
  | nil => exact absurd hi (Nat.not_lt_zero i)
  | cons c ps ih =>
    rw [List.flatMap_cons, List.append_assoc]
    cases i with
    | zero => exact ⟨ps.flatMap ChunkParam.toBytes ++ rest, by simp⟩
    | succ i =>
      have hl := length_toBytes c
      rw [word_append (by omega), hl, show 32 * (i + 1) + k - 32 = 32 * i + k by omega]
      exact ih i (Nat.lt_of_succ_lt_succ hi)

variable (n : Nat) {ps : List ChunkParam} (rest : List UInt8) {i : Nat}

theorem word_image (hi : i < ps.length) (k : Nat) : ∃ behind,
    word (fixedHeader env args n ++ (ps.flatMap ChunkParam.toBytes ++ rest)) (64 + (32 * i + k)) =
      word (ps[i].toBytes ++ behind) k := by
  have hl := length_fixedHeader env args n
  rw [word_append (by omega), hl, Nat.add_sub_cancel_left]
  exact word_params ps rest i k hi

theorem chunkIdAt_image (hi : i < ps.length) :
    chunkIdAt (fixedHeader env args n ++ (ps.flatMap ChunkParam.toBytes ++ rest)) i = ps[i].id := by
  obtain ⟨behind, h⟩ := word_image env args n rest hi 0
  rw [chunkIdAt, h]
  simp [ChunkParam.toBytes, word_head]

theorem offsetAt_image (hi : i < ps.length) :
    offsetAt (fixedHeader env args n ++ (ps.flatMap ChunkParam.toBytes ++ rest)) i =
      ps[i].offset := by
  obtain ⟨behind, h⟩ := word_image env args n rest hi 4
  rw [offsetAt, h]
  simp [ChunkParam.toBytes, word_tail, word_head]

theorem sizeAt_image (hi : i < ps.length) :
    sizeAt (fixedHeader env args n ++ (ps.flatMap ChunkParam.toBytes ++ rest)) i = ps[i].size := by
  obtain ⟨behind, h⟩ := word_image env args n rest hi 8
  rw [sizeAt, h]
  simp [ChunkParam.toBytes, word_tail, word_head]

end Header

section Params

variable (fs : Files) (a : UInt32)

def pieces (o : UInt32) (rs : List ChunkRecord) : List (Nat × List UInt8) :=
  List.zipWith (fun c r => (c.offset.toNat, content fs r.pathName)) (chunkParams fs a o rs) rs

def imageOf (env : Env) (args : Args) (o : UInt32) (rs : List ChunkRecord) (rest : List UInt8) :
    List UInt8 :=
  fixedHeader env args rs.length ++ ((chunkParams fs a o rs).flatMap ChunkParam.toBytes ++ rest)

theorem ids_chunkParams (o : UInt32) (rs : List ChunkRecord) :
    (chunkParams fs a o rs).map (·.id) = rs.map (·.id) := by
  induction rs generalizing o with
  | nil => rfl
  | cons r rs ih => simp only [chunkParams, List.map_cons, ih]

theorem sizes_chunkParams (o : UInt32) (rs : List ChunkRecord) :
    (chunkParams fs a o rs).map (·.size) =
      rs.map (fun r => UInt32.ofInt (getFileSize fs r.pathName)) := by
  induction rs generalizing o with
  | nil => rfl
  | cons r rs ih => simp only [chunkParams, List.map_cons, ih]

theorem length_chunkParams (o : UInt32) (rs : List ChunkRecord) :
    (chunkParams fs a o rs).length = rs.length := by
  simpa using congrArg List.length (ids_chunkParams fs a o rs)

variable {fs}

theorem eq_content {path : Path} (h : (fs path).isSome) : fs path = some (content fs path) := by
  obtain ⟨bytes, hb⟩ := Option.isSome_iff_exists.mp h
  rw [content, hb, Option.getD_some]

theorem toNat_fileSize {path : Path} (h : (fs path).isSome)
    (hl : (content fs path).length < 2 ^ 32) :
    (UInt32.ofInt (getFileSize fs path)).toNat = (content fs path).length := by
  have hsize : getFileSize fs path = (content fs path).length := by
    rw [getFileSize, eq_content h]
  have hmod : (((content fs path).length : Int) % 2 ^ 32).toNat = (content fs path).length := by
    omega
  rw [hsize, UInt32.ofInt, hmod, UInt32.toNat_ofNat_of_lt' hl]

end Params

theorem appendChunks_packed (env : Env) {a : UInt32} (ha : 0 < a.toNat) (ha31 : a.toNat ≤ 2 ^ 31)
    {out header : Path} {fs₀ : Files} (rs : List ChunkRecord) (k : Nat) (fs : Files) (o : UInt32)
    (image : List UInt8) (hclear : Clear out header (rs.map (·.pathName)))
    (hfiles : ∀ r ∈ rs, (fs₀ r.pathName).isSome ∧ fs r.pathName = fs₀ r.pathName)
    (ho : a.toNat ≤ o.toNat)
    (hfit : o.toNat + (rs.map fun r => aligned a.toNat (content fs₀ r.pathName).length).sum < 2 ^ 32)
    (hout : fs out = some image) :
    ∃ data, appendChunks env a out k fs (rs.zip (chunkParams fs₀ a o rs)) out =
        some (image ++ data) ∧ Packed a.toNat o.toNat (pieces fs₀ a o rs) data := by
  induction rs generalizing k fs o image with
  | nil => exact ⟨[], by rw [List.append_nil]; exact hout, Packed.nil _⟩
  | cons r rs ih =>
    rw [List.map_cons] at hclear
    rw [List.map_cons, List.sum_cons] at hfit
    obtain ⟨hsome, hsame⟩ := hfiles r (by simp)
    have hle := le_aligned ha (content fs₀ r.pathName).length
    have hsize := toNat_fileSize hsome (by omega)
    have hread : fs r.pathName = some (content fs₀ r.pathName) := hsame.trans (eq_content hsome)
    have hal := toNat_getAligned ha
      (by rw [hsize]; omega : (UInt32.ofInt (getFileSize fs₀ r.pathName)).toNat + a.toNat ≤ 2 ^ 32)
    rw [hsize] at hal
    obtain ⟨filler, hl, hplace, hother⟩ := place_spec redirects_catAppend env ha ha31 k hread hsize
      (by omega) (hclear.notOut _ (by simp)) (hclear.fillerNotOut _ (by simp))
    rw [hout, Option.getD_some] at hplace
    have hnext : (o + getAligned (UInt32.ofInt (getFileSize fs₀ r.pathName)) a).toNat =
        o.toNat + aligned a.toNat (content fs₀ r.pathName).length := by
      rw [UInt32.toNat_add, hal]
      exact Nat.mod_eq_of_lt (by omega)
    have hrest : ∀ q ∈ rs, (fs₀ q.pathName).isSome ∧
        place catAppend env a out k fs r.pathName (UInt32.ofInt (getFileSize fs₀ r.pathName))
          q.pathName = fs₀ q.pathName := by
      intro q hq
      have hm : q.pathName ∈ r.pathName :: rs.map (·.pathName) :=
        List.mem_cons_of_mem _ (List.mem_map_of_mem hq)
      obtain ⟨hqs, hqf⟩ := hfiles q (by simp [hq])
      refine ⟨hqs, ?_⟩
      rw [hother _ (hclear.notOut _ hm) (hclear.notFiller _ hm _ (by simp)), hqf]
    obtain ⟨data, hdata, hpacked⟩ := ih (k + 1) _ _ _
      hclear.tail hrest (by rw [hnext]; omega) (by rw [hnext]; omega) hplace
    refine ⟨content fs₀ r.pathName ++ filler ++ data, ?_, ?_⟩
    · rw [← List.append_assoc]
      exact hdata
    · rw [hnext] at hpacked
      exact Packed.cons (content fs₀ r.pathName) filler hl hpacked

section Names

theorem slash_not_mem_baseName (path : Path) : '/' ∉ baseName path := by
  intro h
  have hm := List.mem_takeWhile_imp (List.mem_reverse.mp h)
  simp at hm

theorem baseName_eq_self {path : Path} (h : '/' ∉ path) : baseName path = path := by
  have hall : path.reverse.takeWhile (· ≠ '/') = path.reverse := by
    apply List.takeWhile_eq_self_iff.mpr
    intro c hc
    exact decide_eq_true (ne_of_mem_of_not_mem (List.mem_reverse.mp hc) h)
  rw [baseName, hall, List.reverse_reverse]

theorem baseName_append_ne (path : Path) {ext : Path} (hne : ext ≠ []) (hext : '/' ∉ ext) :
    baseName path ++ ext ≠ path := by
  intro h
  have hslash : '/' ∉ baseName path ++ ext := by
    rw [List.mem_append, not_or]
    exact ⟨slash_not_mem_baseName path, hext⟩
  have hb := congrArg baseName h
  rw [baseName_eq_self hslash] at hb
  exact hne (List.append_right_eq_self.mp hb)

theorem imgHeaderName_ne {args : Args} (hsep : args.seperate = none) :
    args.imgHeaderName ≠ args.outPathName ∧
      args.imgHeaderName ++ dotFiller ≠ args.outPathName := by
  have hname : args.imgHeaderName = baseName args.outPathName ++ dotHeader := by
    rw [Args.imgHeaderName, hsep]
  rw [hname, List.append_assoc]
  exact ⟨baseName_append_ne _ (by decide) (by decide), baseName_append_ne _ (by decide) (by decide)⟩

end Names

theorem toNat_imageHeaderSize {n : Nat} (h : n ≤ 60) : (imageHeaderSize n).toNat = 64 + 32 * n := by
  rw [imageHeaderSize, UInt32.toNat_ofNat_of_lt' (by simp only [UInt32.size]; omega)]
  omega

variable (env : Env) (args : Args) (rs : List ChunkRecord) (fs : Files)

theorem genimg_image (hsep : args.seperate = none) (hpos : 0 < args.alignSize.toNat)
    (hmax : args.alignSize.toNat ≤ 2 ^ 31) (hnum : rs.length ≤ 60)
    (hclear : Clear args.outPathName args.imgHeaderName (rs.map (·.pathName)))
    (hfiles : ∀ r ∈ rs, (fs r.pathName).isSome)
    (htotal : totalSize fs args.alignSize.toNat (rs.map (·.pathName)) < 2 ^ 32) :
    ∃ o filler data, o.toNat = aligned args.alignSize.toNat (64 + 32 * rs.length) ∧
      genimg env args rs fs args.outPathName =
        some (imageOf fs args.alignSize env args o rs filler ++ data) ∧
      (imageOf fs args.alignSize env args o rs filler).length = o.toNat ∧
      Packed args.alignSize.toNat o.toNat (pieces fs args.alignSize o rs) data := by
  have hn := toNat_imageHeaderSize hnum
  have hal := toNat_getAligned hpos
    (by rw [hn]; omega : (imageHeaderSize rs.length).toNat + args.alignSize.toNat ≤ 2 ^ 32)
  rw [hn] at hal
  obtain ⟨hout, hfillerOut⟩ := imgHeaderName_ne hsep
  generalize ho : getAligned (imageHeaderSize rs.length) args.alignSize = o at hal
  have hfirst : firstOffset args rs.length = o := by
    rw [firstOffset, hsep]
    exact ho
  generalize hh : fixedHeader env args rs.length ++
    (chunkParams fs args.alignSize o rs).flatMap ChunkParam.toBytes = header
  have hlen : header.length = 64 + 32 * rs.length := by
    rw [← hh, List.length_append, length_fixedHeader, length_params, length_chunkParams]
  -- the header and its filler
  obtain ⟨filler, hl, hplace, hother⟩ := place_spec redirects_catTo env hpos hmax 0
    (write_self fs args.imgHeaderName header) (hn.trans hlen.symm) (by rw [hn]; omega) hout
    hfillerOut
  rw [List.nil_append] at hplace
  -- the chunks behind it
  have hkept : ∀ r ∈ rs, (fs r.pathName).isSome ∧
      place catTo env args.alignSize args.outPathName 0 (write fs args.imgHeaderName header)
        args.imgHeaderName (imageHeaderSize rs.length) r.pathName = fs r.pathName := by
    intro r hr
    have hm : r.pathName ∈ rs.map (·.pathName) := List.mem_map_of_mem hr
    obtain ⟨hh, hf⟩ := hclear.notHeader _ hm
    exact ⟨hfiles r hr, by rw [hother _ (hclear.notOut _ hm) hf, write_ne hh]⟩
  have hle := self_le_aligned hpos (by omega : 0 < 64 + 32 * rs.length)
  rw [totalSize, List.length_map, List.map_map] at htotal
  obtain ⟨data, hdata, hpacked⟩ := appendChunks_packed env hpos hmax rs 1 _ o _ hclear hkept
    (by rw [hal]; exact hle) (by rw [hal]; exact htotal) hplace
  refine ⟨o, filler, data, hal, ?_, ?_, hpacked⟩
  · unfold genimg
    rw [hfirst, hh, hsep, if_pos (by rfl), hdata, imageOf, ← List.append_assoc _ _ filler, hh]
  · rw [imageOf, ← List.append_assoc, hh, hl, hlen, hal]

theorem findChunk_eq {image : List UInt8} {id : UInt32} {n i : Nat} (hn : n ≤ 60)
    (hnum : chunkNum image = UInt32.ofNat n) (hi : i < n) (hid : id = chunkIdAt image i)
    (hfirst : ∀ j < i, id ≠ chunkIdAt image j) : findChunk id image = i := by
  have hnat : (chunkNum image).toNat = n := by
    rw [hnum, UInt32.toNat_ofNat_of_lt' (by simp only [UInt32.size]; omega)]
  have hlt : chunkNum image < maxImageChunkEntry := by
    rw [UInt32.lt_iff_toNat_lt, hnat]
    change n < 128
    omega
  have hfind : (List.range n).find? (fun j => id = chunkIdAt image j) = some i := by
    rw [List.find?_range_eq_some]
    refine ⟨decide_eq_true hid, List.mem_range.mpr hi, fun j hj => ?_⟩
    simpa using hfirst j hj
  rw [findChunk, if_pos hlt, hnat, hfind]

section Reading

variable {env args rs fs} {a o : UInt32} {i : Nat}

theorem imageOf_append (front data : List UInt8) :
    imageOf fs a env args o rs front ++ data = imageOf fs a env args o rs (front ++ data) := by
  simp only [imageOf, List.append_assoc]

theorem chunkIdAt_imageOf (rest : List UInt8) (hi : i < rs.length) :
    chunkIdAt (imageOf fs a env args o rs rest) i = rs[i].id := by
  have hl := length_chunkParams fs a o rs
  have hid := List.getElem_of_eq (ids_chunkParams fs a o rs) (i := i) (by simpa using hl ▸ hi)
  rw [imageOf, chunkIdAt_image env args _ rest (hl.symm ▸ hi)]
  simpa only [List.getElem_map] using hid

theorem sizeAt_imageOf (rest : List UInt8) (hi : i < rs.length)
    (hfile : (fs rs[i].pathName).isSome) (hlt : (content fs rs[i].pathName).length < 2 ^ 32) :
    (sizeAt (imageOf fs a env args o rs rest) i).toNat = (content fs rs[i].pathName).length := by
  have hl := length_chunkParams fs a o rs
  have hsize := List.getElem_of_eq (sizes_chunkParams fs a o rs) (i := i) (by simpa using hl ▸ hi)
  simp only [List.getElem_map] at hsize
  rw [imageOf, sizeAt_image env args _ rest (hl.symm ▸ hi), hsize, toNat_fileSize hfile hlt]

theorem getElem_pieces (rest : List UInt8) (hi : i < rs.length)
    (hp : i < (pieces fs a o rs).length) : (pieces fs a o rs)[i] =
      ((offsetAt (imageOf fs a env args o rs rest) i).toNat, content fs rs[i].pathName) := by
  have hl := length_chunkParams fs a o rs
  rw [imageOf, offsetAt_image env args _ rest (hl.symm ▸ hi)]
  simp only [pieces, List.getElem_zipWith]

theorem length_pieces : (pieces fs a o rs).length = rs.length := by
  rw [pieces, List.length_zipWith, length_chunkParams, Nat.min_self]

theorem holds_of_packed {filler data : List UInt8} (ha : 0 < a.toNat) (hnum : rs.length ≤ 60)
    (hids : (rs.map (·.id)).Nodup) (hfiles : ∀ r ∈ rs, (fs r.pathName).isSome)
    (hsmall : ∀ r ∈ rs, (content fs r.pathName).length < 2 ^ 32) (hdvd : a.toNat ∣ o.toNat)
    (hle : 64 + 32 * rs.length ≤ o.toNat)
    (hfront : (imageOf fs a env args o rs filler).length = o.toNat)
    (hpacked : Packed a.toNat o.toNat (pieces fs a o rs) data) :
    Holds a.toNat (rs.map fun r => (r.id, content fs r.pathName))
      (imageOf fs a env args o rs filler ++ data) := by
  have hpiece {i : Nat} (hi : i < rs.length) :
      ((offsetAt (imageOf fs a env args o rs (filler ++ data)) i).toNat,
        content fs rs[i].pathName) ∈ pieces fs a o rs := by
    rw [← getElem_pieces (filler ++ data) hi (length_pieces.symm ▸ hi)]
    exact List.getElem_mem _
  have hsize {i : Nat} (hi : i < rs.length) :
      (sizeAt (imageOf fs a env args o rs (filler ++ data)) i).toNat =
        (content fs rs[i].pathName).length :=
    sizeAt_imageOf _ hi (hfiles _ (List.getElem_mem hi)) (hsmall _ (List.getElem_mem hi))
  have hbytes {i : Nat} (hi : i < rs.length) := hpacked.piece_at _ hfront _ (hpiece hi)
  rw [imageOf_append] at hbytes ⊢
  constructor
  case found =>
    intro i hi
    rw [List.length_map] at hi
    rw [List.getElem_map]
    refine findChunk_eq hnum (chunkNum_header env args _ _) hi
      (chunkIdAt_imageOf _ hi).symm fun j hj he => ?_
    rw [chunkIdAt_imageOf _ (hj.trans hi)] at he
    have hne := List.pairwise_iff_getElem.mp hids j i (by simpa using hj.trans hi)
      (by simpa using hi) hj
    exact hne (by simpa using he.symm)
  case dvd =>
    intro i hi
    rw [List.length_map] at hi
    have hoffset := hpacked.dvd hdvd _ (hpiece hi)
    exact hoffset
  case bytes =>
    intro i hi
    rw [List.length_map] at hi
    rw [List.getElem_map, hsize hi]
    exact hbytes hi
  case size =>
    intro i hi
    rw [List.length_map] at hi
    rw [List.getElem_map]
    exact hsize hi
  case behind =>
    intro i hi
    rw [List.length_map] at hi ⊢
    have hstart := hpacked.start_le _ (hpiece hi)
    exact hle.trans hstart
  case disjoint =>
    intro i j hij hj
    rw [List.length_map] at hj
    have hpair := List.pairwise_iff_getElem.mp (hpacked.pairwise ha) i j
      (length_pieces.symm ▸ hij.trans hj) (length_pieces.symm ▸ hj) hij
    rw [getElem_pieces (filler ++ data) (hij.trans hj), getElem_pieces (filler ++ data) hj] at hpair
    rw [hsize (hij.trans hj)]
    exact hpair

end Reading

theorem length_le_totalSize {a : Nat} (ha : 0 < a) (fs : Files) {paths : List Path} {p : Path}
    (hp : p ∈ paths) : (content fs p).length ≤ totalSize fs a paths := by
  have hle := List.single_le_sum (l := paths.map fun p => aligned a (content fs p).length)
    (fun _ _ => Nat.zero_le _) _ (List.mem_map_of_mem hp)
  exact (le_aligned ha _).trans (hle.trans (Nat.le_add_left _ _))

/-- The loader finds each chunk by its id, at a multiple of the alignment, apart from the others,
with exactly the bytes of its file. -/
theorem image_round_trip (env : Env) (args : Args) (cs : List ChunkOptions) (fs : Files)
    (hsep : args.seperate = none) (hpos : 0 < args.alignSize.toNat)
    (hmax : args.alignSize.toNat ≤ 2 ^ 31) (hnum : cs.length ≤ 60)
    (hascii : ∀ c ∈ cs, Ascii c.id) (hids : (cs.map (·.id)).Nodup)
    (hclear : Clear args.outPathName args.imgHeaderName (cs.map (·.data)))
    (hfiles : ∀ c ∈ cs, (fs c.data).isSome)
    (htotal : totalSize fs args.alignSize.toNat (cs.map (·.data)) < 2 ^ 32) :
    ∃ image, genimg env args (cs.map ChunkOptions.record) fs args.outPathName = some image ∧
      Holds args.alignSize.toNat (cs.map fun c => (chunkId c.id, content fs c.data)) image := by
  have hpaths : (cs.map ChunkOptions.record).map (·.pathName) = cs.map (·.data) := by
    rw [List.map_map]
    rfl
  have hn : (cs.map ChunkOptions.record).length ≤ 60 := by rw [List.length_map]; exact hnum
  have hfs : ∀ r ∈ cs.map ChunkOptions.record, (fs r.pathName).isSome := by
    intro r hr
    obtain ⟨c, hc, rfl⟩ := List.mem_map.mp hr
    exact hfiles c hc
  have hsmall : ∀ r ∈ cs.map ChunkOptions.record, (content fs r.pathName).length < 2 ^ 32 := by
    intro r hr
    have hm : r.pathName ∈ cs.map (·.data) := hpaths ▸ List.mem_map_of_mem hr
    exact (length_le_totalSize hpos fs hm).trans_lt htotal
  have hnodup : ((cs.map ChunkOptions.record).map (·.id)).Nodup := by
    rw [List.map_map]
    refine List.Nodup.map_on (fun c hc d hd h => ?_) hids.of_map
    exact List.inj_on_of_nodup_map hids hc hd (chunkId_inj (hascii c hc) (hascii d hd) h)
  obtain ⟨o, filler, data, ho, himage, hfront, hpacked⟩ := genimg_image env args
    (cs.map ChunkOptions.record) fs hsep hpos hmax hn (hpaths.symm ▸ hclear) hfs
    (hpaths.symm ▸ htotal)
  have hholds := holds_of_packed hpos hn hnodup hfs hsmall (ho ▸ dvd_aligned _ _)
    (ho ▸ le_aligned hpos _) hfront hpacked
  rw [List.map_map] at hholds
  exact ⟨_, himage, hholds⟩

def zeroEnv : Env := ⟨fun _ n => ⟨List.replicate n 0, List.length_replicate⟩, 0, 0, 0⟩
def twoArgs : Args := ⟨[105], ['d', '/', 'o'], 16, 0, 0, none⟩
def twoChunks : List ChunkOptions :=
  [⟨[68, 68, 82, 49], ['a'], 0, 0, 0, 0⟩, ⟨[68, 68, 82, 50], ['b'], 0, 0, 0, 0⟩]
def twoFiles : Files := fun p =>
  if p = ['a'] then some [1, 2, 3] else if p = ['b'] then some [4] else none

theorem image_round_trip_two : ∃ image,
    genimg zeroEnv twoArgs (twoChunks.map ChunkOptions.record) twoFiles ['d', '/', 'o'] =
      some image ∧
    Holds 16 [(chunkId [68, 68, 82, 49], [1, 2, 3]), (chunkId [68, 68, 82, 50], [4])] image :=
  image_round_trip zeroEnv twoArgs twoChunks twoFiles rfl (by decide) (by decide) (by decide)
    (by simp [twoChunks, Ascii]) (by decide) ⟨by decide, by decide, by decide, by decide⟩
    (by decide) (by decide)

end SynaBoot.ImageContainer
