import SynaBoot.FlashRecord
import SynaBoot.Packing

namespace SynaBoot.Genimg

open SynaBoot.FlashRecord SynaBoot.Packing

abbrev Path := List Char
abbrev Files := Path → Option (List UInt8)

def write (fs : Files) (path : Path) (bytes : List UInt8) : Files :=
  Function.update fs path (some bytes)

def cat (fs : Files) (paths : List Path) : List UInt8 := paths.flatMap fun p => (fs p).getD []

def catTo (fs : Files) (paths : List Path) (out : Path) : Files :=
  let fs := write fs out []
  write fs out (cat fs paths)

def catAppend (fs : Files) (paths : List Path) (out : Path) : Files :=
  write fs out ((fs out).getD [] ++ cat fs paths)

/-- The random bytes of `dd`, and the header words that `malloc` leaves. -/
structure Env where
  urandom : Nat → (n : Nat) → Bytes n
  headerReserved : UInt32
  reserved0 : UInt32
  reserved1 : UInt32

/-- It refuses a negative count. -/
def dd (env : Env) (k : Nat) (fs : Files) (path : Path) (count : Int) : Files :=
  if count < 0 then fs else write fs path (env.urandom k count.toNat).1

def getAligned (address pageSize : UInt32) : UInt32 :=
  (address + pageSize - 1) / pageSize * pageSize

structure ChunkRecord where
  id : UInt32
  pathName : Path
  destStart : UInt64
  destSize : UInt32
  attr0 : UInt32
  attr1 : UInt32

structure ChunkParam where
  id : UInt32
  offset : UInt32
  size : UInt32
  attr0 : UInt32
  destStart : UInt64
  destSize : UInt32
  attr1 : UInt32

def ChunkParam.toBytes (c : ChunkParam) : List UInt8 :=
  le32 c.id ++ le32 c.offset ++ le32 c.size ++ le32 c.attr0 ++ le32 c.destStart.toUInt32 ++
    le32 (c.destStart >>> 32).toUInt32 ++ le32 c.destSize ++ le32 c.attr1

def charInt (c : UInt8) : UInt32 := c.toInt8.toInt32.toUInt32

def chunkId (optarg : List UInt8) : UInt32 :=
  charInt (optarg.getD 3 0) <<< 24 ||| charInt (optarg.getD 2 0) <<< 16 |||
    charInt (optarg.getD 1 0) <<< 8 ||| charInt (optarg.getD 0 0)

structure ChunkOptions where
  id : List UInt8
  data : Path
  addr : UInt64
  size : UInt32
  attr0 : UInt32
  attr1 : UInt32

def ChunkOptions.record (c : ChunkOptions) : ChunkRecord :=
  ⟨chunkId c.id, c.data, c.addr, c.size, c.attr0, c.attr1⟩

structure Args where
  imageName : List UInt8
  outPathName : Path
  alignSize : UInt32
  hVer : UInt32
  iVer : UInt32
  seperate : Option (Path × UInt32)

def baseName (path : Path) : Path := (path.reverse.takeWhile (· ≠ '/')).reverse

def dotHeader : Path := ['.', 'h', 'e', 'a', 'd', 'e', 'r']
def dotFiller : Path := ['.', 'f', 'i', 'l', 'l', 'e', 'r']

def Args.imgHeaderName (args : Args) : Path :=
  match args.seperate with
  | some (name, _) => name
  | none => baseName args.outPathName ++ dotHeader

def getFileSize (fs : Files) (path : Path) : Int :=
  match fs path with
  | none => -1
  | some bytes => bytes.length

def imageHeaderSize (idNum : Nat) : UInt32 := UInt32.ofNat (64 + idNum * 32)

def firstOffset (args : Args) (idNum : Nat) : UInt32 :=
  match args.seperate with
  | some (_, headerSize) =>
    let headerSize := if headerSize = 0 then imageHeaderSize idNum else headerSize
    getAligned (imageHeaderSize idNum) (getAligned headerSize args.alignSize)
  | none => getAligned (imageHeaderSize idNum) args.alignSize

/-- Each chunk starts behind the aligned previous one. -/
def chunkParams (fs : Files) (alignSize : UInt32) : UInt32 → List ChunkRecord → List ChunkParam
  | _, [] => []
  | offset, r :: rs =>
    let size := UInt32.ofInt (getFileSize fs r.pathName)
    ⟨r.id, offset, size, r.attr0, r.destStart, r.destSize, r.attr1⟩ ::
      chunkParams fs alignSize (offset + getAligned size alignSize) rs

def imageNameField (name : List UInt8) : List UInt8 := (name ++ List.replicate 31 0).take 31 ++ [0]

/-- The 64 bytes of `struct image_header` in front of the chunks. -/
def fixedHeader (env : Env) (args : Args) (idNum : Nat) : List UInt8 :=
  le32 0x482a4d49 ++ le32 (imageHeaderSize idNum) ++ le32 args.hVer ++ le32 env.headerReserved ++
    imageNameField args.imageName ++ le32 args.iVer ++ le32 env.reserved0 ++
    le32 env.reserved1 ++ le32 (UInt32.ofNat idNum)

def printed (x : UInt32) : Int := x.toInt32.toInt

/-- `redirect` is `>` for the header and `>>` for a chunk. -/
def place (redirect : Files → List Path → Path → Files) (env : Env) (alignSize : UInt32)
    (out : Path) (k : Nat) (fs : Files) (path : Path) (fileSize : UInt32) : Files :=
  let size := getAligned fileSize alignSize
  if fileSize < size then
    let fs := dd env k fs (path ++ dotFiller) (printed (size - fileSize))
    redirect fs [path, path ++ dotFiller] out
  else redirect fs [path] out

def appendChunks (env : Env) (alignSize : UInt32) (out : Path) :
    Nat → Files → List (ChunkRecord × ChunkParam) → Files
  | _, fs, [] => fs
  | k, fs, (r, c) :: rest =>
    appendChunks env alignSize out (k + 1)
      (place catAppend env alignSize out k fs r.pathName c.size) rest

/-- `main` behind the option loop, up to the image's last byte. -/
def genimg (env : Env) (args : Args) (records : List ChunkRecord) (fs : Files) : Files :=
  let idNum := records.length
  let chunk := chunkParams fs args.alignSize (firstOffset args idNum) records
  let header := fixedHeader env args idNum ++ chunk.flatMap ChunkParam.toBytes
  let fs := write fs args.imgHeaderName header
  let fs := if args.seperate.isNone then
      place catTo env args.alignSize args.outPathName 0 fs args.imgHeaderName
        (imageHeaderSize idNum)
    else fs
  appendChunks env args.alignSize args.outPathName 1 fs (records.zip chunk)

def maxImageChunkEntry : UInt32 := 128
def chunkNonExist : Int := -1

def chunkNum (buff : List UInt8) : UInt32 := word buff 60

def chunkIdAt (buff : List UInt8) (i : Nat) : UInt32 := word buff (64 + (32 * i + 0))
def offsetAt (buff : List UInt8) (i : Nat) : UInt32 := word buff (64 + (32 * i + 4))
def sizeAt (buff : List UInt8) (i : Nat) : UInt32 := word buff (64 + (32 * i + 8))

def findChunk (id : UInt32) (buff : List UInt8) : Int :=
  if chunkNum buff < maxImageChunkEntry then
    match (List.range (chunkNum buff).toNat).find? (fun i => id = chunkIdAt buff i) with
    | some i => i
    | none => chunkNonExist
  else chunkNonExist

section Files

variable {fs : Files} {p q out : Path}

theorem write_self (fs : Files) (p : Path) (bytes : List UInt8) : write fs p bytes p = some bytes :=
  Function.update_self p _ fs

theorem write_ne (h : p ≠ q) (bytes : List UInt8) : write fs q bytes p = fs p :=
  Function.update_of_ne h _ fs

def Redirects (redirect : Files → List Path → Path → Files)
    (keep : Option (List UInt8) → List UInt8) : Prop :=
  ∀ fs paths out, out ∉ paths → redirect fs paths out out = some (keep (fs out) ++ cat fs paths) ∧
    ∀ p ≠ out, redirect fs paths out p = fs p

theorem cat_congr {fs fs' : Files} {paths : List Path} (h : ∀ p ∈ paths, fs p = fs' p) :
    cat fs paths = cat fs' paths := by
  unfold cat
  induction paths with
  | nil => rfl
  | cons p ps ih =>
    rw [List.flatMap_cons, List.flatMap_cons, h p (by simp), ih fun q hq => h q (by simp [hq])]

theorem redirects_catTo : Redirects catTo (fun _ => []) := by
  intro fs paths out hout
  constructor
  · unfold catTo
    dsimp only
    rw [write_self, List.nil_append]
    rw [cat_congr fun p hp => write_ne (ne_of_mem_of_not_mem hp hout) []]
  · intro p hp
    unfold catTo
    rw [write_ne hp, write_ne hp]

theorem redirects_catAppend : Redirects catAppend (fun old => old.getD []) :=
  fun fs _ out _ => ⟨write_self fs out _, fun _ hp => write_ne hp _⟩

end Files

section Align

variable {n a : UInt32}

theorem toNat_getAligned (ha : 0 < a.toNat) (h : n.toNat + a.toNat ≤ 2 ^ 32) :
    (getAligned n a).toNat = aligned a.toNat n.toNat := by
  have hlt := aligned_lt ha n.toNat
  have hs : (n + a - 1).toNat = n.toNat + a.toNat - 1 := by
    rw [UInt32.toNat_sub, UInt32.toNat_add]
    change (2 ^ 32 - 1 + (n.toNat + a.toNat) % 2 ^ 32) % 2 ^ 32 = _
    omega
  unfold getAligned
  rw [UInt32.toNat_mul, UInt32.toNat_div, hs]
  exact Nat.mod_eq_of_lt (by unfold aligned at hlt; omega)

theorem printed_eq {x : UInt32} (h : x.toNat < 2 ^ 31) : printed x = x.toNat := by
  change x.toBitVec.toInt = x.toBitVec.toNat
  exact BitVec.toInt_eq_toNat_of_lt (by rw [UInt32.toNat_toBitVec]; omega)

end Align

theorem dd_filler (env : Env) (k : Nat) (fs : Files) (path : Path) {n a : UInt32}
    (ha : 0 < a.toNat) (ha31 : a.toNat ≤ 2 ^ 31) (hsize : n.toNat + a.toNat ≤ 2 ^ 32)
    (h : n < getAligned n a) :
    dd env k fs path (printed (getAligned n a - n)) =
      write fs path (env.urandom k (aligned a.toNat n.toNat - n.toNat)).1 := by
  have hlt := aligned_lt ha n.toNat
  have hd : (getAligned n a - n).toNat = aligned a.toNat n.toNat - n.toNat := by
    rw [UInt32.toNat_sub_of_le _ _ (UInt32.le_of_lt h), toNat_getAligned ha hsize]
  rw [printed_eq (by omega), hd]
  unfold dd
  rw [if_neg (by omega), Int.toNat_natCast]

theorem place_spec {redirect : Files → List Path → Path → Files}
    {keep : Option (List UInt8) → List UInt8} (hr : Redirects redirect keep) (env : Env)
    {a : UInt32} (ha : 0 < a.toNat) (ha31 : a.toNat ≤ 2 ^ 31) {out path : Path} {fs : Files}
    {bytes : List UInt8} {n : UInt32} (k : Nat)
    (hfile : fs path = some bytes) (hn : n.toNat = bytes.length)
    (hsize : n.toNat + a.toNat ≤ 2 ^ 32) (hout : path ≠ out) (hfiller : path ++ dotFiller ≠ out) :
    ∃ filler, (bytes ++ filler).length = aligned a.toNat bytes.length ∧
      place redirect env a out k fs path n out = some (keep (fs out) ++ (bytes ++ filler)) ∧
      ∀ p, p ≠ out → p ≠ path ++ dotFiller → place redirect env a out k fs path n p = fs p := by
  have hal := toNat_getAligned ha hsize
  have hle := le_aligned ha n.toNat
  unfold place
  dsimp only
  by_cases h : n < getAligned n a
  · rw [if_pos h]
    have hne : path ≠ path ++ dotFiller := by
      intro he
      have := congrArg List.length he
      simp [dotFiller] at this
    rw [dd_filler env k fs _ ha ha31 hsize h]
    obtain ⟨hself, hother⟩ := hr (write fs (path ++ dotFiller)
      (env.urandom k (aligned a.toNat n.toNat - n.toNat)).1) [path, path ++ dotFiller] out
      (by simp [hout.symm, hfiller.symm])
    refine ⟨(env.urandom k (aligned a.toNat n.toNat - n.toNat)).1, ?_, ?_, fun p hp hq => ?_⟩
    · rw [List.length_append, (env.urandom k _).2, ← hn]
      omega
    · rw [hself, write_ne hfiller.symm]
      simp [cat, write_self, write_ne hne, hfile]
    · rw [hother p hp, write_ne hq]
  · rw [if_neg h]
    obtain ⟨hself, hother⟩ := hr fs [path] out (by simp [hout.symm])
    refine ⟨[], ?_, ?_, fun p hp _ => hother p hp⟩
    · rw [UInt32.lt_iff_toNat_lt, hal] at h
      rw [List.append_nil, ← hn]
      omega
    · rw [hself]
      simp [cat, hfile]

end SynaBoot.Genimg
