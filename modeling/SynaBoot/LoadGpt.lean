import SynaBoot.EmmcBlocks
import SynaBoot.EmmcParts
import SynaBoot.FlashRecord

namespace SynaBoot.LoadGpt

open SynaBoot.BlockRange SynaBoot.EmmcBlocks SynaBoot.EmmcParts
open SynaBoot.FlashRecord (Bytes word)

def maxGptEntry : ℕ := 128
def maxHdrSize : UInt32 := 100
def startAddrGpt : Int := 0
def gptPriReadSize : UInt32 := 0x6800
def gptAltReadSize : UInt32 := 0x4200
def gptHeaderOffset : ℕ := 0x200
def gptTableOffset : ℕ := 0x400
def gptPartSize : ℕ := 0x4000

abbrev Buffer := ℕ → UInt8

def bytesAt (n : ℕ) (b : Buffer) (i : ℕ) : Bytes n := ⟨(List.range n).map fun j => b (i + j), by simp⟩

def word32 (b : Buffer) (i : ℕ) : UInt32 := word (bytesAt 4 b i).1 0

def word64 (b : Buffer) (i : ℕ) : UInt64 :=
  UInt64.ofNat ((word32 b i).toNat + (word32 b (i + 4)).toNat * 2 ^ 32)

structure GptHdr where
  hdrSig : Bytes 8
  hdrRevision : UInt32
  hdrSize : UInt32
  hdrEntries : UInt32
  deriving DecidableEq

structure GptEnt where
  entType : Bytes 16
  entUuid : Bytes 16
  entLbaStart : UInt64
  entLbaEnd : UInt64
  entAttr : UInt64
  entName : Bytes 72
  deriving DecidableEq

def gptHdrAt (b : Buffer) (i : ℕ) : GptHdr :=
  ⟨bytesAt 8 b i, word32 b (i + 8), word32 b (i + 12), word32 b (i + 80)⟩

def gptEntAt (b : Buffer) (i : ℕ) : GptEnt :=
  ⟨bytesAt 16 b i, bytesAt 16 b (i + 16), word64 b (i + 32), word64 b (i + 40), word64 b (i + 48),
    bytesAt 72 b (i + 56)⟩

def gptHdrSig : List UInt8 := [69, 70, 73, 32, 80, 65, 82, 84]

def gptHdrRevision : UInt32 := 0x00010000

def GptHdr.valid (h : GptHdr) : Bool :=
  h.hdrSig.1 = gptHdrSig && h.hdrRevision = gptHdrRevision && decide (h.hdrSize ≤ maxHdrSize)

def GptEnt.used (e : GptEnt) : Bool := e.entType.1 ≠ List.replicate 16 0

structure GptEntPart where
  part : UInt32
  gpt : GptEnt
  deriving DecidableEq

@[ext]
structure GptTable where
  entries : List GptEntPart
  length_le : entries.length ≤ maxGptEntry

def parseLoop (part : UInt32) (entry : ℕ → GptEnt) : ℕ → ℕ → List GptEntPart → List GptEntPart
  | 0, _, es => es
  | n + 1, i, es =>
    if (entry i).used then parseLoop part entry n (i + 1) (es ++ [⟨part, entry i⟩])
    else parseLoop part entry n (i + 1) es

def usedSlots (part : UInt32) (entry : ℕ → GptEnt) (i n : ℕ) : List GptEntPart :=
  ((List.range' i n).filter fun k => (entry k).used).map fun k => ⟨part, entry k⟩

theorem usedSlots_succ_pos {part : UInt32} {entry : ℕ → GptEnt} {i : ℕ}
    (h : (entry i).used = true) (n : ℕ) :
    usedSlots part entry i (n + 1) = ⟨part, entry i⟩ :: usedSlots part entry (i + 1) n := by
  unfold usedSlots
  rw [List.range'_succ, List.filter_cons, if_pos h, List.map_cons]

theorem usedSlots_succ_neg {part : UInt32} {entry : ℕ → GptEnt} {i : ℕ}
    (h : ¬ (entry i).used = true) (n : ℕ) :
    usedSlots part entry i (n + 1) = usedSlots part entry (i + 1) n := by
  unfold usedSlots
  rw [List.range'_succ, List.filter_cons, if_neg h]

theorem parseLoop_eq (part : UInt32) (entry : ℕ → GptEnt) (n i : ℕ) (es : List GptEntPart) :
    parseLoop part entry n i es = es ++ usedSlots part entry i n := by
  induction n generalizing i es with
  | zero => exact (List.append_nil es).symm
  | succ n ih =>
    rw [parseLoop]
    by_cases hu : (entry i).used = true
    · rw [if_pos hu, ih, usedSlots_succ_pos hu, List.append_assoc, List.singleton_append]
    · rw [if_neg hu, ih, usedSlots_succ_neg hu]

theorem length_usedSlots_le (part : UInt32) (entry : ℕ → GptEnt) (i n : ℕ) :
    (usedSlots part entry i n).length ≤ n := by
  unfold usedSlots
  rw [List.length_map]
  exact (List.length_filter_le _ _).trans_eq List.length_range'

/-- As many as the header has, up to the room in the table. -/
def scanned (room : ℕ) (hdrEntries : UInt32) : ℕ :=
  if hdrEntries.toNat < room then hdrEntries.toNat else room

theorem scanned_le (room : ℕ) (hdrEntries : UInt32) : scanned room hdrEntries ≤ room := by
  unfold scanned
  split <;> omega

def parseGptTable (part : UInt32) (hdr : GptHdr) (entry : ℕ → GptEnt) (t : GptTable) : GptTable where
  entries := parseLoop part entry (scanned (maxGptEntry - t.entries.length) hdr.hdrEntries) 0 t.entries
  length_le := by
    have ht := t.length_le
    have hn := scanned_le (maxGptEntry - t.entries.length) hdr.hdrEntries
    have hu := length_usedSlots_le part entry 0
      (scanned (maxGptEntry - t.entries.length) hdr.hdrEntries)
    rw [parseLoop_eq, List.length_append]
    omega

structure Flash where
  bytes : UInt32 → ℕ → UInt8
  sectors : ℕ
  sectors_range : 33 ≤ sectors ∧ sectors < 2 ^ 32

def Flash.capacity (f : Flash) : Int := f.sectors * 512

inductive GptRead where
  | primary
  | alternate
  | gpp (i : Fin 4)
  deriving DecidableEq

/-- What becomes of the reads, and what a failed one leaves. -/
structure Env where
  switchOk : GptRead → Bool
  readOk : GptRead → Bool
  left : GptRead → Buffer → Buffer

structure Loader where
  emmc : Emmc
  buff : Buffer
  gptes : GptTable

def load (part : Buffer) (blks : List ℕ) (b : Buffer) : Buffer := fun i =>
  if i < blks.length * mmcBlockSize then
    part (blks.getD (i / mmcBlockSize) 0 * mmcBlockSize + i % mmcBlockSize)
  else b i

def readFlashFromPart (env : Env) (f : Flash) (r : GptRead) (part : UInt32) (start : Int)
    (size : UInt32) (l : Loader) : Int × Loader :=
  let (partAddr, emmc) := switchEmmcPart (env.switchOk r) part l.emmc
  let l := { l with emmc := emmc }
  if partAddr < 0 then (flashOpErr, l)
  else
    match readEmmc (partAddr + start) size with
    | none => (-1, l)
    | some blks =>
      if env.readOk r then (0, { l with buff := load (f.bytes l.emmc.device) blks l.buff })
      else (-1, { l with buff := env.left r l.buff })

def gppPart (i : Fin 4) : UInt32 := 4 + UInt32.ofNat i

theorem gppPart_le (i : Fin 4) : gppPart i ≤ 8 := by
  revert i
  decide

def parseBuff (part : UInt32) (hdrPos tablePos : ℕ) (l : Loader) : Loader :=
  let entry := fun k => gptEntAt l.buff (tablePos + 128 * k)
  { l with gptes := parseGptTable part (gptHdrAt l.buff hdrPos) entry l.gptes }

-- The loader is taken apart first, or the kernel compares the tables.
theorem parseBuff_emmc (part : UInt32) (hdrPos tablePos : ℕ) (l : Loader) :
    (parseBuff part hdrPos tablePos l).emmc = l.emmc := by
  obtain ⟨emmc, buff, gptes⟩ := l
  exact (rfl : (parseBuff part hdrPos tablePos ⟨emmc, buff, gptes⟩).emmc = emmc)

theorem parseBuff_buff (part : UInt32) (hdrPos tablePos : ℕ) (l : Loader) :
    (parseBuff part hdrPos tablePos l).buff = l.buff := by
  obtain ⟨emmc, buff, gptes⟩ := l
  exact (rfl : (parseBuff part hdrPos tablePos ⟨emmc, buff, gptes⟩).buff = buff)

def allGpps : List (Fin 4) := [0, 1, 2, 3]

/-- It goes on behind a bad header, and ends at a failed read. -/
def gppLoop (env : Env) (f : Flash) : List (Fin 4) → Loader → Loader
  | [], l => l
  | i :: is, l =>
    let (ret, l) := readFlashFromPart env f (.gpp i) (gppPart i) startAddrGpt gptAltReadSize l
    if ret = 0 then
      if (gptHdrAt l.buff gptHeaderOffset).valid then
        gppLoop env f is (parseBuff (gppPart i) gptHeaderOffset gptTableOffset l)
      else gppLoop env f is l
    else l

def gptLoadDone (env : Env) (f : Flash) (hdrPos tablePos : ℕ) (l : Loader) : Int × Loader :=
  if (gptHdrAt l.buff hdrPos).valid then
    (0, gppLoop env f allGpps (parseBuff 0 hdrPos tablePos l))
  else (flashOpErr, l)

def getGpt (env : Env) (f : Flash) (l : Loader) : Int × Loader :=
  let (ret, l) := readFlashFromPart env f .primary 0 startAddrGpt gptPriReadSize l
  if ret ≠ 0 then
    let start := f.capacity - gptAltReadSize.toNat
    let (ret, l) := readFlashFromPart env f .alternate 0 start gptAltReadSize l
    if ret ≠ 0 then (flashOpErr, l) else gptLoadDone env f gptPartSize 0 l
  else gptLoadDone env f gptHeaderOffset gptTableOffset l

end SynaBoot.LoadGpt
