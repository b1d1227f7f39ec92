import SynaBoot.UBootSlots

namespace SynaBoot.VerifiedBoot

open SynaBoot.BootControl

abbrev Ram := Nat → UInt8

def littleEndian (m : Ram) (a : Nat) : Nat → Nat
  | 0 => 0
  | n + 1 => (m a).toNat + 256 * littleEndian m (a + 1) n

def u16At (m : Ram) (a : Nat) : UInt16 := UInt16.ofNat (littleEndian m a 2)
def u32At (m : Ram) (a : Nat) : UInt32 := UInt32.ofNat (littleEndian m a 4)

def storeU32 (m : Ram) (a : Nat) (v : UInt32) : Ram := fun x =>
  if a ≤ x ∧ x < a + 4 then UInt8.ofNat (v.toNat / 256 ^ (x - a)) else m x

inductive BootType where
  | mmc
  | spi
  | ram
  deriving DecidableEq, Repr

/-- A read that fails leaves bytes of the buffer as they are. -/
abbrev Device := BootType → Option String → UInt32 → Nat → Nat → Option UInt8

/-- What one round of the retry loop finds outside the program. -/
structure Attempt where
  header : Device
  image : Device
  smc : UInt64 × UInt64
  plain : Nat → Option UInt8
  slots : UBootSlots.Env

structure Env where
  slots : UBootSlots.Env
  buff : Nat
  attempt : Nat → Attempt

/-- The calls of `tee_verify_image` and `bootm`, with the memory. -/
inductive Event where
  | verify (addr size : Nat) (ret : Int) (ram : Ram)
  | bootm (addr : Nat) (ram : Ram)

def genxImageHeaderLinuxSize : Nat := 336
def linuxKernelAddr : UInt32 := 0x7c00000
def minAndroidImgSize : UInt32 := 1 * 1024 * 1024
def maxAndroidImgSize : UInt32 := 30 * 1024 * 1024
def maxPagesize : Nat := 8192
def custkeySize : Nat := 5 * 1024
def imgInfoMagic : UInt16 := 0xE11D
def prependImageInfoSize : Nat := 64
def maxImageChunkEntry : UInt32 := 128
def imageChunkIdLinuxDtb : UInt32 := 0x4254444C
def andrBootMagic : List UInt8 := [0x41, 0x4E, 0x44, 0x52, 0x4F, 0x49, 0x44, 0x21]

def readImage (device : Device) (bootType : BootType) (ptName : Option String) (offset : UInt32)
    (buff readBytes : Nat) (m : Ram) : Ram := fun x =>
  if buff ≤ x ∧ x < buff + readBytes then
    match bootType with
    | .ram => m (offset.toNat + (x - buff))
    | _ => (device bootType ptName offset readBytes (x - buff)).getD (m x)
  else m x

def align16 (x : UInt32) : UInt32 := (x + 15) &&& ~~~15

def imgSize (m : Ram) (imgBuff : Nat) : UInt32 := align16 (u32At m (imgBuff + 8))

def readSize (m : Ram) (imgBuff : Nat) : UInt32 :=
  UInt32.ofNat ((imgSize m imgBuff).toNat + prependImageInfoSize)

/-- An `unsigned long`, which the caller keeps in an `int`. -/
def teeVerifyImage (smc : UInt64 × UInt64) : Int :=
  Int.bmod (if smc.1 = 0 then smc.2 else smc.1).toNat (2 ^ 32)

structure Loaded where
  bootimgHdr : Option Nat
  ram : Ram
  events : List Event

/-- A refused image leaves the null pointer, here `none`. -/
@[irreducible] def loadAndroidImage (at' : Attempt) (bootType : BootType) (ptName : Option String)
    (offset : UInt32) (buff : Nat) (m : Ram) : Loaded :=
  let imgBuff := buff + custkeySize
  let m := readImage at'.header bootType ptName offset imgBuff maxPagesize m
  if u16At m (imgBuff + 4) != imgInfoMagic then ⟨none, m, []⟩
  else
    let size := imgSize m imgBuff
    let total := readSize m imgBuff
    if total > maxAndroidImgSize || total < minAndroidImgSize then ⟨none, m, []⟩
    else
      let m := readImage at'.image bootType ptName offset imgBuff total.toNat m
      let imgHdr := imgBuff + prependImageInfoSize
      let m : Ram := fun x =>
        if imgHdr ≤ x ∧ x < imgHdr + size.toNat then (at'.plain (x - imgHdr)).getD (m x) else m x
      let ret := teeVerifyImage at'.smc
      let events := [Event.verify imgHdr size.toNat ret m]
      if ret ≤ 0 then ⟨none, m, events⟩
      else ⟨some (imgHdr + genxImageHeaderLinuxSize), m, events⟩

def findChunk (id : UInt32) (buff : Nat) (m : Ram) : Option Nat :=
  let num := u32At m (buff + 60)
  if num < maxImageChunkEntry then
    (List.range num.toNat).find? fun i => u32At m (buff + 64 + 32 * i) == id
  else none

def hasBootMagic (m : Ram) (buff : Nat) : Bool :=
  (List.range 8).map (fun i => m (buff + i)) == andrBootMagic

def bootAndroidImage (buff : Nat) (m : Ram) : Int × List Event :=
  if hasBootMagic m buff then
    let m := storeU32 m (buff + 12) linuxKernelAddr
    let mkbootimgPage := u32At m (buff + 36)
    let gih := buff + mkbootimgPage.toNat
    match findChunk imageChunkIdLinuxDtb gih m with
    | none => (-1, [])
    | some i =>
      let m := storeU32 m (buff + 28)
        (UInt32.ofNat (gih + (u32At m (gih + 64 + 32 * i + 4)).toNat))
      let m := storeU32 m (buff + 24) (u32At m (gih + 64 + 32 * i + 8))
      (0, [.bootm buff m])
  else (-1, [])

def getBootType (name : String) : Option BootType :=
  if name = "mmc" then some .mmc
  else if name = "spi" then some .spi
  else if name = "ram" then some .ram
  else none

def hexDigit (c : Char) : Option UInt64 :=
  if c.isDigit then some (UInt64.ofNat (c.toNat - 48))
  else if 'a' ≤ c ∧ c ≤ 'f' then some (UInt64.ofNat (c.toNat - 87))
  else if 'A' ≤ c ∧ c ≤ 'F' then some (UInt64.ofNat (c.toNat - 55))
  else none

def hexDigits (result : UInt64) : List Char → UInt64
  | [] => result
  | c :: cs =>
    match hexDigit c with
    | some value => hexDigits (result * 16 + value) cs
    | none => result

/-- `simple_strtoul` with base 16. -/
def simpleStrtoul : List Char → UInt64
  | '0' :: 'x' :: cs | '0' :: 'X' :: cs => hexDigits 0 cs
  | cs => hexDigits 0 cs

def nullAddr : Nat := 0

def kernelName : Slot → String
  | .a => "boot_a"
  | .b => "boot_b"

def imageSource : List String → Option (BootType × Option UInt32)
  | _ :: name :: args =>
    match getBootType name, args with
    | some .mmc, _ => some (.mmc, none)
    | some .spi, [] => some (.spi, none)
    | some .spi, [offset] => some (.spi, some (simpleStrtoul offset.toList).toUInt32)
    | some .ram, [offset] => some (.ram, some (simpleStrtoul offset.toList).toUInt32)
    | _, _ => none
  | _ => none

/-- A `reset` ends the run: the command does not return. -/
def retryImageLoad (env : Env) (bootType : BootType) (tryAb : Option Slot) (offset : UInt32) :
    Nat → Nat → BootCtrl → Ram → Option Int × List Event
  | 0, _, _, _ => (none, [])
  | n + 1, k, misc, m =>
    let l := loadAndroidImage (env.attempt k) bootType (tryAb.map kernelName) offset env.buff m
    match l.bootimgHdr, tryAb with
    | none, some s =>
      let (res, misc) := UBootSlots.tryAbmode (env.attempt k).slots s misc
      if res ≠ 0 then (none, l.events)
      else
        let (ret, events) := retryImageLoad env bootType tryAb offset n (k + 1) misc l.ram
        (ret, l.events ++ events)
    | hdr, _ => (some 0, l.events ++ (bootAndroidImage (hdr.getD nullAddr) l.ram).2)

def cmdRetUsage : Int := -1

/-- The value returned, if there is one, and the events. -/
def doSynaBoot (env : Env) (argv : List String) (misc : BootCtrl) (m : Ram) (n : Nat) :
    Option Int × List Event :=
  match imageSource argv with
  | none => (some cmdRetUsage, [])
  | some (bootType, some offset) =>
    if env.buff = 0 then (some cmdRetUsage, [])
    else retryImageLoad env bootType none offset n 0 misc m
  | some (bootType, none) =>
    match UBootSlots.getCurrentSlot env.slots misc with
    | (.invalid, _) => (none, [])
    | (.slot s, misc) =>
      if env.buff = 0 then (some cmdRetUsage, [])
      else retryImageLoad env bootType (some s) 0 n 0 misc m

def Patched (a x : Nat) : Prop := (a + 12 ≤ x ∧ x < a + 16) ∨ (a + 24 ≤ x ∧ x < a + 32)

/-- Every `bootm` runs on what the call just before it accepted. -/
def Verified (events : List Event) : Prop :=
  ∀ pre a ram post, events = pre ++ .bootm a ram :: post →
    ∃ earlier addr size ret image, pre = earlier ++ [.verify addr size ret image] ∧ 0 < ret ∧
      a = addr + genxImageHeaderLinuxSize ∧ a < addr + size ∧
      ∀ x, ¬ Patched a x → ram x = image x

def Acceptable (at' : Attempt) (bootType : BootType) (ptName : Option String) (offset : UInt32)
    (buff : Nat) (m : Ram) : Prop :=
  let imgBuff := buff + custkeySize
  let m := readImage at'.header bootType ptName offset imgBuff maxPagesize m
  u16At m (imgBuff + 4) = imgInfoMagic ∧ minAndroidImgSize ≤ readSize m imgBuff ∧
    readSize m imgBuff ≤ maxAndroidImgSize ∧ 0 < teeVerifyImage at'.smc

/-- An Android boot header with a DTB chunk stands at `a`. -/
def BootHeaderAt (m : Ram) (a : Nat) : Prop :=
  hasBootMagic m a = true ∧
    (findChunk imageChunkIdLinuxDtb (a + (u32At (storeU32 m (a + 12) linuxKernelAddr) (a + 36)).toNat)
      (storeU32 m (a + 12) linuxKernelAddr)).isSome = true

theorem storeU32_of_not (m : Ram) (a x : Nat) (v : UInt32) (hx : ¬ (a ≤ x ∧ x < a + 4)) :
    storeU32 m a v x = m x := if_neg hx

theorem imgSize_large (m : Ram) (b : Nat) (hmin : minAndroidImgSize ≤ readSize m b) :
    genxImageHeaderLinuxSize < (imgSize m b).toNat := by
  have hlt := (imgSize m b).toNat_lt
  rw [UInt32.le_iff_toNat_le, readSize, UInt32.toNat_ofNat'] at hmin
  have h1 : minAndroidImgSize.toNat = 1048576 := rfl
  have h2 : prependImageInfoSize = 64 := rfl
  have h3 : genxImageHeaderLinuxSize = 336 := rfl
  omega

theorem loadAndroidImage_cases (at' : Attempt) (bootType : BootType) (ptName : Option String)
    (offset : UInt32) (buff : Nat) (m : Ram) :
    (Acceptable at' bootType ptName offset buff m ∧
      ∃ addr size, genxImageHeaderLinuxSize < size ∧ 0 < teeVerifyImage at'.smc ∧
        (loadAndroidImage at' bootType ptName offset buff m).bootimgHdr =
          some (addr + genxImageHeaderLinuxSize) ∧
        (loadAndroidImage at' bootType ptName offset buff m).events =
          [.verify addr size (teeVerifyImage at'.smc)
            (loadAndroidImage at' bootType ptName offset buff m).ram]) ∨
    (¬ Acceptable at' bootType ptName offset buff m ∧
      (loadAndroidImage at' bootType ptName offset buff m).bootimgHdr = none ∧
      ∀ e ∈ (loadAndroidImage at' bootType ptName offset buff m).events,
        ∃ addr size ret ram, e = .verify addr size ret ram) := by
  unfold loadAndroidImage
  dsimp only [Acceptable]
  generalize buff + custkeySize = b
  generalize readImage at'.header bootType ptName offset b maxPagesize m = m1
  by_cases hmagic : u16At m1 (b + 4) = imgInfoMagic
  · rw [if_neg (by simpa using hmagic)]
    by_cases hsize : minAndroidImgSize ≤ readSize m1 b ∧ readSize m1 b ≤ maxAndroidImgSize
    · have hin : ¬ ((readSize m1 b > maxAndroidImgSize || readSize m1 b < minAndroidImgSize) = true) := by
        rw [Bool.or_eq_true, decide_eq_true_eq, decide_eq_true_eq, not_or]
        exact ⟨UInt32.not_lt.mpr hsize.2, UInt32.not_lt.mpr hsize.1⟩
      rw [if_neg hin]
      by_cases hret : teeVerifyImage at'.smc ≤ 0
      · right
        refine ⟨fun h => absurd h.2.2.2 (not_lt.mpr hret), ?_⟩
        rw [if_pos hret]
        exact ⟨rfl, fun e he => ⟨_, _, _, _, List.mem_singleton.mp he⟩⟩
      · left
        refine ⟨⟨hmagic, hsize.1, hsize.2, not_le.mp hret⟩, b + prependImageInfoSize,
          (imgSize m1 b).toNat, imgSize_large m1 b hsize.1, not_le.mp hret, ?_⟩
        rw [if_neg hret]
        exact ⟨rfl, rfl⟩
    · right
      refine ⟨fun h => hsize ⟨h.2.1, h.2.2.1⟩, ?_⟩
      have hout : (readSize m1 b > maxAndroidImgSize || readSize m1 b < minAndroidImgSize) = true := by
        rw [Bool.or_eq_true, decide_eq_true_eq, decide_eq_true_eq]
        by_contra hc
        rw [not_or] at hc
        exact hsize ⟨UInt32.not_lt.mp hc.2, UInt32.not_lt.mp hc.1⟩
      rw [if_pos hout]
      exact ⟨rfl, fun e he => absurd he List.not_mem_nil⟩
  · right
    refine ⟨fun h => hmagic h.1, ?_⟩
    rw [if_pos (by simpa using hmagic)]
    exact ⟨rfl, fun e he => absurd he List.not_mem_nil⟩

theorem bootAndroidImage_cases (a : Nat) (m : Ram) :
    (¬ BootHeaderAt m a ∧ (bootAndroidImage a m).2 = []) ∨
    (BootHeaderAt m a ∧ ∃ ram, (bootAndroidImage a m).2 = [.bootm a ram] ∧
      ∀ x, ¬ Patched a x → ram x = m x) := by
  unfold bootAndroidImage BootHeaderAt
  by_cases hmagic : hasBootMagic m a = true
  · rw [if_pos hmagic]
    set m1 := storeU32 m (a + 12) linuxKernelAddr with hm1
    simp only
    cases hchunk : findChunk imageChunkIdLinuxDtb (a + (u32At m1 (a + 36)).toNat) m1 with
    | none => exact .inl ⟨fun h => by simp at h, rfl⟩
    | some i =>
      refine .inr ⟨⟨hmagic, rfl⟩, _, rfl, fun x hx => ?_⟩
      unfold Patched at hx
      rw [storeU32_of_not _ _ _ _ (by omega), storeU32_of_not _ _ _ _ (by omega), hm1,
        storeU32_of_not _ _ _ _ (by omega)]
  · rw [if_neg hmagic]
    exact .inl ⟨fun h => hmagic h.1, rfl⟩

theorem verified_of_no_bootm (events : List Event)
    (h : ∀ e ∈ events, ∃ addr size ret ram, e = .verify addr size ret ram) : Verified events := by
  intro pre a ram post heq
  obtain ⟨_, _, _, _, he⟩ := h (.bootm a ram) (by simp [heq])
  cases he

theorem verified_append (first rest : List Event)
    (h : ∀ e ∈ first, ∃ addr size ret ram, e = .verify addr size ret ram) (hrest : Verified rest) :
    Verified (first ++ rest) := by
  intro pre a ram post heq
  obtain ⟨mid, hpre, hmid⟩ | ⟨mid, hfirst, hmid⟩ := List.append_eq_append_iff.mp heq
  · obtain ⟨earlier, addr, size, ret, image, hm, hok⟩ := hrest mid a ram post hmid
    exact ⟨first ++ earlier, addr, size, ret, image, by rw [hpre, hm, List.append_assoc], hok⟩
  · cases mid with
    | nil =>
      obtain ⟨earlier, addr, size, ret, image, hm, hok⟩ := hrest [] a ram post hmid.symm
      exact absurd hm (by simp)
    | cons e mid =>
      obtain ⟨_, _, _, _, he⟩ := h e (by simp [hfirst])
      rw [he] at hmid
      cases hmid

theorem verified_handover (addr size : Nat) (ret : Int) (m : Ram) (hret : 0 < ret)
    (hsize : genxImageHeaderLinuxSize < size) :
    Verified ([.verify addr size ret m] ++
      (bootAndroidImage (addr + genxImageHeaderLinuxSize) m).2) := by
  obtain ⟨_, hnone⟩ | ⟨_, ram, hboot, hram⟩ :=
    bootAndroidImage_cases (addr + genxImageHeaderLinuxSize) m
  · rw [hnone]
    exact verified_of_no_bootm _ fun e he => ⟨_, _, _, _, List.mem_singleton.mp he⟩
  · rw [hboot]
    intro pre a ram' post heq
    cases pre with
    | nil => cases heq
    | cons e pre =>
      obtain ⟨rfl, htail⟩ := List.cons.inj heq
      cases pre with
      | nil =>
        obtain ⟨hb, -⟩ := List.cons.inj htail
        obtain ⟨rfl, rfl⟩ := Event.bootm.inj hb
        exact ⟨[], addr, size, ret, m, rfl, hret, rfl, by omega, hram⟩
      | cons e' pre => simp at htail

theorem retryImageLoad_slot (env : Env) (bootType : BootType) (s : Slot) (offset : UInt32)
    (n k : Nat) (misc : BootCtrl) (m : Ram) :
    Verified (retryImageLoad env bootType (some s) offset n k misc m).2 := by
  induction n generalizing k misc m with
  | zero => exact verified_of_no_bootm _ nofun
  | succ n ih =>
    unfold retryImageLoad
    obtain ⟨_, addr, size, hsize, hret, hhdr, hev⟩ | ⟨_, hhdr, hev⟩ := loadAndroidImage_cases
      (env.attempt k) bootType ((some s).map kernelName) offset env.buff m
    · simp only [hhdr, hev, Option.getD_some]
      exact verified_handover addr size _ _ hret hsize
    · simp only [hhdr]
      split
      · exact verified_of_no_bootm _ hev
      · exact verified_append _ _ hev (ih _ _ _)

theorem retryImageLoad_offset (env : Env) (bootType : BootType) (offset : UInt32) (n : Nat)
    (misc : BootCtrl) (m : Ram) :
    Verified (retryImageLoad env bootType none offset (n + 1) 0 misc m).2 ↔
      Acceptable (env.attempt 0) bootType none offset env.buff m ∨
        ¬ BootHeaderAt (loadAndroidImage (env.attempt 0) bootType none offset env.buff m).ram
          nullAddr := by
  unfold retryImageLoad
  obtain ⟨hacc, addr, size, hsize, hret, hhdr, hev⟩ | ⟨hacc, hhdr, hev⟩ := loadAndroidImage_cases
    (env.attempt 0) bootType none offset env.buff m
  · simp only [Option.map_none, hhdr, hev, Option.getD_some]
    exact iff_of_true (verified_handover addr size _ _ hret hsize) (.inl hacc)
  · simp only [Option.map_none, hhdr, Option.getD_none]
    obtain ⟨hno, hnone⟩ | ⟨hyes, ram, hboot, -⟩ := bootAndroidImage_cases nullAddr
      (loadAndroidImage (env.attempt 0) bootType none offset env.buff m).ram
    · rw [hnone, List.append_nil]
      exact iff_of_true (verified_of_no_bootm _ hev) (.inr hno)
    · rw [hboot]
      refine iff_of_false (fun h => ?_) (fun h => h.elim hacc (fun h => h hyes))
      obtain ⟨_, addr, _, _, _, _, _, ha, _⟩ := h _ nullAddr ram [] rfl
      simp [nullAddr, genxImageHeaderLinuxSize] at ha

/-- Only what has been verified is booted, unless a refused load meets a header at address 0. -/
theorem boots_verified_iff (env : Env) (argv : List String) (misc : BootCtrl) (m : Ram) :
    (∀ n, Verified (doSynaBoot env argv misc m n).2) ↔
      ∀ bootType offset, imageSource argv = some (bootType, some offset) → env.buff ≠ 0 →
        Acceptable (env.attempt 0) bootType none offset env.buff m ∨
          ¬ BootHeaderAt (loadAndroidImage (env.attempt 0) bootType none offset env.buff m).ram
          nullAddr := by
  have hnil : Verified [] := verified_of_no_bootm _ nofun
  unfold doSynaBoot
  match hsrc : imageSource argv with
  | none => exact iff_of_true (fun _ => hnil) nofun
  | some (t, none) =>
    refine iff_of_true (fun n => ?_) nofun
    simp only
    split
    · exact hnil
    · split
      · exact hnil
      · exact retryImageLoad_slot _ _ _ _ _ _ _ _
  | some (t, some offset) =>
    simp only
    by_cases hbuff : env.buff = 0
    · simp only [hbuff, if_true]
      exact iff_of_true (fun _ => hnil) (fun _ _ _ h => absurd rfl h)
    · simp only [hbuff, if_false]
      constructor
      · intro h t' offset' heq _
        obtain ⟨rfl, hoff⟩ := Prod.mk.inj (Option.some.inj heq)
        obtain rfl := Option.some.inj hoff
        exact (retryImageLoad_offset env t offset 0 misc m).mp (h 1)
      · intro h n
        cases n with
        | zero => exact hnil
        | succ n =>
          exact (retryImageLoad_offset env t offset n misc m).mpr (h t offset rfl hbuff)

def absentDevice : Device := fun _ _ _ _ _ => none

def bareEnv : Env where
  slots := ⟨false, .error, .invalid⟩
  buff := 0x100000
  attempt := fun _ => ⟨absentDevice, absentDevice, (0, 0), fun _ => none, ⟨false, .error, .invalid⟩⟩

def headerAtZero : Ram := fun x =>
  if x < 8 then andrBootMagic.getD x 0
  else if x = 36 then 64
  else if x = 124 then 1
  else if 128 ≤ x ∧ x < 132 then UInt8.ofNat (imageChunkIdLinuxDtb.toNat / 256 ^ (x - 128))
  else 0

theorem refused_offset_boots_address_zero :
    ¬ Verified (doSynaBoot bareEnv ["syna_boot", "ram", "1000"] (defaultBootctrl .a)
      headerAtZero 1).2 := by
  have hsrc : imageSource ["syna_boot", "ram", "1000"] = some (.ram, some 0x1000) := by decide
  have hrun : doSynaBoot bareEnv ["syna_boot", "ram", "1000"] (defaultBootctrl .a) headerAtZero 1 =
      retryImageLoad bareEnv .ram none 0x1000 1 0 (defaultBootctrl .a) headerAtZero := by
    simp only [doSynaBoot, hsrc]
    rfl
  rw [hrun, retryImageLoad_offset, not_or, not_not]
  constructor
  · intro h
    exact absurd h.1 (by decide +kernel)
  · exact ⟨by decide +kernel, by decide +kernel⟩

end SynaBoot.VerifiedBoot
