import SynaBoot.VerifiedBoot

namespace SynaBoot.FastLogo

open SynaBoot.VerifiedBoot (Ram u32At)

structure Device where
  genxEnable : Bool
  blksz : ℕ
  pos : 0 < blksz
  lt : blksz < 2 ^ 30

def Device.genxImageHeaderFastlogoSize (d : Device) : ℕ := if d.genxEnable then 336 + 64 else 0

def Device.logoHeaderSize (d : Device) : ℕ := 1024 + d.genxImageHeaderFastlogoSize

structure Buffer where
  size : ℕ
  bytes : Ram

/-- `none` is a read outside of the buffer. -/
def Buffer.load32 (b : Buffer) (pos : ℕ) : Option UInt32 :=
  if pos + 4 ≤ b.size then some (u32At b.bytes pos) else none

structure Blocks where
  bytes : Ram
  written : ℕ
  start : ℕ

def synaEmmcReadFromOffset (d : Device) (part : Ram) (offset size : UInt32) (buff : Ram) : Blocks :=
  let startBlk := offset.toNat / d.blksz
  let blkCnt := size.toNat / d.blksz + 2
  { bytes := fun i => if i < blkCnt * d.blksz then part (startBlk * d.blksz + i) else buff i
    written := blkCnt * d.blksz
    start := offset.toNat % d.blksz }

inductive Field where
  | offset
  | width
  | height
  | stride

def Field.place : Field → ℕ
  | .offset => 0
  | .width => 4
  | .height => 8
  | .stride => 12

structure Request where
  buffer : Buffer
  header : ℕ
  width : UInt32
  height : UInt32

namespace Request

variable (r : Request)

def info (i : ℕ) (f : Field) : Option UInt32 := r.buffer.load32 (r.header + 8 + 16 * i + f.place)

def logoNum : Option UInt32 := r.buffer.load32 (r.header + 4)

def search : ℕ → ℕ → Option (Option ℕ)
  | 0, _ => some none
  | n + 1, i => do
    let w ← r.info i .width
    if w = r.width then do
      let h ← r.info i .height
      if h = r.height then some (some i) else search n (i + 1)
    else search n (i + 1)

def checkValidateLogo : Option (Option ℕ) := do
  let n ← r.logoNum
  r.search n.toNat 0

end Request

structure Picture where
  allocated : ℕ
  written : ℕ
  start : ℕ
  stride : UInt32
  height : UInt32
  deriving DecidableEq, Repr

inductive Outcome where
  | failed (ret : ℤ)
  | loaded (p : Picture)
  deriving DecidableEq, Repr

def request (d : Device) (part fresh : Ram) (width height : UInt32) : Request :=
  let blocks := synaEmmcReadFromOffset d part (UInt32.ofNat d.genxImageHeaderFastlogoSize)
    (UInt32.ofNat d.logoHeaderSize) fresh
  ⟨⟨d.logoHeaderSize + d.blksz * 2, blocks.bytes⟩, blocks.start, width, height⟩

/-- The sizes are products and sums of 32 bits. -/
def loadPicture (d : Device) (part fresh : Ram) (malloc : ℕ → Bool) (r : Request) (i : ℕ) :
    Option Outcome := do
  let stride ← r.info i .stride
  let height ← r.info i .height
  let allocated := (stride * height + UInt32.ofNat d.blksz * 2).toNat
  if malloc allocated then do
    let offset ← r.info i .offset
    let blocks := synaEmmcReadFromOffset d part
      (offset + UInt32.ofNat d.genxImageHeaderFastlogoSize) (stride * height) fresh
    some (.loaded ⟨allocated, blocks.written, blocks.start, stride, height⟩)
  else some (.failed (-12))

/-- `none` is an access outside of the header buffer. -/
def synaLoadLogoInfo (d : Device) (partition : Option Ram) (fresh : Ram) (malloc : ℕ → Bool)
    (width height : UInt32) : Option Outcome :=
  match partition with
  | none => some (.failed (-1))
  | some part =>
    -- what `malloc` returns is not looked at here
    if malloc (d.logoHeaderSize + d.blksz * 2) then do
      let r := request d part fresh width height
      match ← r.checkValidateLogo with
      | none => some (.failed (-1))
      | some i => loadPicture d part fresh malloc r i
    else none

structure Fits (p : Picture) : Prop where
  blocks : p.written ≤ p.allocated
  picture : p.start + p.stride.toNat * p.height.toNat ≤ p.allocated

def MemorySafe (result : Option Outcome) : Prop :=
  ∃ o, result = some o ∧ ∀ p, o = .loaded p → Fits p

namespace Request

variable (r : Request)

def Passed (i : ℕ) : Prop :=
  ∃ w, r.info i .width = some w ∧ (w = r.width → ∃ h, r.info i .height = some h ∧ h ≠ r.height)

def Hit (i : ℕ) : Prop := r.info i .width = some r.width ∧ r.info i .height = some r.height

def Cut (i : ℕ) : Prop :=
  r.info i .width = none ∨ r.info i .width = some r.width ∧ r.info i .height = none

def Reaches (i : ℕ) : Prop := (∃ n, r.logoNum = some n ∧ i < n.toNat) ∧ ∀ j < i, r.Passed j

def Overruns : Prop :=
  ∃ i, r.Reaches i ∧ (r.Cut i ∨ r.Hit i ∧ r.info i .stride = none)

def Finds (i : ℕ) (stride : UInt32) : Prop :=
  r.Reaches i ∧ r.Hit i ∧ r.info i .stride = some stride

end Request

section Search

variable {r : Request} {n i k : ℕ}

theorem Request.Passed.not_hit (h : r.Passed i) : ¬ r.Hit i := by
  rintro ⟨hwidth, hheight⟩
  obtain ⟨w, hw, hother⟩ := h
  obtain ⟨h, hh, hne⟩ := hother (Option.some.inj (hw.symm.trans hwidth))
  exact hne (Option.some.inj (hh.symm.trans hheight))

theorem Request.Passed.not_cut (h : r.Passed i) : ¬ r.Cut i := by
  obtain ⟨w, hw, hother⟩ := h
  rintro (hnone | ⟨hwidth, hnone⟩)
  · rw [hw] at hnone
    cases hnone
  · obtain ⟨h, hh, -⟩ := hother (Option.some.inj (hw.symm.trans hwidth))
    rw [hh] at hnone
    cases hnone

theorem Request.Hit.not_cut (h : r.Hit i) : ¬ r.Cut i := by
  rintro (hnone | ⟨-, hnone⟩)
  · rw [h.1] at hnone
    cases hnone
  · rw [h.2] at hnone
    cases hnone

inductive Ends (r : Request) (n i : ℕ) : Option (Option ℕ) → Prop
  | all (hpassed : ∀ j < n, r.Passed (i + j)) : Ends r n i (some none)
  | hit (k : ℕ) (hk : k < n) (hpassed : ∀ j < k, r.Passed (i + j)) (hhit : r.Hit (i + k)) :
    Ends r n i (some (some (i + k)))
  | cut (k : ℕ) (hk : k < n) (hpassed : ∀ j < k, r.Passed (i + j)) (hcut : r.Cut (i + k)) :
    Ends r n i none

theorem Ends.next {result : Option (Option ℕ)} (hi : r.Passed i) (h : Ends r n (i + 1) result) :
    Ends r (n + 1) i result := by
  have hfirst (k : ℕ) (hpassed : ∀ j < k, r.Passed (i + 1 + j)) : ∀ j < k + 1, r.Passed (i + j) := by
    intro j hj
    cases j with
    | zero => exact hi
    | succ j =>
      rw [← Nat.add_assoc, Nat.add_right_comm]
      exact hpassed j (Nat.lt_of_succ_lt_succ hj)
  have hplace (k : ℕ) : i + 1 + k = i + (k + 1) := Nat.add_right_comm i 1 k
  cases h with
  | all hpassed => exact .all (hfirst n hpassed)
  | hit k hk hpassed hhit =>
    rw [hplace] at hhit ⊢
    exact .hit (k + 1) (Nat.succ_lt_succ hk) (hfirst k hpassed) hhit
  | cut k hk hpassed hcut =>
    rw [hplace] at hcut
    exact .cut (k + 1) (Nat.succ_lt_succ hk) (hfirst k hpassed) hcut

theorem search_ends : Ends r n i (r.search n i) := by
  induction n generalizing i with
  | zero => exact .all fun j hj => absurd hj (Nat.not_lt_zero j)
  | succ n ih =>
    have hnone (j : ℕ) (hj : j < 0) : r.Passed (i + j) := absurd hj (Nat.not_lt_zero j)
    have hrest : Ends r n (i + 1) (r.search n (i + 1)) := ih
    rw [Request.search]
    cases hw : r.info i .width with
    | none => exact .cut 0 (Nat.succ_pos n) hnone (.inl hw)
    | some w =>
      rw [Option.bind_eq_bind, Option.bind_some]
      by_cases hwidth : w = r.width
      · rw [if_pos hwidth]
        rw [hwidth] at hw
        cases hh : r.info i .height with
        | none => exact .cut 0 (Nat.succ_pos n) hnone (.inr ⟨hw, hh⟩)
        | some h =>
          rw [Option.bind_some]
          by_cases hheight : h = r.height
          · rw [if_pos hheight]
            rw [hheight] at hh
            exact .hit 0 (Nat.succ_pos n) hnone ⟨hw, hh⟩
          · rw [if_neg hheight]
            exact hrest.next ⟨r.width, hw, fun _ => ⟨h, hh, hheight⟩⟩
      · rw [if_neg hwidth]
        exact hrest.next ⟨w, hw, fun hsame => absurd hsame hwidth⟩

theorem Request.Reaches.unique (hi : r.Reaches i) (hk : r.Reaches k) (hi' : ¬ r.Passed i)
    (hk' : ¬ r.Passed k) : i = k := by
  rcases Nat.lt_trichotomy i k with h | h | h
  · exact absurd (hk.2 i h) hi'
  · exact h
  · exact absurd (hi.2 k h) hk'

inductive Checks (r : Request) : Option (Option ℕ) → Prop
  | all (hpassed : ∀ i, r.Reaches i → r.Passed i) : Checks r (some none)
  | hit (k : ℕ) (hreach : r.Reaches k) (hhit : r.Hit k) : Checks r (some (some k))
  | cut (k : ℕ) (hreach : r.Reaches k) (hcut : r.Cut k) : Checks r none

theorem checkValidateLogo_checks {num : UInt32} (hnum : r.logoNum = some num) :
    Checks r r.checkValidateLogo := by
  have hends : Ends r num.toNat 0 (r.search num.toNat 0) := search_ends
  have hreach {k : ℕ} (hk : k < num.toNat) (hpassed : ∀ j < k, r.Passed (0 + j)) : r.Reaches (0 + k) := by
    simp only [Nat.zero_add] at hpassed ⊢
    exact ⟨⟨num, hnum, hk⟩, hpassed⟩
  rw [Request.checkValidateLogo, hnum, Option.bind_eq_bind, Option.bind_some]
  generalize r.search num.toNat 0 = result at *
  cases hends with
  | all hpassed =>
    refine .all fun i hi => ?_
    obtain ⟨⟨m, hm, hlt⟩, -⟩ := hi
    rw [Option.some.inj (hm.symm.trans hnum)] at hlt
    rw [← Nat.zero_add i]
    exact hpassed i hlt
  | hit k hk hpassed hhit => exact .hit (0 + k) (hreach hk hpassed) hhit
  | cut k hk hpassed hcut => exact .cut (0 + k) (hreach hk hpassed) hcut

theorem Request.Reaches.eq_of_stops (hk : r.Reaches k) (hk' : ¬ r.Passed k) (hi : r.Reaches i)
    (h : r.Cut i ∨ r.Hit i) : i = k := by
  refine hi.unique hk (fun hpassed => ?_) hk'
  cases h with
  | inl hcut => exact hpassed.not_cut hcut
  | inr hhit => exact hpassed.not_hit hhit

end Search

section Pictures

variable {d : Device}

theorem fits_iff (stride height : UInt32) {offset : ℕ} (hoffset : offset < d.blksz) :
    Fits ⟨(stride * height + UInt32.ofNat d.blksz * 2).toNat,
        ((stride * height).toNat / d.blksz + 2) * d.blksz, offset, stride, height⟩ ↔
      stride.toNat * height.toNat + 2 * d.blksz < 2 ^ 32 := by
  have hlt := d.lt
  have hallocated : (stride * height + UInt32.ofNat d.blksz * 2).toNat =
      ((stride * height).toNat + 2 * d.blksz) % 2 ^ 32 := by
    rw [UInt32.toNat_add, UInt32.toNat_mul (UInt32.ofNat _), UInt32.toNat_ofNat']
    change (_ + d.blksz % 2 ^ 32 * 2 % 2 ^ 32) % 2 ^ 32 = _
    omega
  have hproduct : (stride * height).toNat = stride.toNat * height.toNat % 2 ^ 32 := UInt32.toNat_mul _ _
  have hdiv := Nat.div_mul_le_self (stride * height).toNat d.blksz
  constructor
  · intro h
    have hpicture := h.picture
    dsimp only at hpicture
    rw [hallocated, hproduct] at hpicture
    generalize stride.toNat * height.toNat = size at *
    omega
  · intro h
    rw [hallocated]
    refine ⟨?_, ?_⟩
    · dsimp only
      rw [Nat.add_mul]
      generalize stride.toNat * height.toNat = size at *
      omega
    · dsimp only
      rw [hproduct]
      generalize stride.toNat * height.toNat = size at *
      omega

end Pictures

section Loading

variable {d : Device} {part fresh : Ram} {malloc : ℕ → Bool} {r : Request} {i : ℕ} {stride : UInt32}

theorem info_offset {f : Field} {x : UInt32} (h : r.info i f = some x) : ∃ y, r.info i .offset = some y := by
  unfold Request.info Buffer.load32 at h ⊢
  split at h
  · refine ⟨_, if_pos ?_⟩
    rw [Field.place]
    omega
  · cases h

theorem loadPicture_stride (h : r.info i .stride = none) : loadPicture d part fresh malloc r i = none := by
  rw [loadPicture, h]
  rfl

theorem loadPicture_safe_iff (hhit : r.Hit i) (hstride : r.info i .stride = some stride) :
    MemorySafe (loadPicture d part fresh malloc r i) ↔
      (malloc (stride * r.height + UInt32.ofNat d.blksz * 2).toNat = true →
        stride.toNat * r.height.toNat + 2 * d.blksz < 2 ^ 32) := by
  obtain ⟨offset, hoffset⟩ := info_offset hstride
  rw [loadPicture, hstride, hhit.2, hoffset]
  simp only [Option.bind_eq_bind, Option.bind_some]
  by_cases hmalloc : malloc (stride * r.height + UInt32.ofNat d.blksz * 2).toNat = true
  · rw [if_pos hmalloc]
    have hstart := Nat.mod_lt (offset + UInt32.ofNat d.genxImageHeaderFastlogoSize).toNat d.pos
    have hfits := fits_iff stride r.height hstart
    constructor
    · rintro ⟨o, ho, hsafe⟩ -
      exact hfits.mp (hsafe _ (Option.some.inj ho).symm)
    · intro h
      refine ⟨_, rfl, fun p hp => ?_⟩
      rw [← Outcome.loaded.inj hp]
      exact hfits.mpr (h hmalloc)
  · rw [if_neg hmalloc]
    refine iff_of_true ⟨_, rfl, fun p hp => ?_⟩ fun h => absurd h hmalloc
    cases hp

theorem not_safe_none : ¬ MemorySafe none := by
  rintro ⟨o, ho, -⟩
  cases ho

theorem found_safe_iff {k : ℕ} (hreach : r.Reaches k) (hhit : r.Hit k) :
    MemorySafe (loadPicture d part fresh malloc r k) ↔
      ¬ r.Overruns ∧ ∀ i stride, r.Finds i stride →
        malloc (stride * r.height + UInt32.ofNat d.blksz * 2).toNat = true →
          stride.toNat * r.height.toNat + 2 * d.blksz < 2 ^ 32 := by
  have hstop : ¬ r.Passed k := fun h => h.not_hit hhit
  cases hstride : r.info k .stride with
  | none =>
    rw [loadPicture_stride hstride]
    exact iff_of_false not_safe_none fun h => h.1 ⟨k, hreach, .inr ⟨hhit, hstride⟩⟩
  | some stride =>
    rw [loadPicture_safe_iff hhit hstride]
    constructor
    · intro h
      refine ⟨?_, fun i s hfinds => ?_⟩
      · rintro ⟨i, hi, hcut⟩
        have hik : i = k := hreach.eq_of_stops hstop hi (hcut.imp_right And.left)
        rw [hik, hstride] at hcut
        obtain hcut | ⟨-, hnone⟩ := hcut
        · exact hhit.not_cut hcut
        · cases hnone
      · obtain ⟨hi, hhits, hs⟩ := hfinds
        rw [hreach.eq_of_stops hstop hi (.inr hhits), hstride] at hs
        rw [← Option.some.inj hs]
        exact h
    · intro h
      exact h.2 k stride ⟨hreach, hhit, hstride⟩

theorem logoNum_read (d : Device) (part fresh : Ram) (width height : UInt32) :
    ∃ n, (request d part fresh width height).logoNum = some n := by
  have hstart := Nat.mod_lt (UInt32.ofNat d.genxImageHeaderFastlogoSize).toNat d.pos
  refine ⟨_, if_pos ?_⟩
  change _ % d.blksz + 4 + 4 ≤ 1024 + d.genxImageHeaderFastlogoSize + d.blksz * 2
  omega

theorem header_blocks_fit (offset : UInt32) :
    (synaEmmcReadFromOffset d part offset (UInt32.ofNat d.logoHeaderSize) fresh).written ≤
      d.logoHeaderSize + d.blksz * 2 := by
  have hsize : (UInt32.ofNat d.logoHeaderSize).toNat ≤ d.logoHeaderSize := by
    rw [UInt32.toNat_ofNat']
    exact Nat.mod_le _ _
  have hdiv := Nat.div_mul_le_self (UInt32.ofNat d.logoHeaderSize).toNat d.blksz
  change ((UInt32.ofNat d.logoHeaderSize).toNat / d.blksz + 2) * d.blksz ≤ _
  rw [Nat.add_mul]
  omega

theorem not_overruns {n : UInt32} (hn : r.logoNum = some n)
    (hroom : r.header + 8 + 16 * n.toNat ≤ r.buffer.size) : ¬ r.Overruns := by
  have hinside {k : ℕ} (hk : k < n.toNat) (f : Field) : r.info k f ≠ none := by
    have hplace : f.place ≤ 12 := by cases f <;> decide
    rw [Request.info, Buffer.load32, if_pos (by omega)]
    exact Option.some_ne_none _
  rintro ⟨k, ⟨⟨m, hm, hk⟩, -⟩, hcut⟩
  rw [Option.some.inj (hm.symm.trans hn)] at hk
  obtain (hnone | ⟨-, hnone⟩) | ⟨-, hnone⟩ := hcut
  · exact hinside hk .width hnone
  · exact hinside hk .height hnone
  · exact hinside hk .stride hnone

end Loading

/-- Safe: the header has its buffer, the search stays in it, and the size fits into 32 bits. -/
theorem logo_safe_iff (d : Device) (part fresh : Ram) (malloc : ℕ → Bool) (width height : UInt32) :
    MemorySafe (synaLoadLogoInfo d (some part) fresh malloc width height) ↔
      malloc (d.logoHeaderSize + d.blksz * 2) = true ∧
        ¬ (request d part fresh width height).Overruns ∧
          ∀ i stride, (request d part fresh width height).Finds i stride →
            malloc (stride * height + UInt32.ofNat d.blksz * 2).toNat = true →
              stride.toNat * height.toNat + 2 * d.blksz < 2 ^ 32 := by
  rw [synaLoadLogoInfo]
  by_cases hmalloc : malloc (d.logoHeaderSize + d.blksz * 2) = true
  swap
  · rw [if_neg hmalloc]
    exact iff_of_false not_safe_none fun h => hmalloc h.1
  rw [if_pos hmalloc, and_iff_right hmalloc]
  have hheight : (request d part fresh width height).height = height := rfl
  obtain ⟨num, hnum⟩ := logoNum_read d part fresh width height
  have hchecks := checkValidateLogo_checks hnum
  dsimp only
  generalize request d part fresh width height = r at *
  subst hheight
  generalize r.checkValidateLogo = result at *
  cases hchecks with
  | all hpassed =>
    refine iff_of_true ⟨_, rfl, fun p hp => by cases hp⟩ ⟨?_, fun i stride hfinds => ?_⟩
    · rintro ⟨i, hi, hcut | ⟨hhit, -⟩⟩
      · exact absurd hcut (hpassed i hi).not_cut
      · exact absurd hhit (hpassed i hi).not_hit
    · exact absurd hfinds.2.1 (hpassed i hfinds.1).not_hit
  | hit k hreach hhit => exact found_safe_iff hreach hhit
  | cut k hreach hcut => exact iff_of_false not_safe_none fun h => h.1 ⟨k, hreach, .inl hcut⟩

def emmc : Device := ⟨false, 512, by decide, by decide⟩

def crowded : Ram := fun a => if a = 4 then 200 else 0

def tall : Ram := fun a => if a = 4 ∨ a = 12 ∨ a = 18 ∨ a = 22 then 1 else 0

theorem logo_leaves_buffers :
    synaLoadLogoInfo emmc (some crowded) (fun _ => 0) (fun _ => true) 1 1 = none ∧
      synaLoadLogoInfo emmc (some tall) (fun _ => 0) (fun _ => true) 1 65536 =
          some (.loaded ⟨1024, 1024, 0, 65536, 65536⟩) ∧
        ¬ Fits ⟨1024, 1024, 0, 65536, 65536⟩ := by
  refine ⟨by decide +kernel, by decide +kernel, fun h => ?_⟩
  exact absurd h.picture (by decide)

end SynaBoot.FastLogo
