import Mathlib.Algebra.BigOperators.Group.Finset.Basic
import Mathlib.Algebra.Order.BigOperators.Group.Finset
import SynaBoot.PairDecoder

namespace SynaBoot.PairFrames

open SynaBoot.CircularBuffer SynaBoot.CText SynaBoot.IrSamples SynaBoot.PairDecoder SynaBoot.Schedules

structure Pulse where
  low : UInt32
  high : UInt32
  low_lt : low.toNat < 2 ^ 31
  high_lt : high.toNat < 2 ^ 31
  deriving DecidableEq

namespace Pulse

def ofTicks (low high : ℕ) : Pulse where
  low := UInt32.ofNat (low % 2 ^ 31)
  high := UInt32.ofNat (high % 2 ^ 31)
  low_lt := by
    rw [UInt32.toNat_ofNat']
    exact lt_of_le_of_lt (Nat.mod_le _ _) (Nat.mod_lt low (Nat.two_pow_pos 31))
  high_lt := by
    rw [UInt32.toNat_ofNat']
    exact lt_of_le_of_lt (Nat.mod_le _ _) (Nat.mod_lt high (Nat.two_pow_pos 31))

def samples (u : Pulse) : List UInt32 := [sample u.low 0, sample u.high 1]

def length (u : Pulse) : ℕ := u.low.toNat + u.high.toNat

def twin (u : Pulse) : ℤ := int32 (u.low.toNat + u.high.toNat)

end Pulse

structure Frame where
  preamble : Pulse
  data : List (Bool × Pulse)
  gap : Pulse
  deriving DecidableEq

def Frame.pulses (f : Frame) : List Pulse := f.preamble :: (f.data.map Prod.snd ++ [f.gap])

def wave (fs : List Frame) : List UInt32 := (fs.flatMap Frame.pulses).flatMap Pulse.samples

section Ranges

variable (p : Protocol)

def IsPreamble (u : Pulse) : Prop :=
  p.preambMinLen < u.length ∧ u.length < p.preambMaxLen ∧
    p.preambMinLow < u.low.toNat ∧ u.low.toNat < p.preambMaxLow

instance (u : Pulse) : Decidable (IsPreamble p u) := inferInstanceAs (Decidable (_ ∧ _ ∧ _ ∧ _))

def Carries (b : Bool) (u : Pulse) : Prop :=
  (if b then p.data1MinLen else p.data0MinLen) < u.length ∧
    u.length < (if b then p.data1MaxLen else p.data0MaxLen)

instance (b : Bool) (u : Pulse) : Decidable (Carries p b u) := inferInstanceAs (Decidable (_ ∧ _))

structure Complete (f : Frame) : Prop where
  preamble : IsPreamble p f.preamble
  length : f.data.length = 32
  data : ∀ x ∈ f.data, Carries p x.1 x.2
  gap : p.preambMaxLen < f.gap.high.toNat

structure Sound : Prop where
  data : p.data0MaxLen ≤ p.data1MinLen
  data0 : p.data0MaxLen ≤ 2 ^ 31
  data1 : p.data1MaxLen ≤ 2 ^ 31
  preamb : 0 ≤ p.preambMinLen ∧ p.preambMaxLen ≤ 2 ^ 31
  frame : p.frameMaxLen.toNat < timerTicks

def accumulate (code : UInt32) (codeBit : ℕ) : List Bool → UInt32
  | [] => code
  | b :: bs => accumulate (code + b.toUInt32 <<< UInt32.ofNat (p.shift codeBit)) (codeBit + 1) bs

def Frame.code (f : Frame) : UInt32 := accumulate p 0 0 (f.data.map Prod.fst)

def bits (place : ℕ → ℕ) (c : UInt32) : List Bool :=
  (List.range 32).map fun i => c.toNat.testBit (place i)

def Ignored (u : Pulse) : Prop := isPreamble p u.twin u.low.toNat = false

inductive At (hold : Bool) (d : Decoder) (us : List Pulse) (cs : List UInt32) : Prop
  | idle (skip : List Pulse) (fs : List Frame) (found : d.preambleFound = false) (bit : d.codeBit ≠ 32)
      (maybe : d.preambleMaybeHold = true → hold = true) (ignored : ∀ u ∈ skip, Ignored p u)
      (complete : ∀ f ∈ fs, Complete p f)
      (short : ∀ f ∈ fs, f.preamble.length < p.preambHoldMax → hold = true)
      (pulses : us = skip ++ fs.flatMap Frame.pulses) (codes : cs = fs.map (Frame.code p))
  | data (x : Bool × Pulse) (ds : List (Bool × Pulse)) (skip : List Pulse) (fs : List Frame)
      (found : d.preambleFound = true) (bit : d.codeBit + (ds.length + 1) = 32)
      (maybe : d.preambleMaybeHold = true → hold = true) (ignored : ∀ u ∈ skip, Ignored p u)
      (complete : ∀ f ∈ fs, Complete p f)
      (short : ∀ f ∈ fs, f.preamble.length < p.preambHoldMax → hold = true)
      (carries : ∀ y ∈ x :: ds, Carries p y.1 y.2)
      (pulses : us = (x :: ds).map Prod.snd ++ (skip ++ fs.flatMap Frame.pulses))
      (codes : cs = accumulate p d.code d.codeBit ((x :: ds).map Prod.fst) :: fs.map (Frame.code p))

end Ranges

structure SameFrame (d d' : Decoder) : Prop where
  found : d'.preambleFound = d.preambleFound
  maybe : d'.preambleMaybeHold = d.preambleMaybeHold
  code : d'.code = d.code
  bit : d'.codeBit = d.codeBit

section Steps

variable {p : Protocol} {now : ℕ → UInt32} {hold : Bool} {s : Pass} {d d' : Decoder} {u : Pulse}
  {us : List Pulse} {cs : List UInt32}

theorem twin_eq : u.twin = int32 u.length := by
  rw [Pulse.twin, Pulse.length, Nat.cast_add]

theorem twin_of_lt (h : u.length < 2 ^ 31) : u.twin = u.length := by
  rw [twin_eq]
  exact int32_of_range (by omega)

theorem Carries.length_lt {b : Bool} (hp : Sound p) (h : Carries p b u) : u.length < 2 ^ 31 := by
  have hmax₀ := hp.data0
  have hmax₁ := hp.data1
  have hlt := h.2
  cases b with
  | false =>
    rw [if_neg Bool.false_ne_true] at hlt
    omega
  | true =>
    rw [if_pos rfl] at hlt
    omega

theorem IsPreamble.length_lt (hp : Sound p) (h : IsPreamble p u) : u.length < 2 ^ 31 := by
  have hlt := h.2.1
  have hmax := hp.preamb.2
  omega

theorem IsPreamble.test (hp : Sound p) (h : IsPreamble p u) :
    isPreamble p u.twin u.low.toNat = true := by
  rw [twin_of_lt (h.length_lt hp), isPreamble]
  simp only [Bool.and_eq_true, decide_eq_true_eq]
  exact ⟨⟨h.1, h.2.1⟩, h.2.2⟩

theorem ignored_of_long (hp : Sound p) (h : p.preambMaxLen < u.length) : Ignored p u := by
  refine Bool.eq_false_of_not_eq_true fun htest => ?_
  rw [isPreamble] at htest
  simp only [Bool.and_eq_true, decide_eq_true_eq] at htest
  obtain ⟨⟨hmin, hmax⟩, -⟩ := htest
  have hnonneg := hp.preamb.1
  have hlow := u.low_lt
  have hhigh := u.high_lt
  by_cases hlt : u.length < 2 ^ 31
  · rw [twin_of_lt hlt] at hmax
    omega
  · have hlen : u.length = u.low.toNat + u.high.toNat := rfl
    have hneg : u.twin = u.length - 2 ^ 32 := by
      rw [twin_eq, int32, ← Int.sub_bmod_right]
      exact int32_of_range (by omega)
    omega

theorem Complete.gap_ignored {f : Frame} (hp : Sound p) (hf : Complete p f) : Ignored p f.gap := by
  refine ignored_of_long hp ?_
  have hgap := hf.gap
  have hlen : f.gap.length = f.gap.low.toNat + f.gap.high.toNat := rfl
  omega

theorem pair_ignored (hfound : s.decoder.preambleFound = false) (hbit : s.decoder.codeBit ≠ 32)
    (hu : Ignored p u) : pair p now u.low.toNat u.high.toNat s = s := by
  rw [pair, if_neg (by rw [hfound]; exact Bool.false_ne_true)]
  change (if isPreamble p u.twin u.low.toNat = true then _ else _) = s
  rw [if_neg (by rw [hu]; exact Bool.false_ne_true), endFrame, if_neg hbit]

theorem pair_preamble (hp : Sound p) (hfound : s.decoder.preambleFound = false)
    (hu : IsPreamble p u) :
    pair p now u.low.toNat u.high.toNat s = startFrame p now u.twin s := by
  rw [pair, if_neg (by rw [hfound]; exact Bool.false_ne_true)]
  change (if isPreamble p u.twin u.low.toNat = true then _ else _) = _
  rw [if_pos (hu.test hp), endFrame, if_neg (by exact (by decide : (0 : ℕ) ≠ 32))]
  rfl

theorem pair_carries {b : Bool} (hp : Sound p) (hfound : s.decoder.preambleFound = true)
    (hu : Carries p b u) :
    pair p now u.low.toNat u.high.toNat s = endFrame (addBit p { s with data := b.toUInt32 }) := by
  have htwin : int32 (u.low.toNat + u.high.toNat) = u.length := twin_of_lt (hu.length_lt hp)
  rw [pair, if_pos hfound, htwin]
  obtain ⟨hmin, hmax⟩ := hu
  cases b with
  | true =>
    rw [if_pos rfl] at hmin hmax
    exact if_pos ⟨hmin, hmax⟩
  | false =>
    rw [if_neg Bool.false_ne_true] at hmin hmax
    have hdata := hp.data
    rw [if_neg (by omega), if_pos ⟨hmin, hmax⟩]
    rfl

theorem At.congr (h : At p hold d us cs) (hd : SameFrame d d') : At p hold d' us cs := by
  cases h with
  | idle skip fs found bit maybe ignored complete short pulses codes =>
    exact .idle skip fs (hd.found.trans found) (by rw [hd.bit]; exact bit)
      (by rw [hd.maybe]; exact maybe) ignored complete short pulses codes
  | data x ds skip fs found bit maybe ignored complete short carries pulses codes =>
    exact .data x ds skip fs (hd.found.trans found) (by rw [hd.bit]; exact bit)
      (by rw [hd.maybe]; exact maybe) ignored complete short carries pulses
      (by rw [hd.bit, hd.code]; exact codes)

theorem At.maybe_false (h : At p false d us cs) : d.preambleMaybeHold = false := by
  cases h with
  | idle _ _ _ _ maybe | data _ _ _ _ _ _ maybe =>
    exact Bool.eq_false_of_not_eq_true fun hmaybe => Bool.false_ne_true (maybe hmaybe)

theorem At.codes_nil (h : At p hold d [] cs) : cs = [] := by
  cases h with
  | idle skip fs found bit maybe ignored complete short pulses codes =>
    cases fs with
    | nil => exact codes
    | cons f fs =>
      have hnil := (List.append_eq_nil_iff.mp pulses.symm).2
      cases hnil
  | data x ds skip fs found bit maybe ignored complete short carries pulses codes => cases pulses

theorem At.found_nil (h : At p hold d [] cs) : d.preambleFound = false := by
  cases h with
  | idle skip fs found => exact found
  | data x ds skip fs found bit maybe ignored complete short carries pulses codes => cases pulses

theorem pair_at (now : ℕ → UInt32) (hp : Sound p) (hs : s.rcvCode = noCode) (h : At p hold s.decoder (u :: us) cs) :
    ∃ cs', At p hold (pair p now u.low.toNat u.high.toNat s).decoder us cs' ∧
      ((pair p now u.low.toNat u.high.toNat s).rcvCode = noCode ∧ cs' = cs ∨
        cs = (pair p now u.low.toNat u.high.toNat s).rcvCode :: cs') := by
  cases h with
  | idle skip fs found bit maybe ignored complete short pulses codes =>
    cases skip with
    | cons v skip =>
      obtain ⟨rfl, rfl⟩ := List.cons.inj pulses
      have hkeep : pair p now u.low.toNat u.high.toNat s = s :=
        pair_ignored found bit (ignored u List.mem_cons_self)
      rw [hkeep]
      exact ⟨cs, .idle skip fs found bit maybe (fun v hv => ignored v (List.mem_cons_of_mem u hv))
        complete short rfl codes, .inl ⟨hs, rfl⟩⟩
    | nil =>
      cases fs with
      | nil => cases pulses
      | cons f fs =>
        obtain ⟨rfl, rfl⟩ := List.cons.inj pulses
        have hf := complete f List.mem_cons_self
        rw [pair_preamble hp found hf.preamble]
        obtain ⟨x, ds, hdata⟩ := List.exists_cons_of_length_eq_add_one hf.length
        refine ⟨cs, .data x ds [f.gap] fs rfl ?_ ?_ ?_ ?_ ?_ ?_ ?_ ?_, .inl ⟨hs, rfl⟩⟩
        · have hlen := hf.length
          rw [hdata, List.length_cons] at hlen
          exact (Nat.zero_add _).trans hlen
        · intro hmaybe
          have hshort : f.preamble.twin < p.preambHoldMax := of_decide_eq_true hmaybe
          rw [twin_of_lt (hf.preamble.length_lt hp)] at hshort
          exact short f List.mem_cons_self hshort
        · intro v hv
          rw [List.mem_singleton.mp hv]
          exact hf.gap_ignored hp
        · exact fun g hg => complete g (List.mem_cons_of_mem f hg)
        · exact fun g hg => short g (List.mem_cons_of_mem f hg)
        · rw [← hdata]
          exact hf.data
        · rw [← hdata]
          exact List.append_assoc _ _ _
        · rw [← hdata]
          exact codes
  | data x ds skip fs found bit maybe ignored complete short carries pulses codes =>
    obtain ⟨rfl, rfl⟩ := List.cons.inj pulses
    rw [pair_carries hp found (carries x List.mem_cons_self)]
    have hlt : s.decoder.codeBit < 32 := by omega
    rw [addBit, if_pos hlt]
    cases ds with
    | nil =>
      have hlast : s.decoder.codeBit + 1 = 32 := bit
      rw [endFrame, if_pos hlast]
      exact ⟨_, .idle skip fs rfl (by decide : (0 : ℕ) ≠ 32) maybe ignored complete short rfl rfl,
        .inr codes⟩
    | cons y ds =>
      have hmore : s.decoder.codeBit + 1 ≠ 32 := by
        rw [List.length_cons] at bit
        omega
      rw [endFrame, if_neg hmore]
      refine ⟨cs, .data y ds skip fs found ?_ maybe ignored complete short ?_ rfl codes, .inl ⟨hs, rfl⟩⟩
      · rw [← bit, List.length_cons]
        change s.decoder.codeBit + 1 + _ = _
        omega
      · exact fun z hz => carries z (List.mem_cons_of_mem x hz)

end Steps

section Codes

open Finset

variable {p : Protocol} {c code : UInt32} {n m : ℕ}

theorem sum_testBit (x n : ℕ) : ∑ i ∈ range n, (x.testBit i).toNat * 2 ^ i = x % 2 ^ n := by
  induction n with
  | zero => rw [range_zero, sum_empty, pow_zero, Nat.mod_one]
  | succ n ih => rw [sum_range_succ, ih, Nat.mod_pow_succ, Nat.toNat_testBit, Nat.mul_comm]

def partialCode (p : Protocol) (c : UInt32) (n : ℕ) : ℕ :=
  ∑ i ∈ range n, (c.toNat.testBit (p.shift i)).toNat * 2 ^ p.shift i

theorem partialCode_all (hshift : (range 32).image p.shift = range 32) :
    partialCode p c 32 = c.toNat := by
  have hinj : Set.InjOn p.shift (range 32) := injOn_of_card_image_eq (by rw [hshift])
  have himage := sum_image (f := fun i => (c.toNat.testBit i).toNat * 2 ^ i) hinj
  rw [hshift, sum_testBit, Nat.mod_eq_of_lt c.toNat_lt] at himage
  exact himage.symm

theorem toNat_shiftLeft_bit {b : Bool} {k : ℕ} (hk : k < 32) :
    (b.toUInt32 <<< UInt32.ofNat k).toNat = b.toNat * 2 ^ k := by
  have hk' : (UInt32.ofNat k).toNat % 32 = k := by
    rw [UInt32.toNat_ofNat']
    omega
  rw [UInt32.toNat_shiftLeft, hk']
  cases b with
  | false =>
    rw [Bool.toNat_false, Nat.zero_mul]
    change 0 <<< k % 2 ^ 32 = 0
    rw [Nat.zero_shiftLeft]
  | true =>
    rw [Bool.toNat_true, Nat.one_mul]
    change 1 <<< k % 2 ^ 32 = 2 ^ k
    rw [Nat.one_shiftLeft]
    exact Nat.mod_eq_of_lt (Nat.pow_lt_pow_right (by decide) hk)

theorem accumulate_range (hshift : (range 32).image p.shift = range 32) (hn : n + m = 32)
    (hcode : code.toNat = partialCode p c n) :
    accumulate p code n ((List.range' n m).map fun i => c.toNat.testBit (p.shift i)) = c := by
  induction m generalizing n code with
  | zero =>
    rw [Nat.add_zero] at hn
    rw [hn, partialCode_all hshift] at hcode
    exact UInt32.toNat_inj.mp hcode
  | succ m ih =>
    rw [List.range'_succ, List.map_cons, accumulate]
    refine ih (by omega) ?_
    have hlt : p.shift n < 32 := by
      have hmem : p.shift n ∈ (range 32).image p.shift :=
        mem_image_of_mem _ (mem_range.mpr (by omega))
      rw [hshift] at hmem
      exact mem_range.mp hmem
    have hnext : partialCode p c (n + 1) = partialCode p c n + _ := sum_range_succ _ n
    have hle : partialCode p c (n + 1) ≤ partialCode p c 32 :=
      sum_le_sum_of_subset (range_subset_range.mpr (by omega))
    rw [partialCode_all hshift] at hle
    rw [UInt32.toNat_add, toNat_shiftLeft_bit hlt, hcode, hnext]
    have hbound := c.toNat_lt
    exact Nat.mod_eq_of_lt (by omega)

theorem accumulate_bits (hshift : (range 32).image p.shift = range 32) :
    accumulate p 0 0 (bits p.shift c) = c := by
  rw [bits, List.range_eq_range']
  exact accumulate_range hshift (Nat.zero_add 32) rfl

theorem codes_of_frames {R : UInt32 → Frame → Prop} {P : Frame → Prop} {codes : List UInt32}
    {frames : List Frame} (hR : ∀ c f, R c f → f.code p = c ∧ P f) (h : List.Forall₂ R codes frames) :
    frames.map (Frame.code p) = codes ∧ ∀ f ∈ frames, P f := by
  induction h with
  | nil => exact ⟨rfl, fun f hf => absurd hf List.not_mem_nil⟩
  | cons hf _ ih =>
    obtain ⟨hcode, hP⟩ := hR _ _ hf
    refine ⟨by rw [List.map_cons, hcode, ih.1], fun g hg => ?_⟩
    rcases List.mem_cons.mp hg with rfl | hg
    · exact hP
    · exact ih.2 g hg

end Codes

end SynaBoot.PairFrames
