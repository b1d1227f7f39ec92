import Mathlib.Data.Nat.Bitwise
import SynaBoot.CircularBuffer
import SynaBoot.Schedules

namespace SynaBoot.IrSamples

open SynaBoot.CircularBuffer

abbrev Cbuffer := Buffer 256 UInt32

scoped instance cbuffLength : NeZero 256 := ⟨by decide⟩

def levelLen (w : UInt32) : ℕ := (w &&& 0x7fffffff).toNat

def isHigh (w : UInt32) : Bool := w &&& 0x80000000 != 0

def sample (len highLow : UInt32) : UInt32 :=
  (len &&& (0x7fffffff : UInt32)) ||| (highLow <<< (31 : UInt32))

/-- `store_ircbuffer`; a full buffer loses its oldest sample. -/
def storeIrcbuffer (len highLow : UInt32) (b : Cbuffer) : Cbuffer :=
  let b := b.push (sample len highLow)
  if b.stop = b.start then b.skip else b

def noCode : UInt32 := 0xffffffff

def smSystemHz : ℕ := 25

def timerTicks : ℕ := 1000 * 1000 * smSystemHz

def lengthCaculate (ticks prevTicks : UInt32) : UInt32 :=
  if prevTicks < ticks then ticks - prevTicks else ticks - prevTicks + UInt32.ofNat timerTicks

section Samples

variable {len : UInt32} {high : Bool} {b : Cbuffer}

theorem toNat_sample (h : len.toNat < 2 ^ 31) :
    (sample len high.toUInt32).toNat = high.toNat * 2 ^ 31 + len.toNat := by
  have hmask : (len &&& 0x7fffffff).toNat = len.toNat := by
    rw [UInt32.toNat_and]
    change len.toNat &&& (2 ^ 31 - 1) = _
    rw [Nat.and_two_pow_sub_one_eq_mod, Nat.mod_eq_of_lt h]
  rw [sample, UInt32.toNat_or, hmask]
  cases high with
  | false =>
    have hbit : (Bool.toUInt32 false <<< (31 : UInt32)).toNat = 0 := by decide
    rw [hbit, Nat.or_zero, Bool.toNat_false, Nat.zero_mul, Nat.zero_add]
  | true =>
    have hbit : (Bool.toUInt32 true <<< (31 : UInt32)).toNat = 2 ^ 31 * 1 := by decide
    rw [hbit, Nat.or_comm, ← Nat.two_pow_add_eq_or_of_lt h]
    rfl

theorem levelLen_sample (h : len.toNat < 2 ^ 31) :
    levelLen (sample len high.toUInt32) = len.toNat := by
  rw [levelLen, UInt32.toNat_and, toNat_sample h]
  change _ &&& (2 ^ 31 - 1) = _
  rw [Nat.and_two_pow_sub_one_eq_mod, Nat.mul_add_mod_of_lt h]

theorem isHigh_sample (h : len.toNat < 2 ^ 31) : isHigh (sample len high.toUInt32) = high := by
  have htest : (sample len high.toUInt32).toNat.testBit 31 = high := by
    rw [toNat_sample h]
    cases high with
    | false => simpa using Nat.testBit_lt_two_pow h
    | true =>
      rw [Bool.toNat_true, Nat.one_mul, Nat.testBit_two_pow_add_eq, Nat.testBit_lt_two_pow h]
      rfl
  have hand : (sample len high.toUInt32 &&& 0x80000000).toNat = high.toNat * 2 ^ 31 := by
    rw [UInt32.toNat_and]
    change _ &&& 2 ^ 31 = _
    rw [Nat.and_two_pow, htest, Nat.mul_comm]
  cases high with
  | false =>
    have hzero : sample len (Bool.toUInt32 false) &&& 0x80000000 = 0 := UInt32.toNat_inj.mp hand
    rw [isHigh, hzero]
    rfl
  | true =>
    rw [isHigh, bne_iff_ne]
    intro hzero
    rw [hzero] at hand
    exact absurd hand (by decide)

theorem contents_store {highLow : UInt32} (h : b.pending < 255) :
    (storeIrcbuffer len highLow b).contents = b.contents ++ [sample len highLow] := by
  have hpush := Buffer.contents_push (b := b) (x := sample len highLow) (by omega)
  have hne : (b.push (sample len highLow)).stop ≠ (b.push (sample len highLow)).start := by
    intro heq
    rw [Buffer.contents_eq_nil_iff.mpr heq.symm] at hpush
    exact absurd hpush.symm (List.append_ne_nil_of_right_ne_nil _ (List.cons_ne_nil _ _))
  rw [storeIrcbuffer, if_neg hne, hpush]

end Samples

section Timer

variable {t₀ t₁ : UInt32} {e : ℕ}

/-- From one reading of the timer to another, `e` ticks pass. -/
def Elapsed (t₀ t₁ : UInt32) (e : ℕ) : Prop :=
  t₀.toNat ≤ timerTicks ∧ t₁.toNat ≤ timerTicks ∧ (t₀.toNat + e) % timerTicks = t₁.toNat % timerTicks

instance (t₀ t₁ : UInt32) (e : ℕ) : Decidable (Elapsed t₀ t₁ e) :=
  inferInstanceAs (Decidable (_ ∧ _ ∧ _))

theorem lengthCaculate_of_elapsed (h : Elapsed t₀ t₁ e) (hpos : 0 < e) (hlt : e < timerTicks) :
    (lengthCaculate t₁ t₀).toNat = e := by
  obtain ⟨h₀, h₁, hmod⟩ := h
  have hticks : timerTicks = 25000000 := rfl
  have hconst : (UInt32.ofNat timerTicks).toNat = 25000000 := rfl
  rw [hticks] at h₀ h₁ hmod hlt
  unfold lengthCaculate
  split
  · next hlt' =>
    rw [UInt32.lt_iff_toNat_lt] at hlt'
    rw [UInt32.toNat_sub_of_le _ _ (UInt32.le_iff_toNat_le.mpr hlt'.le)]
    omega
  · next hle =>
    rw [UInt32.lt_iff_toNat_lt] at hle
    rw [UInt32.toNat_add, UInt32.toNat_sub, hconst]
    omega

end Timer

end SynaBoot.IrSamples
