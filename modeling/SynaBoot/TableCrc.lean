import Mathlib.Tactic

namespace SynaBoot.TableCrc

def leWord (a b c d : UInt8) : UInt32 :=
  UInt32.ofNat (a.toNat + b.toNat * 2 ^ 8 + c.toNat * 2 ^ 16 + d.toNat * 2 ^ 24)

def leBytes (w : UInt32) : List UInt8 :=
  [w.toUInt8, (w >>> 8).toUInt8, (w >>> 8 >>> 8).toUInt8, (w >>> 8 >>> 8 >>> 8).toUInt8]

theorem toNat_shift_byte (w : UInt32) : (w >>> 8).toNat = w.toNat / 2 ^ 8 := by
  simp [Nat.shiftRight_eq_div_pow]

theorem leBytes_leWord (a b c d : UInt8) : leBytes (leWord a b c d) = [a, b, c, d] := by
  have ha := a.toNat_lt
  have hb := b.toNat_lt
  have hc := c.toNat_lt
  have hd := d.toNat_lt
  have hw : (leWord a b c d).toNat =
      a.toNat + b.toNat * 2 ^ 8 + c.toNat * 2 ^ 16 + d.toNat * 2 ^ 24 := by
    rw [leWord, UInt32.toNat_ofNat']
    omega
  simp only [leBytes, List.cons.injEq, and_true, ← UInt8.toNat_inj, UInt32.toNat_toUInt8,
    toNat_shift_byte, hw]
  omega

theorem shift_out (w : UInt32) : w >>> 8 >>> 8 >>> 8 >>> 8 = 0 := by
  have h := w.toNat_lt
  apply UInt32.toNat_inj.mp
  simp only [toNat_shift_byte]
  change _ = 0
  omega

section Register

variable (tab : UInt8 → UInt32)

/-- A byte into the register of a reflected CRC with table `tab`. -/
def step (crc : UInt32) (x : UInt8) : UInt32 :=
  tab (crc ^^^ x.toUInt32).toUInt8 ^^^ (crc >>> 8)

/-- A word into the register, in four steps without input. -/
def wordStep (crc w : UInt32) : UInt32 :=
  step tab (step tab (step tab (step tab (crc ^^^ w) 0) 0) 0) 0

def align (addr : Nat) (crc : UInt32) : List UInt8 → UInt32 × List UInt8
  | [] => (crc, [])
  | b :: bs => if addr % 4 = 0 then (crc, b :: bs) else align (addr + 1) (step tab crc b) bs

def wordwise (crc : UInt32) : List UInt8 → UInt32
  | a :: b :: c :: d :: bs => wordwise (wordStep tab crc (leWord a b c d)) bs
  | bs => bs.foldl (step tab) crc

/-- Byte by byte up to an aligned address, then by words. -/
def register (addr : Nat) (crc : UInt32) (bs : List UInt8) : UInt32 :=
  let (crc, rest) := align tab addr crc bs
  wordwise tab crc rest

theorem step_eq (crc : UInt32) (x : UInt8) :
    step tab crc x = tab (crc.toUInt8 ^^^ x) ^^^ (crc >>> 8) := by
  rw [step, UInt32.toUInt8_xor, UInt8.toUInt8_toUInt32]

theorem step_xor (crc w : UInt32) :
    step tab (crc ^^^ w) 0 = step tab crc w.toUInt8 ^^^ (w >>> 8) := by
  rw [step_eq, step_eq, UInt32.toUInt8_xor, UInt32.shiftRight_xor, UInt32.xor_assoc,
    UInt8.xor_zero]

theorem wordStep_eq (crc w : UInt32) : wordStep tab crc w = (leBytes w).foldl (step tab) crc := by
  unfold wordStep leBytes
  rw [step_xor, step_xor, step_xor, step_xor, shift_out, UInt32.xor_zero]
  rfl

theorem wordwise_eq (crc : UInt32) (bs : List UInt8) :
    wordwise tab crc bs = bs.foldl (step tab) crc := by
  fun_induction wordwise tab crc bs with
  | case1 crc a b c d bs ih =>
    rw [ih, wordStep_eq, leBytes_leWord]
    rfl
  | case2 crc bs => rfl

theorem align_eq (addr : Nat) (crc : UInt32) (bs : List UInt8) :
    (align tab addr crc bs).2.foldl (step tab) (align tab addr crc bs).1 =
      bs.foldl (step tab) crc := by
  induction bs generalizing addr crc with
  | nil => rfl
  | cons b bs ih =>
    unfold align
    split
    · rfl
    · exact ih (addr + 1) (step tab crc b)

theorem register_eq (addr : Nat) (crc : UInt32) (bs : List UInt8) :
    register tab addr crc bs = bs.foldl (step tab) crc := by
  unfold register
  exact (wordwise_eq tab _ _).trans (align_eq tab addr crc bs)

theorem step_self (h0 : tab 0 = 0) (crc : UInt32) : step tab crc crc.toUInt8 = crc >>> 8 := by
  rw [step_eq, UInt8.xor_self, h0, UInt32.zero_xor]

theorem foldl_leBytes (h0 : tab 0 = 0) (crc : UInt32) : (leBytes crc).foldl (step tab) crc = 0 := by
  unfold leBytes
  simp only [List.foldl_cons, List.foldl_nil, step_self tab h0]
  exact shift_out crc

/-- No two words of the table have the same highest byte. -/
def TopDistinct : Prop := Function.Injective fun i => tab i >>> 24

theorem shift_top (w : UInt32) : w >>> 8 >>> 24 = 0 := by
  have h := w.toNat_lt
  apply UInt32.toNat_inj.mp
  simp only [UInt32.toNat_shiftRight, Nat.shiftRight_eq_div_pow]
  change w.toNat / 2 ^ 8 / 2 ^ 24 = 0
  omega

theorem eq_of_shift_byte {c d : UInt32} (hs : c >>> 8 = d >>> 8) (hb : c.toUInt8 = d.toUInt8) :
    c = d := by
  have h1 := congrArg UInt32.toNat hs
  have h2 := congrArg UInt8.toNat hb
  rw [toNat_shift_byte, toNat_shift_byte] at h1
  rw [UInt32.toNat_toUInt8, UInt32.toNat_toUInt8] at h2
  apply UInt32.toNat_inj.mp
  omega

/-- The highest byte of the register tells which word of the table went into it. -/
theorem step_injective (h : TopDistinct tab) (x : UInt8) :
    Function.Injective fun crc => step tab crc x := by
  intro c d hcd
  simp only [step_eq] at hcd
  have htop := congrArg (· >>> (24 : UInt32)) hcd
  simp only [UInt32.shiftRight_xor, shift_top, UInt32.xor_zero] at htop
  have hidx : c.toUInt8 ^^^ x = d.toUInt8 ^^^ x := h htop
  rw [hidx] at hcd
  exact eq_of_shift_byte ((UInt32.xor_right_inj _).mp hcd) ((UInt8.xor_left_inj _).mp hidx)

theorem foldl_step_injective (h : TopDistinct tab) (bs : List UInt8) :
    Function.Injective fun crc => bs.foldl (step tab) crc := by
  induction bs with
  | nil => exact fun _ _ hcd => hcd
  | cons b bs ih => exact ih.comp (step_injective tab h b)

/-- Four bytes take the register to different values if they differ. -/
theorem foldl_leBytes_injective (h : TopDistinct tab) (crc : UInt32) :
    Function.Injective fun w => (leBytes w).foldl (step tab) crc := by
  intro v w hvw
  simp only [← wordStep_eq] at hvw
  have hzero : Function.Injective fun c => step tab c 0 := step_injective tab h 0
  exact (UInt32.xor_right_inj _).mp (hzero (hzero (hzero (hzero hvw))))

/-- One bit of the register of a reflected CRC with polynomial `poly`. -/
def bitStep (poly c : UInt32) : UInt32 := if c &&& 1 = 1 then poly ^^^ (c >>> 1) else c >>> 1

theorem low_bit (c : UInt32) : c &&& 1 = 0 ∨ c &&& 1 = 1 := by
  rw [← UInt32.toNat_inj, ← UInt32.toNat_inj, UInt32.toNat_and]
  change c.toNat &&& 1 = 0 ∨ c.toNat &&& 1 = 1
  rw [Nat.and_one_is_mod]
  omega

theorem bitStep_xor (poly a b : UInt32) :
    bitStep poly (a ^^^ b) = bitStep poly a ^^^ bitStep poly b := by
  have hlow : (a ^^^ b) &&& 1 = (a &&& 1) ^^^ (b &&& 1) := by
    apply UInt32.toNat_inj.mp
    simp only [UInt32.toNat_and, UInt32.toNat_xor, Nat.and_xor_distrib_right]
  unfold bitStep
  rw [hlow, UInt32.shiftRight_xor]
  rcases low_bit a with ha | ha <;> rcases low_bit b with hb | hb <;> simp [ha, hb]
  · ac_rfl
  · ac_rfl
  · have hcancel : poly ^^^ a >>> 1 ^^^ (poly ^^^ b >>> 1) =
        poly ^^^ poly ^^^ (a >>> 1 ^^^ b >>> 1) := by ac_rfl
    rw [hcancel, UInt32.xor_self, UInt32.zero_xor]

theorem iterate_bitStep_xor (poly : UInt32) (k : Nat) (a b : UInt32) :
    (bitStep poly)^[k] (a ^^^ b) = (bitStep poly)^[k] a ^^^ (bitStep poly)^[k] b := by
  induction k generalizing a b with
  | zero => rfl
  | succ k ih => simp only [Function.iterate_succ_apply, bitStep_xor, ih]

theorem bitStep_even (poly : UInt32) {b : UInt32} (h : b.toNat % 2 = 0) :
    bitStep poly b = b >>> 1 := by
  rw [bitStep, if_neg]
  intro hlow
  have hodd : b.toNat &&& 1 = 1 := congrArg UInt32.toNat hlow
  rw [Nat.and_one_is_mod] at hodd
  omega

/-- Bits above the lowest `k` go through `k` steps unchanged. -/
theorem iterate_bitStep_even (poly : UInt32) {k : Nat} (b : UInt32) (h : b.toNat % 2 ^ k = 0) :
    (bitStep poly)^[k] b = UInt32.ofNat (b.toNat / 2 ^ k) := by
  induction k generalizing b with
  | zero => simp
  | succ k ih =>
    have hhalf : (b >>> 1).toNat = b.toNat / 2 := by simp [Nat.shiftRight_eq_div_pow]
    have hdvd := Nat.dvd_of_mod_eq_zero h
    rw [pow_succ'] at hdvd
    have hrest : (b >>> 1).toNat % 2 ^ k = 0 := by
      rw [hhalf]
      exact Nat.mod_eq_zero_of_dvd (Nat.dvd_div_of_mul_dvd hdvd)
    have heven : b.toNat % 2 = 0 := Nat.mod_eq_zero_of_dvd ((Dvd.intro _ rfl).trans hdvd)
    rw [Function.iterate_succ_apply, bitStep_even poly heven, ih _ hrest, hhalf,
      Nat.div_div_eq_div_mul, ← pow_succ']

/-- A table of eight bits each makes eight steps at once. -/
theorem step_eq_bitStep {poly : UInt32} (h : ∀ i, tab i = (bitStep poly)^[8] i.toUInt32)
    (crc : UInt32) (x : UInt8) : step tab crc x = (bitStep poly)^[8] (crc ^^^ x.toUInt32) := by
  -- the lowest byte goes through the table, the other bits are shifted down
  set low := crc.toUInt8.toUInt32 with hlow
  have hb : (crc ^^^ low).toNat = crc.toNat ^^^ (crc.toNat % 2 ^ 8) := by
    rw [UInt32.toNat_xor, hlow, UInt8.toNat_toUInt32, UInt32.toNat_toUInt8]
  have hmod : (crc ^^^ low).toNat % 2 ^ 8 = 0 := by
    rw [hb, Nat.xor_mod_two_pow, Nat.mod_mod, Nat.xor_self]
  have hdiv : UInt32.ofNat ((crc ^^^ low).toNat / 2 ^ 8) = crc >>> 8 := by
    have hcrc := crc.toNat_lt
    apply UInt32.toNat_inj.mp
    rw [hb, Nat.xor_div_two_pow, Nat.div_eq_of_lt (Nat.mod_lt _ (by decide)), Nat.xor_zero,
      toNat_shift_byte, UInt32.toNat_ofNat']
    omega
  have hsplit : low ^^^ x.toUInt32 ^^^ (crc ^^^ low) = crc ^^^ x.toUInt32 := by
    rw [show low ^^^ x.toUInt32 ^^^ (crc ^^^ low) = low ^^^ low ^^^ (crc ^^^ x.toUInt32) by ac_rfl,
      UInt32.xor_self, UInt32.zero_xor]
  rw [step_eq, h, UInt8.toUInt32_xor, ← hdiv, ← iterate_bitStep_even poly _ hmod,
    ← iterate_bitStep_xor, hsplit]

/-- As such a table is linear, a highest byte of zero tells all. -/
theorem topDistinct_of_bitStep {poly : UInt32} (h : ∀ i, tab i = (bitStep poly)^[8] i.toUInt32)
    (hzero : ∀ i, tab i >>> 24 = 0 → i = 0) : TopDistinct tab := by
  intro i j hij
  have hxor : tab (i ^^^ j) = tab i ^^^ tab j := by
    simp only [h, UInt8.toUInt32_xor, iterate_bitStep_xor]
  apply UInt8.xor_eq_zero_iff.mp
  apply hzero
  rw [hxor, UInt32.shiftRight_xor]
  exact UInt32.xor_eq_zero_iff.mpr hij

end Register

end SynaBoot.TableCrc
