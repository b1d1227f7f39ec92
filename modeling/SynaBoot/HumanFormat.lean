import SynaBoot.KernelParam

namespace SynaBoot.HumanFormat

open SynaBoot.CText SynaBoot.KernelParam

def printedSize (text : List Char) : ℤ :=
  number text * 2 ^ (((unsign text).dropWhile Char.isDigit).head?.bind unitShift).getD 0

section Printing

variable {unit : List Char} {m j : ℕ}

theorem number_digit {c : Char} (hc : c.isDigit = true) (cs : List Char) :
    number (c :: cs) = digits (c :: cs) ∧ unsign (c :: cs) = c :: cs := by
  have hminus : c ≠ '-' := fun h => by
    rw [h] at hc
    cases hc
  have hplus : c ≠ '+' := fun h => by
    rw [h] at hc
    cases hc
  constructor
  · unfold number
    split
    · next h => exact absurd (List.cons.inj h).1 hminus
    · next h => exact absurd (List.cons.inj h).1 hplus
    · rfl
  · unfold unsign
    split
    · next h => exact absurd (List.cons.inj h).1 hminus
    · next h => exact absurd (List.cons.inj h).1 hplus
    · rfl

theorem number_decimal (z : ℤ) (rest : List Char) (h : ∀ c ∈ rest.head?, c.isDigit = false) :
    number (decimal z ++ rest) = z ∧ (unsign (decimal z ++ rest)).dropWhile Char.isDigit = rest := by
  unfold decimal
  by_cases hz : z < 0
  · obtain ⟨hdigits, hdrop⟩ := digits_toDigits_append (-z).toNat rest h
    rw [if_pos hz, List.cons_append]
    refine ⟨?_, hdrop⟩
    change -((digits _ : ℕ) : ℤ) = z
    rw [hdigits]
    omega
  · obtain ⟨hdigits, hdrop⟩ := digits_toDigits_append z.toNat rest h
    rw [if_neg hz]
    obtain ⟨c, cs, hcons⟩ := List.exists_cons_of_ne_nil
      (List.ne_nil_of_length_pos (Nat.length_toDigits_pos (b := 10) (n := z.toNat)))
    have hc : c.isDigit = true := Nat.isDigit_of_mem_toDigits (b := 10) (n := z.toNat) (by decide)
      (by decide) (hcons ▸ List.mem_cons_self)
    obtain ⟨hnumber, hunsign⟩ := number_digit hc (cs ++ rest)
    rw [hcons, List.cons_append] at hdigits hdrop ⊢
    rw [hnumber, hunsign, hdigits]
    exact ⟨Int.toNat_of_nonneg (not_lt.mp hz), hdrop⟩

theorem printedSize_eq (z : ℤ) (hunit : units[j]? = some unit) :
    printedSize (decimal z ++ unit) = z * 1024 ^ j := by
  have hpow : (1024 : ℤ) ^ j = 2 ^ (10 * j) := by
    rw [pow_mul]
    rfl
  obtain ⟨rfl, rfl⟩ | ⟨u, rfl, hshift, hdigit, -⟩ := unit_cases hunit
  · obtain ⟨hnumber, hbehind⟩ := number_decimal z [] (by simp)
    rw [printedSize, hnumber, hbehind]
    rfl
  · obtain ⟨hnumber, hbehind⟩ := number_decimal z [u] (by simp [hdigit])
    rw [printedSize, hnumber, hbehind, hpow]
    change z * 2 ^ ((unitShift u).getD 0) = _
    rw [hshift]
    rfl

theorem humanFormat_of_loop {size : ℕ} (hsize : 0 < size) (h : humanLoop 4 0 size = (m, j)) :
    humanFormat size = units[j]?.map fun unit => decimal (int64 m) ++ unit := by
  have hlength : units.length = 4 := rfl
  unfold humanFormat
  rw [if_pos hsize, hlength, h]

theorem dvd_unit_iff (hj : j < 4) (hm : m % 1024 ≠ 0) : ¬ 2 ^ 40 ∣ m * 1024 ^ j := by
  intro h
  have hsplit : (2 : ℕ) ^ 40 = 1024 ^ (4 - j) * 1024 ^ j := by
    rw [← pow_add, Nat.sub_add_cancel hj.le]
    rfl
  rw [hsplit] at h
  have hdvd := Nat.dvd_of_mul_dvd_mul_right (Nat.pow_pos (by decide)) h
  have hone : 1024 ∣ 1024 ^ (4 - j) := dvd_pow_self 1024 (by omega)
  exact hm (Nat.mod_eq_zero_of_dvd (hone.trans hdvd))

theorem lt_iff_of_unit (hm : m % 1024 ≠ 0) (hlt : m * 1024 ^ j < 2 ^ 64) :
    m < 2 ^ 63 ↔ m * 1024 ^ j < 2 ^ 63 ∨ 1024 ∣ m * 1024 ^ j := by
  cases j with
  | zero =>
    rw [pow_zero, Nat.mul_one]
    omega
  | succ j =>
    have hdvd : 1024 ∣ m * 1024 ^ (j + 1) := (dvd_pow_self 1024 (Nat.succ_ne_zero j)).mul_left m
    have hle : m * 1024 ≤ m * 1024 ^ (j + 1) :=
      Nat.mul_le_mul_left m (Nat.le_self_pow (Nat.succ_ne_zero j) 1024)
    refine iff_of_true ?_ (.inr hdvd)
    omega

theorem int64_eq_iff (hm : m < 2 ^ 64) : int64 m = m ↔ m < 2 ^ 63 := by
  constructor
  · intro h
    have hlt : int64 m < 2 ^ 63 := Int.bmod_lt (by decide)
    omega
  · intro h
    exact int64_of_range ⟨by omega, by omega⟩

end Printing

/-- A size is printed exactly unless it is a multiple of 1 TiB or printed as negative. -/
theorem human_format_exact_iff (size : UInt64) (hsize : 0 < size) :
    (∃ text, humanFormat size.toNat = some text ∧ printedSize text = size.toNat) ↔
      ¬ 2 ^ 40 ∣ size.toNat ∧ (size.toNat < 2 ^ 63 ∨ 1024 ∣ size.toNat) := by
  have hpos : 0 < size.toNat := hsize
  have hlt := size.toNat_lt
  obtain ⟨m, j, hloop, heq, hends⟩ := humanLoop_ends 4 0 size.toNat
  rw [Nat.zero_add] at hloop
  rw [humanFormat_of_loop hpos hloop]
  obtain ⟨hj, hm⟩ | rfl := hends
  · have hunit : units[j]? = some units[j] := List.getElem?_eq_getElem hj
    have hdvd := dvd_unit_iff hj hm
    rw [← heq] at hdvd
    have hfactor : (0 : ℤ) < 1024 ^ j := by positivity
    have hm_lt : m < 2 ^ 64 := by
      refine lt_of_le_of_lt ?_ hlt
      rw [heq]
      exact Nat.le_mul_of_pos_right m (Nat.pow_pos (by decide))
    rw [hunit, Option.map_some, and_iff_right hdvd, heq, ← lt_iff_of_unit hm (heq ▸ hlt),
      ← int64_eq_iff hm_lt]
    constructor
    · rintro ⟨text, htext, hprinted⟩
      rw [← Option.some.inj htext, printedSize_eq _ hunit] at hprinted
      push_cast at hprinted
      exact mul_right_cancel₀ hfactor.ne' hprinted
    · intro hint
      refine ⟨_, rfl, ?_⟩
      rw [printedSize_eq _ hunit, hint]
      push_cast
      rfl
  · refine iff_of_false ?_ fun h => h.1 ⟨m, heq.trans (Nat.mul_comm _ _)⟩
    rintro ⟨text, htext, -⟩
    cases htext

theorem mebibytes_exact :
    ∃ text, humanFormat (UInt64.toNat 3145728) = some text ∧ printedSize text = UInt64.toNat 3145728 :=
  (human_format_exact_iff 3145728 (by decide)).mpr ⟨by decide, .inl (by decide)⟩

theorem sizes_not_exact :
    humanFormat (UInt64.toNat 1099511627776) = none ∧
      humanFormat (UInt64.toNat 18446744073709551615) = some ['-', '1'] ∧
        printedSize ['-', '1'] = -1 := by
  decide +kernel


end SynaBoot.HumanFormat
