import Mathlib.Tactic

namespace SynaBoot.Ring

def offset (size count k : Nat) : Nat := size * (k % count)

variable {size count : Nat}

theorem offset_add_count (k : Nat) : offset size count (k + count) = offset size count k := by
  rw [offset, Nat.add_mod_right, offset]

theorem offset_succ (hs : 0 < size) (hc : 0 < count) (k : Nat) :
    (if size * count ≤ offset size count k + size then offset size count k + size - size * count
      else offset size count k + size) = offset size count (k + 1) := by
  have hnext : offset size count k + size = size * (k % count + 1) := by
    rw [offset, Nat.mul_succ]
  have hmod : (k + 1) % count = (k % count + 1) % count := (Nat.mod_add_mod k count 1).symm
  rw [hnext, offset, hmod]
  rcases Nat.lt_or_eq_of_le (Nat.succ_le_of_lt (Nat.mod_lt k hc)) with h | h
  · rw [if_neg (not_le.mpr (Nat.mul_lt_mul_of_pos_left h hs)), Nat.mod_eq_of_lt h]
  · rw [Nat.succ_eq_add_one] at h
    rw [h, if_pos le_rfl, Nat.sub_self, Nat.mod_self, Nat.mul_zero]

theorem offset_ne (hs : 0 < size) {k m : Nat} (hkm : k < m) (hm : m < k + count) :
    offset size count k ≠ offset size count m := by
  intro h
  have hmod : k % count = m % count := Nat.eq_of_mul_eq_mul_left hs h
  have hdvd : count ∣ m - k := (Nat.modEq_iff_dvd' hkm.le).mp hmod
  exact absurd (Nat.le_of_dvd (by omega) hdvd) (by omega)

end SynaBoot.Ring
