import Mathlib.Tactic

namespace SynaBoot.BlockRange

def blocks (m s n : ℕ) : List ℕ := (List.range n).map fun j => (s + j) % m

variable {m s n lo hi : ℕ}

theorem length_blocks : (blocks m s n).length = n := by
  rw [blocks, List.length_map, List.length_range]

theorem blocks_eq_nil : blocks m s n = [] ↔ n = 0 := by
  rw [← List.length_eq_zero_iff, length_blocks]

theorem blocks_mod (m s n : ℕ) : blocks m (s % m) n = blocks m s n := by
  apply List.map_congr_left
  intro j _
  exact Nat.mod_add_mod s m j

theorem blocks_append (m s a b : ℕ) :
    blocks m s (a + b) = blocks m s a ++ blocks m (s + a) b := by
  unfold blocks
  rw [List.range_add, List.map_append, List.map_map]
  congr 1
  apply List.map_congr_left
  intro j _
  exact congrArg (· % m) (Nat.add_assoc s a j).symm

theorem blocks_within_iff (hlo : lo ≤ s) (hspan : s + n ≤ lo + m) :
    (∀ b ∈ blocks m s n, lo ≤ b ∧ b < hi) ↔ n = 0 ∨ s + n ≤ hi ∧ s + n ≤ m := by
  have hmem (b : ℕ) : b ∈ blocks m s n ↔ ∃ j < n, (s + j) % m = b := by simp [blocks]
  constructor
  · intro h
    by_cases hn : n = 0
    · exact .inl hn
    obtain ⟨h₁, h₂⟩ := h _ ((hmem _).mpr ⟨n - 1, by omega, rfl⟩)
    -- the last block, if it wraps, is below `lo`
    have hm : s + n ≤ m := by
      by_contra hm
      have hlast : (s + (n - 1)) % m ≤ s + (n - 1) - m := by
        rw [Nat.mod_eq_sub_mod (by omega)]
        exact Nat.mod_le _ _
      omega
    rw [Nat.mod_eq_of_lt (by omega)] at h₂
    exact .inr ⟨by omega, hm⟩
  · rintro (rfl | ⟨hhi, hm⟩) b hb
    · cases hb
    · obtain ⟨j, hj, rfl⟩ := (hmem b).mp hb
      rw [Nat.mod_eq_of_lt (by omega)]
      omega

theorem and_mask {x k w : ℕ} (hk : k ≤ w) (hx : x < 2 ^ w) :
    x &&& (2 ^ w - 2 ^ k) = x / 2 ^ k * 2 ^ k := by
  have hpos := Nat.two_pow_pos k
  have hle : 2 ^ k ≤ 2 ^ w := Nat.pow_le_pow_right (by decide) hk
  apply Nat.eq_of_testBit_eq
  intro i
  rw [Nat.testBit_and, ← Nat.sub_add_cancel hpos, Nat.testBit_two_pow_sub_succ (by omega),
    Nat.sub_add_cancel hpos, Nat.testBit_two_pow_sub_one, Nat.testBit_mul_two_pow,
    Nat.testBit_div_two_pow]
  by_cases hki : k ≤ i
  · rw [Nat.sub_add_cancel hki]
    by_cases hiw : i < w
    · simp [hki, hiw]
    · have hzero : x.testBit i = false :=
        Nat.testBit_lt_two_pow (hx.trans_le (Nat.pow_le_pow_right (by decide) (not_lt.mp hiw)))
      simp [hzero]
  · simp [hki, Nat.lt_of_not_le hki]

end SynaBoot.BlockRange
