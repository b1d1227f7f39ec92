import Mathlib.Data.List.Count
import Mathlib.Tactic

namespace SynaBoot.Tiling

/-- A block of addresses, given by its base and its size. -/
abbrev Block := Nat × Nat

def covers (x : Nat) (b : Block) : Bool := decide (b.1 ≤ x ∧ x < b.1 + b.2)

/-- Each address of `[lo, hi)` lies in exactly one of the blocks. -/
def Tiles (lo hi : Nat) (bs : List Block) : Prop :=
  ∀ x, bs.countP (covers x) = if lo ≤ x ∧ x < hi then 1 else 0

theorem tiles_single (lo n : Nat) : Tiles lo (lo + n) [(lo, n)] := by
  intro x
  simp [covers, List.countP_cons]

variable {lo hi : Nat} {bs : List Block}

theorem tiles_perm {bs cs : List Block} (hp : bs.Perm cs) (h : Tiles lo hi bs) :
    Tiles lo hi cs := fun x => (hp.countP_eq (covers x)).symm.trans (h x)

theorem countP_split (x b m n : Nat) (bs : List Block) :
    ((b, m) :: (b + m, n) :: bs).countP (covers x) = ((b, m + n) :: bs).countP (covers x) := by
  simp only [List.countP_cons, covers, decide_eq_true_eq]
  split <;> split <;> split <;> omega

theorem tiles_split {lo hi b m n : Nat} :
    Tiles lo hi ((b, m) :: (b + m, n) :: bs) ↔ Tiles lo hi ((b, m + n) :: bs) := by
  unfold Tiles
  simp only [countP_split]

theorem tiles_within {b : Block} (h : Tiles lo hi bs) (hb : b ∈ bs) (hpos : 0 < b.2) :
    lo ≤ b.1 ∧ b.1 + b.2 ≤ hi := by
  have hin : ∀ x, covers x b = true → lo ≤ x ∧ x < hi := by
    intro x hx
    have hc : 0 < bs.countP (covers x) := List.countP_pos_iff.mpr ⟨b, hb, hx⟩
    rw [h x] at hc
    by_contra hn
    rw [if_neg hn] at hc
    exact absurd hc (lt_irrefl 0)
  have h1 := hin b.1 (by simp [covers, hpos])
  have h2 := hin (b.1 + b.2 - 1) (by simp only [covers, decide_eq_true_eq]; omega)
  omega

theorem tiles_disjoint {b c : Block} (h : Tiles lo hi (b :: c :: bs)) (hb : 0 < b.2) (hc : 0 < c.2) :
    b.1 + b.2 ≤ c.1 ∨ c.1 + c.2 ≤ b.1 := by
  by_contra hn
  have hx := h (max b.1 c.1)
  have h1 : covers (max b.1 c.1) b = true := by
    simp only [covers, decide_eq_true_eq]
    omega
  have h2 : covers (max b.1 c.1) c = true := by
    simp only [covers, decide_eq_true_eq]
    omega
  simp only [List.countP_cons, h1, h2, if_true] at hx
  split at hx <;> omega

/-- Blocks in ascending order that do not touch each other. -/
structure Gapped (bs : List Block) : Prop where
  pos : ∀ b ∈ bs, 0 < b.2
  gaps : bs.Pairwise fun b c => b.1 + b.2 < c.1

theorem Gapped.apart {b c : Block} (h : Gapped bs) (hb : b ∈ bs) (hc : c ∈ bs) :
    b = c ∨ b.1 + b.2 < c.1 ∨ c.1 + c.2 < b.1 := by
  refine List.Pairwise.forall_of_forall_of_flip
    (R := fun b c : Block => b = c ∨ b.1 + b.2 < c.1 ∨ c.1 + c.2 < b.1) ?_ ?_ ?_ hb hc
  · exact fun d _ => .inl rfl
  · exact h.gaps.imp fun hlt => .inr (.inl hlt)
  · exact h.gaps.imp fun hlt => .inr (.inr hlt)

/-- A block is a maximal interval of the points in `p`. -/
structure Maximal (p : Nat → Prop) (b : Block) : Prop where
  pos : 0 < b.2
  inside : ∀ x, b.1 ≤ x → x < b.1 + b.2 → p x
  below : ∀ x, x + 1 = b.1 → ¬p x
  above : ¬p (b.1 + b.2)

/-- The blocks of a list with gaps are the maximal intervals of the points that it covers. -/
theorem Gapped.mem_iff (h : Gapped bs) (b : Block) :
    b ∈ bs ↔ Maximal (fun x => ∃ c ∈ bs, covers x c = true) b := by
  simp only [covers, decide_eq_true_eq]
  constructor
  · intro hb
    refine ⟨h.pos b hb, fun x h1 h2 => ⟨b, hb, h1, h2⟩, ?_, ?_⟩
    · rintro x hx ⟨c, hc, h1, h2⟩
      obtain rfl | hlt | hlt := h.apart hb hc <;> omega
    · rintro ⟨c, hc, h1, h2⟩
      obtain rfl | hlt | hlt := h.apart hb hc <;> omega
  · rintro ⟨hpos, hin, hbelow, habove⟩
    obtain ⟨c, hc, h1, h2⟩ := hin b.1 le_rfl (by omega)
    -- the block around the first point is no larger than `b`, and `b` does not leave it
    have hbase : c.1 = b.1 := by
      by_contra hne
      exact hbelow (b.1 - 1) (by omega) ⟨c, hc, by omega, by omega⟩
    have hle : c.2 ≤ b.2 := by
      by_contra hgt
      exact habove ⟨c, hc, by omega, by omega⟩
    have hge : b.2 ≤ c.2 := by
      by_contra hgt
      obtain ⟨d, hd, h3, h4⟩ := hin (c.1 + c.2) (by omega) (by omega)
      obtain rfl | hlt | hlt := h.apart hc hd <;> omega
    obtain rfl : c = b := Prod.ext hbase (le_antisymm hle hge)
    exact hc

theorem tiles_append_iff {cs : List Block} (h : Tiles lo hi (bs ++ cs)) (x : Nat) :
    (∃ b ∈ bs, covers x b = true) ↔ (lo ≤ x ∧ x < hi) ∧ ∀ c ∈ cs, ¬covers x c = true := by
  have hx := h x
  rw [List.countP_append] at hx
  rw [← List.countP_pos_iff, ← List.countP_eq_zero]
  split at hx <;> omega

end SynaBoot.Tiling
