import Mathlib.Tactic

namespace SynaBoot.Packing

/-- The least multiple of `a` that is not below `n`. -/
def aligned (a n : Nat) : Nat := (n + a - 1) / a * a

theorem dvd_aligned (a n : Nat) : a ∣ aligned a n := Nat.dvd_mul_left a _

theorem le_aligned {a : Nat} (ha : 0 < a) (n : Nat) : n ≤ aligned a n := by
  have hd := Nat.div_add_mod (n + a - 1) a
  have hm := Nat.mod_lt (n + a - 1) ha
  rw [Nat.mul_comm] at hd
  unfold aligned
  omega

theorem aligned_lt {a : Nat} (ha : 0 < a) (n : Nat) : aligned a n < n + a := by
  have hd := Nat.div_mul_le_self (n + a - 1) a
  unfold aligned
  omega

theorem self_le_aligned {a n : Nat} (ha : 0 < a) (hn : 0 < n) : a ≤ aligned a n :=
  Nat.le_of_dvd (hn.trans_le (le_aligned ha n)) (dvd_aligned a n)

variable {α : Type}

/-- Each piece has its position and a filler up to a multiple of `a`. -/
inductive Packed (a : Nat) : Nat → List (Nat × List α) → List α → Prop
  | nil (o : Nat) : Packed a o [] []
  | cons {o : Nat} {ps : List (Nat × List α)} {rest : List α} (piece filler : List α)
      (hf : (piece ++ filler).length = aligned a piece.length)
      (h : Packed a (o + aligned a piece.length) ps rest) :
      Packed a o ((o, piece) :: ps) (piece ++ filler ++ rest)

variable {a o : Nat} {ps : List (Nat × List α)} {data : List α}

theorem Packed.dvd (h : Packed a o ps data) (ho : a ∣ o) : ∀ p ∈ ps, a ∣ p.1 := by
  induction h with
  | nil o => simp
  | cons piece filler hf h ih =>
    intro p hp
    obtain rfl | hp := List.mem_cons.mp hp
    · exact ho
    · exact ih ((Nat.dvd_add_right ho).mpr (dvd_aligned a _)) p hp

theorem Packed.start_le (h : Packed a o ps data) : ∀ p ∈ ps, o ≤ p.1 := by
  induction h with
  | nil o => simp
  | cons piece filler hf h ih =>
    intro p hp
    obtain rfl | hp := List.mem_cons.mp hp
    · exact le_rfl
    · exact (Nat.le_add_right _ _).trans (ih p hp)

theorem Packed.piece_at (h : Packed a o ps data) (front : List α) (hl : front.length = o) :
    ∀ p ∈ ps, ((front ++ data).drop p.1).take p.2.length = p.2 := by
  induction h generalizing front with
  | nil o => simp
  | @cons o ps rest piece filler hf h ih =>
    intro p hp
    obtain rfl | hp := List.mem_cons.mp hp
    · rw [← hl, List.drop_left, List.append_assoc, List.take_left]
    · have hfront : (front ++ (piece ++ filler)).length = o + aligned a piece.length := by
        rw [List.length_append, hl, hf]
      rw [← List.append_assoc]
      exact ih (front ++ (piece ++ filler)) hfront p hp

theorem Packed.pairwise (ha : 0 < a) (h : Packed a o ps data) :
    ps.Pairwise (fun p q => p.1 + p.2.length ≤ q.1) := by
  induction h with
  | nil o => exact List.Pairwise.nil
  | cons piece filler hf h ih =>
    refine List.Pairwise.cons (fun q hq => ?_) ih
    exact (Nat.add_le_add_left (le_aligned ha _) _).trans (h.start_le q hq)

end SynaBoot.Packing
