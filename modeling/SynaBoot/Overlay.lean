import Mathlib.Tactic

namespace SynaBoot.Overlay

variable {α : Type*} {pos : ℕ} {f : ℕ → α} {x y xs ys : List (Option α)}

/-- The cells from `pos` on replaced by those that a list gives. -/
def lay (pos : ℕ) (xs : List (Option α)) (f : ℕ → α) (i : ℕ) : α :=
  if pos ≤ i then xs[i - pos]?.join.getD (f i) else f i

theorem lay_below {i : ℕ} (h : i < pos) : lay pos xs f i = f i := if_neg (Nat.not_le.mpr h)

theorem lay_add (k : ℕ) : lay pos xs f (pos + k) = xs[k]?.join.getD (f (pos + k)) := by
  rw [lay, if_pos (Nat.le_add_right pos k), Nat.add_sub_cancel_left]

theorem lay_nil : lay pos [] f = f := by
  funext i
  simp [lay]

theorem lay_append (pos : ℕ) (xs ys : List (Option α)) (f : ℕ → α) :
    lay pos (xs ++ ys) f = lay (pos + xs.length) ys (lay pos xs f) := by
  funext i
  by_cases hin : i < pos + xs.length
  · rw [lay_below hin]
    unfold lay
    split
    · rw [List.getElem?_append_left (by omega)]
    · rfl
  · obtain ⟨k, rfl⟩ := Nat.exists_eq_add_of_le (Nat.not_lt.mp hin)
    rw [lay_add, Nat.add_assoc, lay_add, lay_add, List.getElem?_append_right (by omega),
      Nat.add_sub_cancel_left, List.getElem?_eq_none (Nat.le_add_right xs.length k)]
    rfl

theorem lay_replicate_none (n : ℕ) : lay pos (List.replicate n none) f = f := by
  funext i
  unfold lay
  split
  · rw [List.getElem?_replicate]
    split <;> rfl
  · rfl

theorem lay_eq_iff : lay pos xs f = lay pos ys f ↔
    ∀ k, xs[k]?.join.getD (f (pos + k)) = ys[k]?.join.getD (f (pos + k)) := by
  constructor
  · intro h k
    rw [← lay_add, h, lay_add]
  · intro h
    funext i
    by_cases hpos : i < pos
    · rw [lay_below hpos, lay_below hpos]
    · obtain ⟨k, rfl⟩ := Nat.exists_eq_add_of_le (Nat.not_lt.mp hpos)
      rw [lay_add, h, lay_add]

theorem lay_append_eq_iff (h : x.length = y.length) :
    lay pos (x ++ xs) f = lay pos (y ++ ys) f ↔
      lay pos x f = lay pos y f ∧ lay (pos + x.length) xs f = lay (pos + x.length) ys f := by
  simp only [lay_eq_iff]
  constructor
  · refine fun heq => ⟨fun k => ?_, fun k => ?_⟩
    · by_cases hk : k < x.length
      · simpa [List.getElem?_append_left, hk, h ▸ hk] using heq k
      · rw [List.getElem?_eq_none (by omega), List.getElem?_eq_none (by omega)]
    · simpa [List.getElem?_append_right, h, Nat.add_assoc] using heq (x.length + k)
  · rintro ⟨hleft, hright⟩ k
    by_cases hk : k < x.length
    · simpa [List.getElem?_append_left, hk, h ▸ hk] using hleft k
    · obtain ⟨j, rfl⟩ := Nat.exists_eq_add_of_le (Nat.not_lt.mp hk)
      simpa [List.getElem?_append_right, h, Nat.add_assoc] using hright j

theorem lay_replicate_eq_iff (n : ℕ) (a : α) :
    lay pos (List.replicate n none) f = lay pos (List.replicate n (some a)) f ↔
      ∀ k < n, f (pos + k) = a := by
  rw [lay_eq_iff]
  refine forall_congr' fun k => ?_
  by_cases hk : k < n <;> simp [hk]

end SynaBoot.Overlay
