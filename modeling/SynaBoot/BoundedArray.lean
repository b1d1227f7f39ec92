import Mathlib.Tactic

namespace SynaBoot.BoundedArray

variable {α : Type} {cap : ℕ} {l xs : List α}

/-- `none` is a write behind the end of the array. -/
def push (cap : ℕ) (l : List α) (x : α) : Option (List α) :=
  if l.length < cap then some (l ++ [x]) else none

def pushAll (cap : ℕ) (l xs : List α) : Option (List α) := xs.foldlM (push cap) l

theorem push_room {x : α} (h : l.length < cap) : push cap l x = some (l ++ [x]) := if_pos h

theorem push_full {x : α} (h : cap ≤ l.length) : push cap l x = none := if_neg (Nat.not_lt.mpr h)

theorem pushAll_room (h : l.length + xs.length ≤ cap) : pushAll cap l xs = some (l ++ xs) := by
  induction xs generalizing l with
  | nil => exact congrArg some (List.append_nil l).symm
  | cons x xs ih =>
    rw [List.length_cons] at h
    rw [pushAll, List.foldlM_cons, push_room (by omega), Option.bind_eq_bind, Option.bind_some]
    have hrest : (l ++ [x]).length + xs.length ≤ cap := by
      rw [List.length_append, List.length_singleton]
      omega
    rw [List.append_cons l x xs]
    exact ih hrest

theorem pushAll_full (hl : l.length ≤ cap) (h : cap < l.length + xs.length) :
    pushAll cap l xs = none := by
  induction xs generalizing l with
  | nil => exact absurd h (Nat.not_lt.mpr hl)
  | cons x xs ih =>
    rw [List.length_cons] at h
    rw [pushAll, List.foldlM_cons]
    obtain hlt | heq := hl.lt_or_eq
    · rw [push_room hlt]
      have hlen : (l ++ [x]).length = l.length + 1 := by
        rw [List.length_append, List.length_singleton]
      exact ih (by omega) (by omega)
    · rw [push_full heq.ge]
      rfl

theorem pushAll_eq_some_iff (hl : l.length ≤ cap) {m : List α} :
    pushAll cap l xs = some m ↔ m = l ++ xs ∧ l.length + xs.length ≤ cap := by
  by_cases h : l.length + xs.length ≤ cap
  · rw [pushAll_room h, Option.some.injEq]
    exact ⟨fun he => ⟨he.symm, h⟩, fun he => he.1.symm⟩
  · rw [pushAll_full hl (by omega)]
    exact iff_of_false (fun he => by cases he) fun he => h he.2

end SynaBoot.BoundedArray
