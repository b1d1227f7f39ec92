import Mathlib.Tactic

namespace SynaBoot.AddressSpace

variable {limit : ℕ} {α : Type}

/-- Contents by address, and the written addresses, the last one first. -/
structure Memory (limit : ℕ) (α : Type) where
  cells : ℕ → Option α
  bounded : ∀ a, limit ≤ a → cells a = none
  written : List ℕ

namespace Memory

variable {m m' m₁ : Memory limit α} {a b n : ℕ} {x y : α} {xs ys : List α}

theorem lt_limit (h : m.cells a = some x) : a < limit := by
  by_contra hle
  rw [m.bounded a (Nat.not_lt.mp hle)] at h
  cases h

/-- `none` is a write where there is no memory. -/
def store (m : Memory limit α) (a : ℕ) (x : α) : Option (Memory limit α) :=
  if h : (m.cells a).isSome then
    some
      { cells := Function.update m.cells a (some x)
        bounded := fun b hb => by
          obtain ⟨y, hy⟩ := Option.isSome_iff_exists.mp h
          have hne : b ≠ a := by
            have hlt := lt_limit hy
            omega
          rw [Function.update_of_ne hne]
          exact m.bounded b hb
        written := a :: m.written }
  else none

theorem exists_store (h : m.cells a = some y) (x : α) : ∃ m₁, m.store a x = some m₁ := by
  simp [store, h]

theorem store_eq (h : m.store a x = some m₁) :
    m₁.cells = Function.update m.cells a (some x) ∧ m₁.written = a :: m.written := by
  unfold store at h
  split at h
  · cases h
    exact ⟨rfl, rfl⟩
  · cases h

theorem store_written (h : m.store a x = some m₁) : m₁.written = a :: m.written := (store_eq h).2

theorem store_self (h : m.store a x = some m₁) : m₁.cells a = some x := by
  simp [(store_eq h).1]

theorem store_of_ne (h : m.store a x = some m₁) (hb : b ≠ a) : m₁.cells b = m.cells b := by
  simp [(store_eq h).1, hb]

def Holds (m : Memory limit α) : ℕ → List α → Prop
  | _, [] => True
  | a, x :: xs => m.cells a = some x ∧ m.Holds (a + 1) xs

theorem Holds.cell (h : m.Holds a xs) {i : ℕ} (hi : xs[i]? = some x) : m.cells (a + i) = some x := by
  induction xs generalizing a i with
  | nil => cases hi
  | cons y ys ih =>
    cases i with
    | zero =>
      cases hi
      exact h.1
    | succ i =>
      rw [Nat.add_comm i, ← Nat.add_assoc]
      exact ih h.2 hi

theorem holds_append : m.Holds a (xs ++ ys) ↔ m.Holds a xs ∧ m.Holds (a + xs.length) ys := by
  induction xs generalizing a with
  | nil => simp [Holds]
  | cons x xs ih => simp [Holds, ih, and_assoc, Nat.add_assoc, Nat.add_comm 1]

theorem Holds.congr (h : m.Holds a xs)
    (hsame : ∀ b, a ≤ b → b < a + xs.length → m'.cells b = m.cells b) : m'.Holds a xs := by
  induction xs generalizing a with
  | nil => trivial
  | cons x xs ih =>
    rw [List.length_cons] at hsame
    refine ⟨(hsame a le_rfl (by omega)).trans h.1, ih h.2 fun b hlow hhigh => ?_⟩
    exact hsame b (by omega) (by omega)

theorem Holds.take (h : m.Holds a xs) (n : ℕ) : m.Holds a (xs.take n) := by
  rw [← List.take_append_drop n xs] at h
  exact (holds_append.mp h).1

theorem Holds.drop (h : m.Holds a xs) (hn : n ≤ xs.length) : m.Holds (a + n) (xs.drop n) := by
  rw [← List.take_append_drop n xs, holds_append, List.length_take_of_le hn] at h
  exact h.2

def Area (m : Memory limit α) (a n : ℕ) : Prop :=
  ∀ b, a ≤ b → b < a + n → ∃ x, m.cells b = some x

theorem Area.mono {k : ℕ} (h : m.Area a n) (hlow : a ≤ b) (hhigh : b + k ≤ a + n) : m.Area b k :=
  fun c hc hck => h c (by omega) (by omega)

theorem Area.store (h : m.Area a n) (hstore : m.store b x = some m₁) : m₁.Area a n := by
  intro c hlow hhigh
  by_cases hc : c = b
  · exact ⟨x, hc ▸ store_self hstore⟩
  · rw [store_of_ne hstore hc]
    exact h c hlow hhigh

theorem Area.exists_holds (h : m.Area a n) : ∃ xs, xs.length = n ∧ m.Holds a xs := by
  induction n generalizing a with
  | zero => exact ⟨[], rfl, trivial⟩
  | succ n ih =>
    obtain ⟨x, hx⟩ := h a le_rfl (by omega)
    obtain ⟨xs, rfl, hxs⟩ := ih (h.mono (Nat.le_succ a) (by omega))
    exact ⟨x :: xs, rfl, hx, hxs⟩

theorem Holds.area (h : m.Holds a xs) : m.Area a xs.length := by
  intro b hlow hhigh
  obtain ⟨i, rfl⟩ := Nat.exists_eq_add_of_le hlow
  exact ⟨_, h.cell (List.getElem?_eq_getElem (by omega))⟩

def loaded (a : ℕ) (xs : List α) : Memory (a + xs.length) α where
  cells b := if a ≤ b then xs[b - a]? else none
  bounded b hb := by
    rw [if_pos (by omega), List.getElem?_eq_none (by omega)]
  written := []

structure Wrote (m m' : Memory limit α) (a : ℕ) (xs : List α) : Prop where
  holds : m'.Holds a xs
  frame : ∀ b, b < a ∨ a + xs.length ≤ b → m'.cells b = m.cells b
  written : ∃ ws, m'.written = ws ++ m.written ∧ ∀ b, b ∈ ws ↔ a ≤ b ∧ b < a + xs.length

theorem Wrote.nil (m : Memory limit α) (a : ℕ) : Wrote m m a [] := by
  refine ⟨trivial, fun _ _ => rfl, [], rfl, fun b => ?_⟩
  simp

theorem Wrote.single (h : m.store a x = some m₁) : Wrote m m₁ a [x] := by
  refine ⟨⟨store_self h, trivial⟩, fun b hb => ?_, [a], store_written h, fun b => ?_⟩
  · rw [List.length_singleton] at hb
    exact store_of_ne h (by omega)
  · rw [List.mem_singleton, List.length_singleton]
    omega

theorem Wrote.append (h : Wrote m m₁ a xs) (h' : Wrote m₁ m' (a + xs.length) ys) :
    Wrote m m' a (xs ++ ys) := by
  obtain ⟨ws, hws, hmem⟩ := h.written
  obtain ⟨ws', hws', hmem'⟩ := h'.written
  refine ⟨holds_append.mpr ⟨?_, h'.holds⟩, fun b hb => ?_, ws' ++ ws, ?_, fun b => ?_⟩
  · apply h.holds.congr
    intro b hlow hhigh
    exact h'.frame b (.inl hhigh)
  · rw [List.length_append] at hb
    rw [h'.frame b (by omega), h.frame b (by omega)]
  · rw [hws', hws, List.append_assoc]
  · rw [List.mem_append, hmem, hmem', List.length_append]
    omega

theorem Wrote.prepend (h : Wrote m m₁ (a + xs.length) ys) (h' : Wrote m₁ m' a xs) :
    Wrote m m' a (xs ++ ys) := by
  obtain ⟨ws, hws, hmem⟩ := h.written
  obtain ⟨ws', hws', hmem'⟩ := h'.written
  refine ⟨holds_append.mpr ⟨h'.holds, ?_⟩, fun b hb => ?_, ws' ++ ws, ?_, fun b => ?_⟩
  · apply h.holds.congr
    intro b hlow hhigh
    exact h'.frame b (.inr hlow)
  · rw [List.length_append] at hb
    rw [h'.frame b (by omega), h.frame b (by omega)]
  · rw [hws', hws, List.append_assoc]
  · rw [List.mem_append, hmem, hmem', List.length_append]
    omega

end Memory

end SynaBoot.AddressSpace
