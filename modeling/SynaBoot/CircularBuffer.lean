import Mathlib.Tactic

namespace SynaBoot.CircularBuffer

/-- One slot stays free, so that a full ring differs from an empty one. -/
structure Buffer (N : ℕ) (α : Type) where
  slots : Fin N → α
  start : Fin N
  stop : Fin N

variable {N : ℕ} [NeZero N] {α : Type}

def walk (slots : Fin N → α) (i : Fin N) : ℕ → List α
  | 0 => []
  | n + 1 => slots i :: walk slots (i + 1) n

def Buffer.pending (b : Buffer N α) : ℕ := (b.stop - b.start).val

def Buffer.contents (b : Buffer N α) : List α := walk b.slots b.start b.pending

def Buffer.skip (b : Buffer N α) : Buffer N α := { b with start := b.start + 1 }

def Buffer.push (x : α) (b : Buffer N α) : Buffer N α :=
  { b with slots := Function.update b.slots b.stop x, stop := b.stop + 1 }

variable {slots slots' : Fin N → α} {i j : Fin N} {n : ℕ}

theorem sub_succ (h : i ≠ j) : (j - (i + 1)).val + 1 = (j - i).val := by
  have hne : j - i ≠ 0 := fun h0 => h (sub_eq_zero.mp h0).symm
  have hpos : 0 < (j - i).val := Fin.pos_iff_ne_zero.mpr hne
  rw [← sub_sub, Fin.val_sub_one_of_ne_zero hne]
  omega

theorem succ_sub (h : (j - i).val + 1 < N) : (j + 1 - i).val = (j - i).val + 1 := by
  have hone : ((1 : Fin N) : ℕ) = 1 := Fin.val_one' N ▸ Nat.mod_eq_of_lt (by omega)
  rw [add_sub_right_comm, Fin.val_add, hone, Nat.mod_eq_of_lt h]

theorem length_walk : (walk slots i n).length = n := by
  induction n generalizing i with
  | zero => rfl
  | succ n ih => exact congrArg Nat.succ ih

theorem walk_update {x : α} (h : n ≤ (j - i).val) :
    walk (Function.update slots j x) i n = walk slots i n := by
  induction n generalizing i with
  | zero => rfl
  | succ n ih =>
    have hne : i ≠ j := by
      rintro rfl
      rw [sub_self] at h
      exact absurd h (Nat.not_succ_le_zero n)
    have hsub := sub_succ hne
    rw [walk, walk, Function.update_of_ne hne, ih (by omega)]

theorem walk_succ (h : (j - i).val = n) : walk slots i (n + 1) = walk slots i n ++ [slots j] := by
  induction n generalizing i with
  | zero =>
    have hij : j - i = 0 := Fin.val_eq_zero_iff.mp h
    rw [sub_eq_zero.mp hij]
    rfl
  | succ n ih =>
    have hne : i ≠ j := by
      rintro rfl
      rw [sub_self] at h
      cases h
    have hsub := sub_succ hne
    rw [walk, ih (by omega)]
    rfl

theorem walk_congr (h : ∀ k : Fin N, (k - i).val < n → slots k = slots' k) :
    walk slots i n = walk slots' i n := by
  induction n generalizing i with
  | zero => rfl
  | succ n ih =>
    have hi : slots i = slots' i := by
      refine h i ?_
      rw [sub_self]
      exact Nat.succ_pos n
    refine congrArg₂ List.cons hi (ih fun k hk => ?_)
    by_cases hki : i = k
    · rw [← hki]
      exact hi
    · refine h k ?_
      have hsub := sub_succ hki
      omega

namespace Buffer

variable {b : Buffer N α}

theorem length_contents : b.contents.length = b.pending := length_walk

theorem contents_eq_nil_iff : b.contents = [] ↔ b.start = b.stop := by
  rw [← List.length_eq_zero_iff, length_contents, pending, Fin.val_eq_zero_iff, sub_eq_zero,
    eq_comm]

theorem contents_cons {x : α} {xs : List α} (h : b.contents = x :: xs) :
    b.slots b.start = x ∧ b.skip.contents = xs := by
  have hlen : b.pending = xs.length + 1 := by
    rw [← length_contents, h, List.length_cons]
  have hne : b.start ≠ b.stop := by
    intro heq
    rw [contents_eq_nil_iff.mpr heq] at h
    cases h
  have hsub : b.skip.pending + 1 = b.pending := sub_succ hne
  rw [contents, ← hsub, walk] at h
  obtain ⟨hx, hxs⟩ := List.cons.inj h
  exact ⟨hx, hxs⟩

theorem contents_push {x : α} (h : b.pending + 1 < N) : (b.push x).contents = b.contents ++ [x] := by
  have hpending : (b.push x).pending = b.pending + 1 := succ_sub h
  have hlast : walk (Function.update b.slots b.stop x) b.start (b.pending + 1) = _ := walk_succ rfl
  have hearlier : walk (Function.update b.slots b.stop x) b.start b.pending = b.contents :=
    walk_update le_rfl
  rw [Function.update_self, hearlier] at hlast
  rw [contents, hpending]
  exact hlast

theorem full_iff : b.stop + 1 = b.start ↔ b.pending + 1 = N := by
  have hlt : b.pending < N := (b.stop - b.start).isLt
  have hval : (b.stop + 1 - b.start).val = (b.pending + 1) % N := by
    rw [add_sub_right_comm, Fin.val_add, Fin.val_one', Nat.add_mod_mod]
    rfl
  rw [← sub_eq_zero, ← Fin.val_eq_zero_iff, hval]
  constructor
  · intro h
    by_contra hne
    rw [Nat.mod_eq_of_lt (by omega)] at h
    cases h
  · intro h
    rw [h, Nat.mod_self]

end Buffer

end SynaBoot.CircularBuffer
