import Mathlib.Data.List.Basic
import Mathlib.Data.List.TakeWhile
import Mathlib.Tactic

namespace SynaBoot.StringArea

variable {α : Type} (z : α)

def table (ss : List (List α)) : List α := ss.flatMap (· ++ [z])

def area (ss : List (List α)) : List α := table z ss ++ [z]

theorem table_append (xs ys : List (List α)) : table z (xs ++ ys) = table z xs ++ table z ys := by
  simp [table]

theorem area_nil : area z [] = [z] := rfl

theorem area_cons (s : List α) (ss : List (List α)) : area z (s :: ss) = s ++ z :: area z ss := by
  simp [area, table]

theorem area_split (xs ys : List (List α)) (s : List α) :
    area z (xs ++ s :: ys) = table z xs ++ (s ++ z :: area z ys) := by
  simp [area, table]

theorem area_append (xs : List (List α)) (s : List α) :
    area z (xs ++ [s]) = table z xs ++ (s ++ [z, z]) := by
  rw [area_split, area_nil]

theorem length_table_le (xs ys : List (List α)) :
    (table z xs).length + (area z ys).length = (area z (xs ++ ys)).length := by
  simp [area, table_append]

theorem takeWhile_terminated [DecidableEq α] {s : List α} (hs : z ∉ s) (t : List α) :
    (s ++ z :: t).takeWhile (· ≠ z) = s := by
  have h : ∀ a ∈ s, decide (a ≠ z) = true := by
    intro a ha
    simpa using ne_of_mem_of_not_mem ha hs
  rw [List.takeWhile_append_of_pos h]
  simp

def Strings (ss : List (List α)) : Prop := ∀ s ∈ ss, s ≠ [] ∧ z ∉ s

def Closes (l : List α) : Prop := [z, z] <:+ z :: l

variable {z}

theorem Closes.ne_nil {l : List α} (h : Closes z l) : l ≠ [] := by
  rintro rfl
  have hle := h.length_le
  simp at hle

theorem closes_behind (a : List α) {r : List α} (hr : r ≠ []) :
    Closes z (a ++ z :: r) ↔ Closes z r := by
  have hsuffix : z :: r <:+ z :: (a ++ z :: r) := ⟨z :: a, rfl⟩
  constructor
  · intro h
    refine List.suffix_of_suffix_length_le h hsuffix ?_
    have hpos := List.length_pos_of_ne_nil hr
    simp only [List.length_cons, List.length_nil]
    omega
  · intro h
    exact h.trans hsuffix

theorem closes_table_append (ss : List (List α)) {r : List α} (h : Closes z r) :
    Closes z (table z ss ++ r) := by
  obtain rfl | ⟨xs, s, rfl⟩ := List.eq_nil_or_concat ss
  · exact h
  · have hsplit : table z (xs.concat s) ++ r = (table z xs ++ s) ++ z :: r := by simp [table]
    rw [hsplit]
    exact (closes_behind _ h.ne_nil).mpr h

theorem closes_area (ss : List (List α)) : Closes z (area z ss) :=
  closes_table_append ss (List.suffix_refl [z, z])

theorem not_closes_string {s : List α} (hne : s ≠ []) (hs : z ∉ s) : ¬Closes z (s ++ [z]) := by
  rintro ⟨p, hp⟩
  have hinner : p ++ [z] = z :: s := by
    have h2 : (p ++ [z]) ++ [z] = (z :: s) ++ [z] := by simpa using hp
    exact List.append_cancel_right h2
  cases p with
  | nil =>
    rw [List.nil_append, List.cons.injEq] at hinner
    exact hne hinner.2.symm
  | cons q p =>
    rw [List.cons_append, List.cons.injEq] at hinner
    exact hs (hinner.2 ▸ List.mem_append_right p List.mem_cons_self)

theorem closes_take {l : List α} {i : ℕ} (hi : i < l.length) :
    Closes z (l.take (i + 1)) ↔ l[i] = z ∧ (i = 0 ∨ l[i - 1]? = some z) := by
  have hpair (p : List α) (x y : α) : [z, z] <:+ p ++ [x, y] ↔ x = z ∧ y = z := by
    constructor
    · rintro ⟨q, hq⟩
      have htail := (List.append_inj' hq rfl).2
      rw [List.cons.injEq, List.cons.injEq] at htail
      exact ⟨htail.1.symm, htail.2.1.symm⟩
    · rintro ⟨rfl, rfl⟩
      exact List.suffix_append p _
  cases i with
  | zero =>
    rw [List.take_succ_eq_append_getElem hi, List.take_zero]
    refine (hpair [] z l[0]).trans ?_
    simp
  | succ j =>
    have hj : j < l.length := by omega
    rw [Closes, List.take_succ_eq_append_getElem hi, List.take_succ_eq_append_getElem hj,
      List.append_assoc, ← List.cons_append]
    refine (hpair (z :: l.take j) l[j] l[j + 1]).trans ?_
    simp [List.getElem?_eq_getElem hj, and_comm]

theorem Closes.exists_area {l : List α} (h : Closes z l) :
    ∃ ss junk, l = area z ss ++ junk ∧ Strings z ss := by
  induction hn : l.length using Nat.strong_induction_on generalizing l with
  | _ n ih =>
    have hmem : z ∈ l := by
      obtain ⟨p, hp⟩ := h
      cases p with
      | nil =>
        rw [List.nil_append, List.cons.injEq] at hp
        exact hp.2 ▸ List.mem_cons_self
      | cons q p =>
        rw [List.cons_append, List.cons.injEq] at hp
        exact hp.2 ▸ List.mem_append_right p List.mem_cons_self
    obtain ⟨s, r, rfl, hs⟩ := List.eq_append_cons_of_mem hmem
    by_cases hne : s = []
    · subst hne
      exact ⟨[], r, rfl, fun _ hx => absurd hx List.not_mem_nil⟩
    · have hr : r ≠ [] := by
        rintro rfl
        exact not_closes_string hne hs h
      have hlt : r.length < n := by
        rw [← hn, List.length_append, List.length_cons]
        omega
      obtain ⟨ss, junk, rfl, hss⟩ := ih r.length hlt ((closes_behind s hr).mp h) rfl
      refine ⟨s :: ss, junk, ?_, List.forall_mem_cons.mpr ⟨⟨hne, hs⟩, hss⟩⟩
      rw [area_cons, List.append_assoc, List.cons_append]

section Read

variable [DecidableEq α] (z)

def stringsFrom (s : List α) : List α → List (List α)
  | [] => []
  | b :: l =>
    if b ≠ z then stringsFrom (s ++ [b]) l
    else if s = [] then []
    else s :: stringsFrom [] l

def strings (l : List α) : List (List α) := stringsFrom z [] l

variable {z}

theorem stringsFrom_terminated {s t : List α} (ht : z ∉ t) (hne : s ++ t ≠ []) (l : List α) :
    stringsFrom z s (t ++ z :: l) = (s ++ t) :: strings z l := by
  induction t generalizing s with
  | nil =>
    rw [List.append_nil] at hne ⊢
    rw [List.nil_append, stringsFrom, if_neg (not_not.mpr rfl), if_neg hne]
    rfl
  | cons b t ih =>
    have hb : b ≠ z := (List.ne_of_not_mem_cons ht).symm
    have hst : (s ++ [b]) ++ t = s ++ b :: t := List.append_assoc s [b] t
    rw [List.cons_append, stringsFrom, if_pos hb,
      ih (List.not_mem_of_not_mem_cons ht) (hst ▸ hne), hst]

theorem strings_area {ss : List (List α)} (h : Strings z ss) (tail : List α) :
    strings z (area z ss ++ tail) = ss := by
  induction ss with
  | nil => simp [strings, area_nil, stringsFrom]
  | cons s ss ih =>
    obtain ⟨hne, hs⟩ := h s List.mem_cons_self
    rw [area_cons, List.append_assoc, List.cons_append, strings,
      stringsFrom_terminated (s := []) hs hne, List.nil_append,
      ih fun x hx => h x (List.mem_cons_of_mem s hx)]

end Read

end SynaBoot.StringArea
