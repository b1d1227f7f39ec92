import SynaBoot.StringArea

namespace SynaBoot.CheckedStrings

/- Walks over the strings of a memory that ends somewhere: `none` is an access past the end. -/

variable {α : Type} [DecidableEq α] (z : α)

def strlen : List α → Option ℕ
  | [] => none
  | b :: l => if b = z then some 0 else (strlen l).map (· + 1)

def strncmp : List α → List α → Option Bool
  | _, [] => some true
  | [], _ :: _ => none
  | b :: l, k :: key => if b ≠ k then some false else if b = z then some true else strncmp l key

def strcmp : List α → List α → Option Bool
  | [], _ => none
  | b :: _, [] => some (decide (b = z))
  | b :: l, v :: value => if b ≠ v then some false else strcmp l value

def strncpy : List α → ℕ → Option (List α)
  | _, 0 => some []
  | [], _ + 1 => none
  | b :: l, n + 1 => if b = z then some (List.replicate (n + 1) z) else (strncpy l n).map (b :: ·)

variable {z} {s key : List α}

theorem strlen_terminated (hs : z ∉ s) (t : List α) : strlen z (s ++ z :: t) = some s.length := by
  induction s with
  | nil => exact if_pos rfl
  | cons b s ih =>
    rw [List.cons_append, strlen, if_neg (List.ne_of_not_mem_cons hs).symm, ih (List.not_mem_of_not_mem_cons hs)]
    rfl

theorem strncmp_terminated (hkey : z ∉ key) (hs : z ∉ s) (t : List α) :
    strncmp z (s ++ z :: t) key = some (decide (key <+: s)) := by
  induction key generalizing s with
  | nil => simp [strncmp]
  | cons k key ih =>
    cases s with
    | nil =>
      rw [List.nil_append, strncmp, if_pos (List.ne_of_not_mem_cons hkey)]
      simp
    | cons b s =>
      rw [List.cons_append, strncmp, if_neg (List.ne_of_not_mem_cons hs).symm]
      by_cases hb : b = k
      · subst hb
        rw [if_neg (not_not.mpr rfl), ih (List.not_mem_of_not_mem_cons hkey) (List.not_mem_of_not_mem_cons hs)]
        simp [List.cons_prefix_cons]
      · rw [if_pos hb]
        simp [List.cons_prefix_cons, Ne.symm hb]

theorem strcmp_terminated {value : List α} (hs : z ∉ s) (hv : z ∉ value) (t : List α) :
    strcmp z (s ++ z :: t) value = some (decide (s = value)) := by
  induction s generalizing value with
  | nil =>
    cases value with
    | nil => simp [strcmp]
    | cons v value =>
      rw [List.nil_append, strcmp, if_pos (List.ne_of_not_mem_cons hv)]
      simp
  | cons b s ih =>
    cases value with
    | nil =>
      rw [List.cons_append, strcmp]
      simp [(List.ne_of_not_mem_cons hs).symm]
    | cons v value =>
      rw [List.cons_append, strcmp]
      by_cases hb : b = v
      · subst hb
        rw [if_neg (not_not.mpr rfl), ih (List.not_mem_of_not_mem_cons hs) (List.not_mem_of_not_mem_cons hv)]
        simp
      · rw [if_pos hb]
        simp [hb]

theorem strncpy_terminated (hs : z ∉ s) (t : List α) (n : ℕ) :
    strncpy z (s ++ z :: t) n = some (s.take n ++ List.replicate (n - (s.take n).length) z) := by
  induction s generalizing n with
  | nil =>
    cases n with
    | zero => rfl
    | succ n => simp [strncpy]
  | cons b s ih =>
    cases n with
    | zero => rfl
    | succ n =>
      rw [List.cons_append, strncpy, if_neg (List.ne_of_not_mem_cons hs).symm, ih (List.not_mem_of_not_mem_cons hs)]
      simp

end SynaBoot.CheckedStrings
