import SynaBoot.CText

namespace SynaBoot.CString

open SynaBoot.CText

variable {x : Char} {s mem : List Char}

/-- `none` is a read behind the memory. -/
def strlen : List Char → Option ℕ
  | [] => none
  | c :: cs => if c = '\x00' then some 0 else (strlen cs).map (· + 1)

def strchr (x : Char) : List Char → Option (Option ℕ)
  | [] => none
  | c :: cs =>
    if c = x then some (some 0)
    else if c = '\x00' then some none
    else (strchr x cs).map (Option.map (· + 1))

def text (mem : List Char) : Option (List Char) := (strlen mem).map mem.take

theorem strlen_append (h : '\x00' ∉ s) : strlen (s ++ '\x00' :: mem) = some s.length := by
  induction s with
  | nil => rfl
  | cons c s ih =>
    rw [List.mem_cons, not_or] at h
    rw [List.cons_append, strlen, if_neg (Ne.symm h.1), ih h.2]
    rfl

theorem text_append (h : '\x00' ∉ s) : text (s ++ '\x00' :: mem) = some s := by
  rw [text, strlen_append h, Option.map_some, List.take_left]

theorem strchr_append (hx : x ∉ s) (h : '\x00' ∉ s) :
    strchr x (s ++ x :: mem) = some (some s.length) := by
  induction s with
  | nil => exact if_pos rfl
  | cons c s ih =>
    rw [List.mem_cons, not_or] at hx h
    rw [List.cons_append, strchr, if_neg (Ne.symm hx.1), if_neg (Ne.symm h.1), ih hx.2 h.2]
    rfl

theorem strchr_missing (hnul : x ≠ '\x00') (hx : x ∉ s) (h : '\x00' ∉ s) :
    strchr x (s ++ '\x00' :: mem) = some none := by
  induction s with
  | nil => rw [List.nil_append, strchr, if_neg (Ne.symm hnul), if_pos rfl]
  | cons c s ih =>
    rw [List.mem_cons, not_or] at hx h
    rw [List.cons_append, strchr, if_neg (Ne.symm hx.1), if_neg (Ne.symm h.1), ih hx.2 h.2]
    rfl

@[elab_as_elim]
theorem fields_induction {P : List Char → Prop} (x : Char) (s : List Char) (nil : P [])
    (last : ∀ f, f ≠ [] → x ∉ f → P f) (next : ∀ f s, x ∉ f → P s → P (f ++ x :: s)) : P s := by
  induction hn : s.length using Nat.strong_induction_on generalizing s with
  | h n ih =>
    by_cases hx : x ∈ s
    · obtain ⟨f, rest, rfl, hf⟩ := List.eq_append_cons_of_mem hx
      refine next f rest hf (ih rest.length ?_ rest rfl)
      rw [← hn, List.length_append, List.length_cons]
      omega
    · by_cases hs : s = []
      · exact hs ▸ nil
      · exact last s hs hx

theorem fields_last (hs : s ≠ []) (hx : x ∉ s) : fields x s = [s] := by
  rw [fields_of_not_mem hx, if_neg hs]

theorem mem_of_mem_fields {c : Char} {f : List Char} (hf : f ∈ fields x s) (hc : c ∈ f) :
    c ∈ s ∧ c ≠ x := by
  induction s using fields_induction x generalizing f with
  | nil => cases hf
  | last s hs hx =>
    rw [fields_last hs hx] at hf
    obtain rfl := List.mem_singleton.mp hf
    exact ⟨hc, fun h => hx (h ▸ hc)⟩
  | next g s hx ih =>
    rw [fields_append s hx] at hf
    obtain rfl | hf := List.mem_cons.mp hf
    · exact ⟨List.mem_append_left _ hc, fun h => hx (h ▸ hc)⟩
    · obtain ⟨hmem, hne⟩ := ih hf hc
      exact ⟨List.mem_append_right _ (List.mem_cons_of_mem _ hmem), hne⟩

end SynaBoot.CString
