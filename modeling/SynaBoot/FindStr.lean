import SynaBoot.SkipList

namespace SynaBoot.FindStr

open SynaBoot.CString SynaBoot.CText

/-- `none` is a read behind the memory. -/
def strncmp : List Char → List Char → Option Bool
  | _, [] => some true
  | [], _ => none
  | c :: mem, d :: str => if c = d then strncmp mem str else some false

/-- The character behind the text decides whether it is compared. -/
def sameAt (str : List Char) (split : Char) (list : List Char) : Option Bool := do
  let c ← list[str.length]?
  if split = c ∨ '\x00' = c then strncmp list str else some false

def search (str : List Char) (split : Char) (list : List Char) (pos : ℕ) : Option (Option ℕ) :=
  match list with
  | [] => none
  | c :: rest =>
    if c = '\x00' then some none
    else do
      if ← sameAt str split (c :: rest) then some (some pos)
      else
        match ← strchr split (c :: rest) with
        | none => some none
        | some k => search str split (rest.drop k) (pos + (k + 1))
termination_by list.length
decreasing_by
  rw [List.length_drop, List.length_cons]
  omega

def separator (split : Char) : Char := if split = '\x00' then ',' else split

/-- `none` is a read behind a memory; otherwise the place that was found. -/
def findStrInList (list str : Option (List Char)) (split : Char) : Option (Option ℕ) :=
  match list, str with
  | some list, some str => do
    let len ← strlen str
    search (str.take len) (separator split) list 0
  | _, _ => some none

def lastRoom (x : Char) (list : List Char) : ℕ :=
  ((fields x list).getLastD []).length + if list.getLast? = some x then 1 else 0

section Elements

variable {x y : Char} {f str s rest behind : List Char}

theorem strncmp_eq (hy : y ∉ str) :
    strncmp (f ++ y :: rest) str = some (decide (f.take str.length = str)) := by
  induction str generalizing f with
  | nil =>
    rw [strncmp]
    rfl
  | cons d str ih =>
    rw [List.mem_cons, not_or] at hy
    cases f with
    | nil =>
      rw [List.nil_append, strncmp, if_neg hy.1, List.take_nil]
      rfl
    | cons c f =>
      rw [List.cons_append, strncmp, List.length_cons, List.take_succ_cons]
      by_cases hc : c = d
      · rw [if_pos hc, ih hy.2, hc]
        simp only [List.cons.injEq, true_and]
      · rw [if_neg hc, decide_eq_false fun h => hc (List.cons.inj h).1]

theorem sameAt_eq (hf : x ∉ f) (hnul : '\x00' ∉ f) (hy : y = x ∨ y = '\x00') (hstr : y ∉ str) :
    sameAt str x (f ++ y :: rest) =
      if str.length ≤ f.length + rest.length then some (decide (str = f)) else none := by
  by_cases hroom : str.length ≤ f.length + rest.length
  · rw [if_pos hroom]
    have hlt : str.length < (f ++ y :: rest).length := by
      rw [List.length_append, List.length_cons]
      omega
    rw [sameAt, List.getElem?_eq_getElem hlt, Option.bind_eq_bind, Option.bind_some, strncmp_eq hstr]
    obtain hless | heq | hmore := Nat.lt_trichotomy str.length f.length
    · have hmem : (f ++ y :: rest)[str.length] ∈ f := by
        rw [List.getElem_append_left hless]
        exact List.getElem_mem hless
      have hother : ¬ (x = (f ++ y :: rest)[str.length] ∨ '\x00' = (f ++ y :: rest)[str.length]) := by
        rintro (h | h)
        · exact hf (h ▸ hmem)
        · exact hnul (h ▸ hmem)
      rw [if_neg hother, decide_eq_false fun h => hless.ne (congrArg List.length h)]
    · have hend : (f ++ y :: rest)[str.length] = y := by
        rw [List.getElem_append_right heq.ge]
        simp only [heq, Nat.sub_self, List.getElem_cons_zero]
      rw [hend, if_pos (hy.imp Eq.symm Eq.symm), heq, List.take_length]
      exact congrArg some (decide_eq_decide.mpr eq_comm)
    · have hlonger : ¬ f.take str.length = str := fun h => by
        have hlen := congrArg List.length h
        rw [List.length_take] at hlen
        omega
      rw [decide_eq_false hlonger, ite_self,
        decide_eq_false fun h => hmore.ne (congrArg List.length h).symm]
  · rw [if_neg hroom, sameAt, List.getElem?_eq_none]
    · rfl
    · rw [List.length_append, List.length_cons]
      omega

theorem length_le_of_mem_fields (h : f ∈ fields x s) : f.length ≤ s.length := by
  induction s using fields_induction x with
  | nil => cases h
  | last g hne hg =>
    rw [fields_last hne hg, List.mem_singleton] at h
    rw [h]
  | next g s hg ih =>
    rw [fields_append s hg, List.mem_cons] at h
    rw [List.length_append, List.length_cons]
    obtain rfl | h := h
    · exact Nat.le_add_right _ _
    · have hle := ih h
      omega

theorem lastRoom_last (hne : f ≠ []) (hf : x ∉ f) : lastRoom x f = f.length := by
  rw [lastRoom, fields_last hne hf, if_neg fun h => hf (List.mem_of_getLast? h)]
  rfl

theorem lastRoom_end (hf : x ∉ f) : lastRoom x (f ++ [x]) = f.length + 1 := by
  rw [lastRoom, fields_append [] hf, List.getLast?_concat, if_pos rfl]
  rfl

theorem fields_ne_nil (hs : s ≠ []) : fields x s ≠ [] := by
  induction s using fields_induction x with
  | nil => exact absurd rfl hs
  | last f hne hf =>
    rw [fields_last hne hf]
    exact List.cons_ne_nil _ _
  | next f s hf ih =>
    rw [fields_append s hf]
    exact List.cons_ne_nil _ _

theorem lastRoom_next (hf : x ∉ f) (hs : s ≠ []) : lastRoom x (f ++ x :: s) = lastRoom x s := by
  obtain ⟨g, gs, hfields⟩ := List.exists_cons_of_ne_nil (fields_ne_nil (x := x) hs)
  have hlast : (f ++ x :: s).getLast? = s.getLast? := by
    rw [List.append_cons, List.getLast?_append, List.getLast?_eq_some_getLast hs]
    rfl
  rw [lastRoom, lastRoom, fields_append s hf, hlast, hfields, List.getLastD_cons, List.getLastD_cons,
    List.getLastD_cons]

theorem lastRoom_le (x : Char) (s : List Char) : lastRoom x s ≤ s.length := by
  induction s using fields_induction x with
  | nil => exact le_rfl
  | last f hne hf => exact (lastRoom_last hne hf).le
  | next f s hf ih =>
    by_cases hs : s = []
    · rw [hs, lastRoom_end hf, List.length_append]
      rfl
    · rw [lastRoom_next hf hs, List.length_append, List.length_cons]
      omega

end Elements

section Search

variable {x : Char} {str s list behind : List Char} {pos : ℕ}

theorem search_step (hne : list ≠ []) (hhead : list.head? ≠ some '\x00') :
    search str x list pos = (sameAt str x list).bind fun found =>
      if found then some (some pos)
      else (strchr x list).bind fun next =>
        match next with
        | none => some none
        | some k => search str x (list.drop (k + 1)) (pos + (k + 1)) := by
  cases list with
  | nil => exact absurd rfl hne
  | cons c rest =>
    have hc : c ≠ '\x00' := fun h => hhead (congrArg some h)
    rw [search, if_neg hc]
    rfl

theorem search_next {f rest : List Char} (hx : x ≠ '\x00') (hf : x ∉ f) (hnul : '\x00' ∉ f)
    (hsep : x ∉ str) : search str x (f ++ x :: rest) pos =
      if str.length ≤ f.length + rest.length then
        if str = f then some (some pos) else search str x rest (pos + (f.length + 1))
      else none := by
  have hhead : (f ++ x :: rest).head? ≠ some '\x00' := by
    cases f with
    | nil => exact fun h => hx (Option.some.inj h)
    | cons c f => exact fun h => hnul (Option.some.inj h ▸ List.mem_cons_self)
  have hdrop : (f ++ x :: rest).drop (f.length + 1) = rest := by
    rw [List.append_cons]
    exact List.drop_left' (by rw [List.length_append, List.length_singleton])
  rw [search_step (by simp) hhead, sameAt_eq hf hnul (.inl rfl) hsep, strchr_append hf hnul]
  split
  · simp only [Option.bind_some, decide_eq_true_eq, hdrop]
  · rfl

theorem search_last {f rest : List Char} (hx : x ≠ '\x00') (hne : f ≠ []) (hf : x ∉ f)
    (hnul : '\x00' ∉ f) (hstr : '\x00' ∉ str) : search str x (f ++ '\x00' :: rest) pos =
      if str.length ≤ f.length + rest.length then some (if str = f then some pos else none)
      else none := by
  obtain ⟨c, cs, hcons⟩ := List.exists_cons_of_ne_nil hne
  have hhead : (f ++ '\x00' :: rest).head? ≠ some '\x00' := by
    rw [hcons] at hnul ⊢
    exact fun h => hnul (Option.some.inj h ▸ List.mem_cons_self)
  rw [search_step (by simp) hhead, sameAt_eq hf hnul (.inr rfl) hstr, strchr_missing hx hf hnul]
  split
  · simp only [Option.bind_some, decide_eq_true_eq]
    split <;> rfl
  · rfl

structure Decides (x : Char) (str s : List Char) (n : ℕ) (result : Option (Option ℕ)) : Prop where
  found : str ∈ fields x s → ∃ k, result = some (some k)
  missing : str ∉ fields x s → s = [] ∨ str.length ≤ lastRoom x s + n → result = some none
  past : str ∉ fields x s → s ≠ [] → lastRoom x s + n < str.length → result = none

theorem search_decides (hx : x ≠ '\x00') (hsep : x ∉ str) (hstr : '\x00' ∉ str) (hs : '\x00' ∉ s)
    (pos : ℕ) : Decides x str s behind.length (search str x (s ++ '\x00' :: behind) pos) := by
  induction s using fields_induction x generalizing pos with
  | nil =>
    refine ⟨fun h => (by cases h), fun _ _ => ?_, fun _ h => absurd rfl h⟩
    rw [List.nil_append, search, if_pos rfl]
  | last f hne hf =>
    rw [search_last hx hne hf hs hstr]
    constructor
    · intro h
      rw [fields_last hne hf, List.mem_singleton] at h
      rw [h, if_pos (Nat.le_add_right _ _), if_pos rfl]
      exact ⟨pos, rfl⟩
    · intro h hroom
      rw [fields_last hne hf, List.mem_singleton] at h
      rw [lastRoom_last hne hf, or_iff_right hne] at hroom
      rw [if_pos hroom, if_neg h]
    · intro h _ hroom
      rw [lastRoom_last hne hf] at hroom
      rw [if_neg (not_le.mpr hroom)]
  | next f s hf ih =>
    rw [List.mem_append, List.mem_cons, not_or, not_or] at hs
    have hrest := ih hs.2.2 (pos + (f.length + 1))
    have hfields := fields_append s hf
    have hlen : (s ++ '\x00' :: behind).length = s.length + (behind.length + 1) := by
      rw [List.length_append, List.length_cons]
    rw [List.append_assoc, List.cons_append, search_next hx hf hs.1 hsep, hlen]
    constructor
    · intro h
      rw [hfields, List.mem_cons] at h
      by_cases heq : str = f
      · rw [heq, if_pos (Nat.le_add_right _ _), if_pos rfl]
        exact ⟨pos, rfl⟩
      · have hmem := h.resolve_left heq
        have hle := length_le_of_mem_fields hmem
        rw [if_pos (by omega), if_neg heq]
        exact hrest.found hmem
    · intro h hroom
      rw [hfields, List.mem_cons, not_or] at h
      have hroom := hroom.resolve_left (by simp)
      by_cases hend : s = []
      · rw [hend, lastRoom_end hf] at hroom
        rw [if_pos (by omega), if_neg h.1]
        exact hrest.missing h.2 (.inl hend)
      · rw [lastRoom_next hf hend] at hroom
        have hle := lastRoom_le x s
        rw [if_pos (by omega), if_neg h.1]
        exact hrest.missing h.2 (.inr hroom)
    · intro h _ hroom
      rw [hfields, List.mem_cons, not_or] at h
      by_cases hend : s = []
      · rw [hend, lastRoom_end hf] at hroom
        rw [hend, List.length_nil, if_neg (by omega)]
      · rw [lastRoom_next hf hend] at hroom
        rw [if_neg h.1, hrest.past h.2 hend hroom, ite_self]

theorem Decides.iff {n : ℕ} {result : Option (Option ℕ)} (h : Decides x str s n result) :
    (∃ r, result = some r ∧ (r ≠ none ↔ str ∈ fields x s)) ↔
      s = [] ∨ str ∈ fields x s ∨ str.length ≤ lastRoom x s + n := by
  by_cases hmem : str ∈ fields x s
  · obtain ⟨k, hk⟩ := h.found hmem
    exact iff_of_true ⟨some k, hk, iff_of_true (Option.some_ne_none k) hmem⟩ (.inr (.inl hmem))
  · rw [or_iff_right hmem]
    constructor
    · rintro ⟨r, hr, -⟩
      by_contra hpast
      rw [not_or, not_le] at hpast
      rw [h.past hmem hpast.1 hpast.2] at hr
      cases hr
    · intro hroom
      exact ⟨none, h.missing hmem hroom, iff_of_false (fun hne => hne rfl) hmem⟩

end Search

section Calls

variable {list str behind : List Char}

theorem separator_ne (split : Char) : separator split ≠ '\x00' := by
  unfold separator
  split
  · decide
  · assumption

theorem findStrInList_decides (split : Char) (hlist : '\x00' ∉ list) (hstr : '\x00' ∉ str)
    (hsep : separator split ∉ str) :
    Decides (separator split) str list behind.length
      (findStrInList (some (list ++ '\x00' :: behind)) (some (str ++ ['\x00'])) split) := by
  rw [findStrInList, strlen_append hstr, Option.bind_eq_bind, Option.bind_some, List.take_left]
  exact search_decides (separator_ne split) hsep hstr hlist 0

theorem findStrInList_agrees (hlist : '\x00' ∉ list) (hstr : '\x00' ∉ str) (hsep : ',' ∉ str)
    (hroom : str.length ≤ behind.length) :
    ∃ r, findStrInList (some (list ++ '\x00' :: behind)) (some (str ++ ['\x00'])) ',' = some r ∧
      r.isSome = SkipList.findStrInList list str := by
  have hdecides : Decides ',' str list behind.length _ := findStrInList_decides ',' hlist hstr hsep
  have hiff := SkipList.findStrInList_iff hsep hlist
  obtain ⟨r, hr, hmem⟩ := hdecides.iff.mpr (.inr (.inr (hroom.trans (Nat.le_add_left _ _))))
  refine ⟨r, hr, Bool.eq_iff_iff.mpr ?_⟩
  rw [hiff, ← hmem, Option.isSome_iff_ne_none]

theorem findStrInList_agrees_element : ∃ r,
    findStrInList (some (['a', ',', 'b'] ++ '\x00' :: ['c'])) (some (['b'] ++ ['\x00'])) ',' = some r ∧
      r.isSome = SkipList.findStrInList ['a', ',', 'b'] ['b'] :=
  findStrInList_agrees (by decide) (by decide) (by decide) (by decide)

end Calls

/-- It reads behind the list exactly if the text is no element and longer than what is left. -/
theorem find_str_decides_iff (list str : List Char) (split : Char) (hlist : '\x00' ∉ list)
    (hstr : '\x00' ∉ str) (hsep : separator split ∉ str) :
    (∃ r, findStrInList (some (list ++ ['\x00'])) (some (str ++ ['\x00'])) split = some r ∧
        (r ≠ none ↔ str ∈ fields (separator split) list)) ↔
      list = [] ∨ str ∈ fields (separator split) list ∨
        str.length ≤ lastRoom (separator split) list :=
  (findStrInList_decides split hlist hstr hsep).iff

theorem element_decided : ∃ r,
    findStrInList (some (['a', ',', 'b'] ++ ['\x00'])) (some (['b'] ++ ['\x00'])) ',' = some r ∧
      (r ≠ none ↔ ['b'] ∈ fields (separator ',') ['a', ',', 'b']) :=
  (find_str_decides_iff ['a', ',', 'b'] ['b'] ',' (by decide) (by decide) (by decide)).mpr
    (.inr (.inl (by decide)))

theorem short_list_left :
    findStrInList (some (['a'] ++ ['\x00'])) (some (['b', 'c', 'd'] ++ ['\x00'])) ',' = none := by
  decide +kernel

end SynaBoot.FindStr
