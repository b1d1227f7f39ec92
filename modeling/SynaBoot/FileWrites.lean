import Mathlib.Tactic

namespace SynaBoot.FileWrites

variable {α : Type} {file : List α} {p q : ℕ} {bs cs : List α} {ws : List (ℕ × List α)}

def Holds (file : List α) (pos : ℕ) (bs : List α) : Prop :=
  ∀ i (hi : i < bs.length), file[pos + i]? = some bs[i]

theorem Holds.length (h : Holds file p bs) (hne : bs ≠ []) : p + bs.length ≤ file.length := by
  have hpos := List.length_pos_of_ne_nil hne
  have hlast := (List.getElem?_eq_some_iff.mp (h (bs.length - 1) (by omega))).1
  omega

def Apart (v w : ℕ × List α) : Prop := v.1 + v.2.length ≤ w.1 ∨ w.1 + w.2.length ≤ v.1

instance : Std.Symm (Apart (α := α)) := ⟨fun _ _ h => Or.symm h⟩

def wrapped (M : ℕ) (ws : List (ℕ × List α)) : List (ℕ × List α) :=
  ws.map fun w => (w.1 % M, w.2)

theorem exists_last (h : ∃ w ∈ ws, w.2 ≠ []) :
    ∃ w ∈ ws, w.2 ≠ [] ∧ ∀ v ∈ ws, v.2 ≠ [] → v.1 ≤ w.1 := by
  have hfin : { w | w ∈ ws ∧ w.2 ≠ [] }.Finite := ws.finite_toSet.subset fun _ hw => hw.1
  obtain ⟨w, ⟨hw, hne⟩, hmax⟩ := Set.exists_max_image _ Prod.fst hfin h
  exact ⟨w, hw, hne, fun v hv hv' => hmax v ⟨hv, hv'⟩⟩

variable [Inhabited α]

def front (file : List α) (pos : ℕ) : List α :=
  file.take pos ++ List.replicate (pos - file.length) default

def writeAt (file : List α) (pos : ℕ) (bs : List α) : List α :=
  if bs = [] then file else front file pos ++ (bs ++ file.drop (pos + bs.length))

def writes (ws : List (ℕ × List α)) (file : List α) : List α :=
  ws.foldl (fun file w => writeAt file w.1 w.2) file

theorem length_front (file : List α) (pos : ℕ) : (front file pos).length = pos := by
  rw [front, List.length_append, List.length_take, List.length_replicate]
  omega

theorem writeAt_nil : writeAt file p [] = file := if_pos rfl

theorem length_writeAt (h : bs ≠ []) :
    (writeAt file p bs).length = max file.length (p + bs.length) := by
  rw [writeAt, if_neg h, List.length_append, List.length_append, length_front, List.length_drop]
  omega

theorem holds_writeAt (file : List α) (p : ℕ) (bs : List α) : Holds (writeAt file p bs) p bs := by
  intro i hi
  have hne : bs ≠ [] := List.ne_nil_of_length_pos (Nat.zero_lt_of_lt hi)
  rw [writeAt, if_neg hne, List.getElem?_append_right (by rw [length_front]; omega), length_front,
    Nat.add_sub_cancel_left, List.getElem?_append_left hi, List.getElem?_eq_getElem hi]

theorem Holds.writeAt (h : Holds file p bs) (hapart : p + bs.length ≤ q ∨ q + cs.length ≤ p) :
    Holds (writeAt file q cs) p bs := by
  by_cases hne : cs = []
  · rw [hne, writeAt_nil]
    exact h
  · intro i hi
    have hlen : p + i < file.length := (List.getElem?_eq_some_iff.mp (h i hi)).1
    rw [← h i hi, FileWrites.writeAt, if_neg hne]
    obtain hbefore | hbehind := hapart
    · rw [List.getElem?_append_left (by rw [length_front]; omega), front,
        List.getElem?_append_left (by rw [List.length_take]; omega),
        List.getElem?_take_of_lt (by omega)]
    · rw [List.getElem?_append_right (by rw [length_front]; omega), length_front,
        List.getElem?_append_right (by omega), List.getElem?_drop]
      congr 1
      omega

section Layout

variable {M : ℕ}

theorem Holds.writes (h : Holds file p bs) (hapart : ∀ w ∈ ws, Apart (p, bs) w) :
    Holds (writes ws file) p bs := by
  induction ws generalizing file with
  | nil => exact h
  | cons w ws ih =>
    exact ih (h.writeAt (hapart w List.mem_cons_self)) fun v hv => hapart v (List.mem_cons_of_mem w hv)

theorem holds_writes (h : ws.Pairwise Apart) (file : List α) :
    ∀ w ∈ ws, Holds (writes ws file) w.1 w.2 := by
  induction ws generalizing file with
  | nil => exact fun w hw => by cases hw
  | cons v ws ih =>
    obtain ⟨hv, hws⟩ := List.pairwise_cons.mp h
    intro w hw
    obtain rfl | hw := List.mem_cons.mp hw
    · exact (holds_writeAt file w.1 w.2).writes hv
    · exact ih hws _ w hw

theorem length_writes_le {n : ℕ} (hfile : file.length ≤ n)
    (h : ∀ w ∈ ws, w.2 ≠ [] → w.1 + w.2.length ≤ n) : (writes ws file).length ≤ n := by
  induction ws generalizing file with
  | nil => exact hfile
  | cons w ws ih =>
    refine ih ?_ fun v hv => h v (List.mem_cons_of_mem w hv)
    dsimp only
    by_cases hne : w.2 = []
    · rw [hne, writeAt_nil]
      exact hfile
    · rw [length_writeAt hne]
      exact max_le hfile (h w List.mem_cons_self hne)

theorem writes_wrapped (h : ∀ w ∈ ws, w.2 ≠ [] → w.1 < M) (file : List α) :
    writes (wrapped M ws) file = writes ws file := by
  induction ws generalizing file with
  | nil => rfl
  | cons w ws ih =>
    have hhead : writeAt file (w.1 % M) w.2 = writeAt file w.1 w.2 := by
      by_cases hne : w.2 = []
      · rw [hne, writeAt_nil, writeAt_nil]
      · rw [Nat.mod_eq_of_lt (h w List.mem_cons_self hne)]
    have hrest := ih (fun v hv => h v (List.mem_cons_of_mem w hv)) (writeAt file w.1 w.2)
    rw [writes, wrapped, List.map_cons, List.foldl_cons, hhead]
    exact hrest

theorem unwrapped_of_length (hM : 0 < M) (hapart : ws.Pairwise Apart)
    (hlen : ∀ w ∈ ws, w.2 ≠ [] → w.1 + w.2.length ≤ (writes (wrapped M ws) []).length) :
    ∀ w ∈ ws, w.2 ≠ [] → w.1 < M := by
  intro w hw hne
  by_contra hwrap
  obtain ⟨l, hl, hlne, hmax⟩ := exists_last ⟨w, hw, hne⟩
  have hlM : M ≤ l.1 := (Nat.not_lt.mp hwrap).trans (hmax w hw hne)
  have hlpos := List.length_pos_of_ne_nil hlne
  have hend : ∀ v ∈ ws, v.2 ≠ [] → v = l ∨ v.1 + v.2.length ≤ l.1 := by
    intro v hv hvne
    by_cases hvl : v = l
    · exact .inl hvl
    · have hvmax := hmax v hv hvne
      obtain h | h := hapart.forall hv hl hvl
      · exact .inr h
      · omega
  have hshort : (writes (wrapped M ws) []).length ≤ l.1 + l.2.length - 1 := by
    refine length_writes_le (Nat.zero_le _) fun u hu hune => ?_
    obtain ⟨v, hv, rfl⟩ := List.mem_map.mp hu
    dsimp only at hune ⊢
    have hmod := Nat.mod_lt v.1 hM
    obtain rfl | h := hend v hv hune
    · omega
    · have hle := Nat.mod_le v.1 M
      omega
  have := hlen l hl hlne
  omega

end Layout

end SynaBoot.FileWrites
