import Mathlib.Data.List.Basic
import Mathlib.Tactic

namespace SynaBoot.DoublyLinked

variable {ι : Type}

def Segment (prv nxt : ι → Option ι) : Option ι → List ι → Option ι → Prop
  | _, [], _ => True
  | p, a :: l, q => prv a = p ∧ nxt a = l.head?.or q ∧ Segment prv nxt (some a) l q

variable {prv nxt prv' nxt' : ι → Option ι} {l m : List ι}

theorem segment_congr {l : List ι} (hp : ∀ a ∈ l, prv' a = prv a) (hn : ∀ a ∈ l, nxt' a = nxt a)
    (p q : Option ι) (h : Segment prv nxt p l q) : Segment prv' nxt' p l q := by
  induction l generalizing p with
  | nil => trivial
  | cons a l ih =>
    obtain ⟨h1, h2, h3⟩ := h
    refine ⟨(hp a (by simp)).trans h1, (hn a (by simp)).trans h2, ?_⟩
    exact ih (fun b hb => hp b (by simp [hb])) (fun b hb => hn b (by simp [hb])) (some a) h3

theorem segment_append (prv nxt : ι → Option ι) (p q : Option ι) (l m : List ι) :
    Segment prv nxt p (l ++ m) q ↔
      Segment prv nxt p l (m.head?.or q) ∧ Segment prv nxt (l.getLast?.or p) m q := by
  induction l generalizing p with
  | nil => simp [Segment]
  | cons a l ih =>
    have hhead : (l ++ m).head?.or q = l.head?.or (m.head?.or q) := by
      cases l <;> simp
    have hlast : (a :: l).getLast?.or p = l.getLast?.or (some a) := by
      cases l with
      | nil => rfl
      | cons b l =>
        rw [List.getLast?_cons_cons]
        cases hl : (b :: l).getLast? with
        | none => simp at hl
        | some c => rfl
    simp only [List.cons_append, Segment, ih (some a), hhead, hlast, and_assoc]

theorem segment_singleton (prv nxt : ι → Option ι) (p q : Option ι) (a : ι) :
    Segment prv nxt p [a] q ↔ prv a = p ∧ nxt a = q := by
  simp [Segment]

theorem segment_at {prv nxt : ι → Option ι} {p q : Option ι} {a : ι}
    (h : Segment prv nxt p (l ++ a :: m) q) : prv a = l.getLast?.or p ∧ nxt a = m.head?.or q := by
  obtain ⟨-, h⟩ := (segment_append prv nxt p q l (a :: m)).mp h
  exact ⟨h.1, h.2.1⟩

theorem segment_relink_end {p q r : Option ι} {l : List ι} (h : Segment prv nxt p l q)
    (hp : ∀ a ∈ l, prv' a = prv a) (hn : ∀ a ∈ l, l.getLast? ≠ some a → nxt' a = nxt a)
    (hlast : ∀ a, l.getLast? = some a → nxt' a = r) (hnd : l.Nodup) : Segment prv' nxt' p l r := by
  induction l generalizing p with
  | nil => trivial
  | cons a l ih =>
    obtain ⟨h1, h2, h3⟩ := h
    obtain ⟨hna, hnl⟩ := List.nodup_cons.mp hnd
    cases l with
    | nil =>
      refine ⟨(hp a (by simp)).trans h1, ?_, trivial⟩
      exact hlast a rfl
    | cons b l =>
      have hne : (a :: b :: l).getLast? ≠ some a := by
        intro he
        rw [List.getLast?_cons_cons] at he
        exact hna (List.mem_of_getLast? he)
      refine ⟨(hp a (by simp)).trans h1, (hn a (by simp) hne).trans h2, ?_⟩
      apply ih h3 (fun c hc => hp c (by simp [hc]))
      · intro c hc hcl
        apply hn c (by simp [hc])
        rwa [List.getLast?_cons_cons]
      · intro c hc
        apply hlast c
        rwa [List.getLast?_cons_cons]
      · exact hnl

theorem segment_relink_start {p q r : Option ι} {l : List ι} (h : Segment prv nxt p l q)
    (hn : ∀ a ∈ l, nxt' a = nxt a) (hp : ∀ a ∈ l, l.head? ≠ some a → prv' a = prv a)
    (hfirst : ∀ a, l.head? = some a → prv' a = r) (hnd : l.Nodup) : Segment prv' nxt' r l q := by
  cases l with
  | nil => trivial
  | cons a l =>
    obtain ⟨h1, h2, h3⟩ := h
    obtain ⟨hna, -⟩ := List.nodup_cons.mp hnd
    refine ⟨hfirst a rfl, (hn a (by simp)).trans h2, ?_⟩
    apply segment_congr _ (fun b hb => hn b (by simp [hb])) (some a) q h3
    intro b hb
    apply hp b (by simp [hb])
    intro he
    cases he
    exact hna hb

theorem getLast?_not_mem_right (hnd : (l ++ m).Nodup) {x : ι} (hx : x ∈ m) :
    l.getLast? ≠ some x := by
  intro he
  exact (List.nodup_append.mp hnd).2.2 x (List.mem_of_getLast? he) x hx rfl

theorem head?_not_mem_left (hnd : (l ++ m).Nodup) {x : ι} (hx : x ∈ l) : m.head? ≠ some x := by
  intro he
  exact (List.nodup_append.mp hnd).2.2 x hx x (List.mem_of_head? he) rfl

theorem segment_join [DecidableEq ι] {p q r s : Option ι} (hl : Segment prv nxt p l q)
    (hm : Segment prv nxt r m s) (hnd : (l ++ m).Nodup)
    (hn : ∀ x ∈ l ++ m, nxt' x = if l.getLast? = some x then m.head?.or s else nxt x)
    (hp : ∀ x ∈ l ++ m, prv' x = if m.head? = some x then l.getLast?.or p else prv x) :
    Segment prv' nxt' p (l ++ m) s := by
  obtain ⟨hndl, hndm, -⟩ := List.nodup_append.mp hnd
  rw [segment_append]
  constructor
  · refine segment_relink_end hl ?_ ?_ ?_ hndl
    · intro x hx
      rw [hp x (by simp [hx]), if_neg (head?_not_mem_left hnd hx)]
    · intro x hx hne
      rw [hn x (by simp [hx]), if_neg hne]
    · intro x hx
      rw [hn x (by simp [List.mem_of_getLast? hx]), if_pos hx]
  · refine segment_relink_start hm ?_ ?_ ?_ hndm
    · intro x hx
      rw [hn x (by simp [hx]), if_neg (getLast?_not_mem_right hnd hx)]
    · intro x hx hne
      rw [hp x (by simp [hx]), if_neg hne]
    · intro x hx
      rw [hp x (by simp [List.mem_of_head? hx]), if_pos hx]

theorem segment_unlink [DecidableEq ι] {a : ι} (h : Segment prv nxt none (l ++ a :: m) none)
    (hnd : (l ++ a :: m).Nodup)
    (hn : ∀ x ∈ l ++ m, nxt' x = if l.getLast? = some x then m.head? else nxt x)
    (hp : ∀ x ∈ l ++ m, prv' x = if m.head? = some x then l.getLast? else prv x) :
    Segment prv' nxt' none (l ++ m) none := by
  obtain ⟨hl, -, -, hm⟩ := (segment_append prv nxt none none l (a :: m)).mp h
  have hnd' : (l ++ m).Nodup := hnd.sublist (by simp)
  exact segment_join hl hm hnd' (by simpa using hn) (by simpa using hp)

theorem segment_link [DecidableEq ι] {a : ι} (h : Segment prv nxt none (l ++ m) none)
    (hnd : (l ++ a :: m).Nodup)
    (hn : ∀ x ∈ l ++ m, nxt' x = if l.getLast? = some x then some a else nxt x)
    (hp : ∀ x ∈ l ++ m, prv' x = if m.head? = some x then some a else prv x)
    (han : nxt' a = m.head?) (hap : prv' a = l.getLast?) :
    Segment prv' nxt' none (l ++ a :: m) none := by
  obtain ⟨hl, hm⟩ := (segment_append prv nxt none none l m).mp h
  obtain ⟨hndl, hndam, -⟩ := List.nodup_append.mp hnd
  obtain ⟨ham, hndm⟩ := List.nodup_cons.mp hndam
  have hnd' : (l ++ m).Nodup := hnd.sublist (by simp)
  rw [segment_append]
  refine ⟨?_, by simpa using hap, by simpa using han, ?_⟩
  · refine segment_relink_end hl ?_ ?_ ?_ hndl
    · intro x hx
      rw [hp x (by simp [hx]), if_neg (head?_not_mem_left hnd' hx)]
    · intro x hx hne
      rw [hn x (by simp [hx]), if_neg hne]
    · intro x hx
      rw [hn x (by simp [List.mem_of_getLast? hx]), if_pos hx]
      rfl
  · refine segment_relink_start hm ?_ ?_ ?_ hndm
    · intro x hx
      rw [hn x (by simp [hx]), if_neg (getLast?_not_mem_right hnd' hx)]
    · intro x hx hne
      rw [hp x (by simp [hx]), if_neg hne]
    · intro x hx
      rw [hp x (by simp [List.mem_of_head? hx]), if_pos hx]

end SynaBoot.DoublyLinked
