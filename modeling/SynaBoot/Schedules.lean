import Mathlib.Data.List.Count
import Mathlib.Tactic

namespace SynaBoot.Schedules

variable {σ α : Type} (step : α → σ → σ)

def run (s : σ) : List α → σ
  | [] => s
  | a :: as => run (step a s) as

def Meets (ok : σ → α → Prop) (s : σ) : List α → Prop
  | [] => True
  | a :: as => ok s a ∧ Meets ok (step a s) as

def decideMeets {ok : σ → α → Prop} [∀ s a, Decidable (ok s a)] :
    ∀ (s : σ) (as : List α), Decidable (Meets step ok s as)
  | _, [] => isTrue trivial
  | s, a :: as => @instDecidableAnd (ok s a) _ _ (decideMeets (step a s) as)

instance {ok : σ → α → Prop} [∀ s a, Decidable (ok s a)] (s : σ) (as : List α) :
    Decidable (Meets step ok s as) := decideMeets step s as

theorem run_append (s : σ) (as bs : List α) : run step s (as ++ bs) = run step (run step s as) bs := by
  induction as generalizing s with
  | nil => rfl
  | cons a as ih => exact ih (step a s)

variable {step} {ok : σ → α → Prop}

variable {as : List α} {s : σ} {ok' : σ → α → Prop}

theorem run_invariant {I : σ → Prop} (hstep : ∀ s a, I s → ok s a → I (step a s)) (h : I s)
    (hok : Meets step ok s as) : I (run step s as) := by
  induction as generalizing s with
  | nil => exact h
  | cons a as ih => exact ih (hstep s a h hok.1) hok.2

theorem Meets.mono (h : Meets step ok s as) (hmono : ∀ s a, ok s a → ok' s a) :
    Meets step ok' s as := by
  induction as generalizing s with
  | nil => trivial
  | cons a as ih => exact ⟨hmono s a h.1, ih h.2⟩

theorem Meets.and (h : Meets step ok s as) (h' : Meets step ok' s as) :
    Meets step (fun s a => ok s a ∧ ok' s a) s as := by
  induction as generalizing s with
  | nil => trivial
  | cons a as ih => exact ⟨⟨h.1, h'.1⟩, ih h.2 h'.2⟩

theorem Meets.append_iff {as bs : List α} :
    Meets step ok s (as ++ bs) ↔ Meets step ok s as ∧ Meets step ok (run step s as) bs := by
  induction as generalizing s with
  | nil => exact ⟨fun h => ⟨trivial, h⟩, fun h => h.2⟩
  | cons a as ih => exact (and_congr_right fun _ => ih).trans (and_assoc).symm

theorem always_iff {P : σ → Prop} :
    (∀ n, P (run step s (as.take n))) ↔ P s ∧ Meets step (fun s a => P (step a s)) s as := by
  induction as generalizing s with
  | nil =>
    constructor
    · intro h
      exact ⟨h 0, trivial⟩
    · intro h n
      rw [List.take_nil]
      exact h.1
  | cons a as ih =>
    constructor
    · intro h
      have hrest := ih.mp fun n => h (n + 1)
      exact ⟨h 0, hrest⟩
    · intro h n
      cases n with
      | zero => exact h.1
      | succ n => exact ih.mpr h.2 n

theorem meets_congr {I : σ → Prop} (hstep : ∀ s a, I s → ok s a → I (step a s))
    (hiff : ∀ s a, I s → (ok s a ↔ ok' s a)) (h : I s) :
    Meets step ok s as ↔ Meets step ok' s as := by
  induction as generalizing s with
  | nil => exact Iff.rfl
  | cons a as ih =>
    constructor
    · rintro ⟨ha, has⟩
      exact ⟨(hiff s a h).mp ha, (ih (hstep s a h ha)).mp has⟩
    · rintro ⟨ha, has⟩
      have ha' := (hiff s a h).mpr ha
      exact ⟨ha', (ih (hstep s a h ha')).mpr has⟩

theorem Meets.of_forall (h : ∀ s a, ok s a) (s : σ) (as : List α) : Meets step ok s as := by
  induction as generalizing s with
  | nil => trivial
  | cons a as ih => exact ⟨h s a, ih (step a s)⟩

theorem Meets.of_mem {P : α → Prop} (h : ∀ a ∈ as, P a) (s : σ) :
    Meets step (fun _ a => P a) s as := by
  induction as generalizing s with
  | nil => trivial
  | cons a as ih => exact ⟨h a List.mem_cons_self, ih (fun b hb => h b (List.mem_cons_of_mem a hb)) _⟩

theorem Meets.bounded (hok : Meets step ok s as) {P : σ → Prop} (hback : ∀ s a, P (step a s) → P s)
    (h : P (run step s as)) : P s ∧ Meets step (fun s a => ok s a ∧ P (step a s)) s as := by
  induction as generalizing s with
  | nil => exact ⟨h, trivial⟩
  | cons a as ih =>
    obtain ⟨hs, hm⟩ := ih hok.2 h
    exact ⟨hback s a hs, ⟨hok.1, hs⟩, hm⟩

theorem run_progress (I goal : σ → Prop) (rank : σ → Nat) (counts : α → Bool)
    (hstep : ∀ s a, I s → ok s a → I (step a s))
    (hgoal : ∀ s a, I s → ok s a → goal s → goal (step a s))
    (hcount : ∀ s a, I s → ok s a → counts a = true → ¬ goal s →
      goal (step a s) ∨ rank (step a s) < rank s)
    (hother : ∀ s a, I s → ok s a → counts a = false → rank (step a s) ≤ rank s)
    (hrank : ∀ s, I s → ¬ goal s → 0 < rank s) (h : I s) (hok : Meets step ok s as)
    (hle : rank s ≤ as.countP counts) : goal (run step s as) := by
  induction as generalizing s with
  | nil =>
    by_contra hg
    exact absurd hle (not_le.mpr (hrank s h hg))
  | cons a as ih =>
    have hstable : ∀ s as, I s → goal s → Meets step ok s as → goal (run step s as) :=
      fun s as h hg hok => (run_invariant (I := fun s => I s ∧ goal s)
        (fun s a hI hs => ⟨hstep s a hI.1 hs, hgoal s a hI.1 hs hI.2⟩) ⟨h, hg⟩ hok).2
    by_cases hg : goal s
    · exact hstable s (a :: as) h hg hok
    · have hI := hstep s a h hok.1
      cases hc : counts a with
      | true =>
        rw [List.countP_cons_of_pos hc] at hle
        rcases hcount s a h hok.1 hc hg with hg' | hlt
        · exact hstable (step a s) as hI hg' hok.2
        · exact ih hI hok.2 (by omega)
      | false =>
        rw [List.countP_cons_of_neg (by rw [hc]; exact Bool.false_ne_true)] at hle
        exact ih hI hok.2 (le_trans (hother s a h hok.1 hc) hle)

section Endless

variable (step)

/-- The state after the first actions of an endless schedule. -/
def after (acts : ℕ → α) (s : σ) : ℕ → σ
  | 0 => s
  | n + 1 => step (acts n) (after acts s n)

variable {step}

variable {acts : ℕ → α}

theorem after_invariant {I : ℕ → σ → Prop} {s : σ}
    (hstep : ∀ n s, I n s → I (n + 1) (step (acts n) s)) (h : I 0 s) (n : ℕ) :
    I n (after step acts s n) := by
  induction n with
  | zero => exact h
  | succ n ih => exact hstep n _ ih

theorem after_leads {P Q : σ → Prop} {s : σ}
    (hstep : ∀ n s, P s → P (step (acts n) s) ∨ Q (step (acts n) s)) {n : ℕ}
    (hlast : ∀ s, P s → Q (step (acts n) s)) (h : P s) : ∃ n, Q (after step acts s n) := by
  by_contra hno
  have hkeep (m : ℕ) : P (after step acts s m) := by
    induction m with
    | zero => exact h
    | succ m ih => exact (hstep m _ ih).resolve_right fun hQ => hno ⟨m + 1, hQ⟩
  exact hno ⟨n + 1, hlast _ (hkeep n)⟩

/-- Actions of a kind come again and again. -/
def Often (kind : α → Prop) (acts : ℕ → α) : Prop := ∀ n, ∃ m, n ≤ m ∧ kind (acts m)

def cycle (a : α) (as : List α) (n : ℕ) : α :=
  (a :: as).get ⟨n % (as.length + 1), Nat.mod_lt n (Nat.succ_pos as.length)⟩

theorem cycle_mem (a : α) (as : List α) (n : ℕ) : cycle a as n ∈ a :: as := List.get_mem _ _

theorem often_cycle {kind : α → Prop} {a b : α} {as : List α} (hb : b ∈ a :: as) (hk : kind b) :
    Often kind (cycle a as) := by
  intro n
  obtain ⟨⟨i, hi⟩, rfl⟩ := List.mem_iff_get.mp hb
  have hmod : (i + (as.length + 1) * n) % (as.length + 1) = i := by
    rw [Nat.add_mul_mod_self_left]
    exact Nat.mod_eq_of_lt hi
  refine ⟨i + (as.length + 1) * n, ?_, ?_⟩
  · exact le_add_left (Nat.le_mul_of_pos_left n (Nat.succ_pos as.length))
  · simpa only [cycle, hmod] using hk

def preceded (a : α) (acts : ℕ → α) (n : ℕ) : α := if n % 2 = 0 then a else acts (n / 2)

theorem Often.preceded {kind : α → Prop} (h : Often kind acts) (a : α) :
    Often kind (preceded a acts) := by
  intro n
  obtain ⟨m, hm, hk⟩ := h n
  refine ⟨2 * m + 1, by omega, ?_⟩
  have hodd : ¬ (2 * m + 1) % 2 = 0 := by omega
  have hhalf : (2 * m + 1) / 2 = m := by omega
  rw [Schedules.preceded, if_neg hodd, hhalf]
  exact hk

end Endless

end SynaBoot.Schedules
