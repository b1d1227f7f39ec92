import Mathlib.Tactic

namespace SynaBoot.PowerCut

variable {σ α β : Type}

/-- It returns, the power is lost, or it leaves what is modelled. -/
inductive Exec (σ α : Type) where
  | ret (a : α) (s : σ)
  | cut (s : σ)
  | fault

def Prog (σ α : Type) : Type := σ → Exec σ α

namespace Prog

def pure (a : α) : Prog σ α := fun s => .ret a s

def bind (p : Prog σ α) (f : α → Prog σ β) : Prog σ β := fun s =>
  match p s with
  | .ret a s' => f a s'
  | .cut s' => .cut s'
  | .fault => .fault

instance : Monad (Prog σ) where
  pure := pure
  bind := bind

def fault : Prog σ α := fun _ => .fault

end Prog

variable {f : α → Prog σ β} {p : Prog σ α}

theorem bind_ret {s s' : σ} {a : α} (h : p s = .ret a s') : (p >>= f) s = f a s' := by
  change Prog.bind p f s = _
  rw [Prog.bind, h]

theorem bind_eq_ret {s s'' : σ} {b : β} (h : (p >>= f) s = .ret b s'') :
    ∃ a s', p s = .ret a s' ∧ f a s' = .ret b s'' := by
  change Prog.bind p f s = _ at h
  unfold Prog.bind at h
  cases hp : p s with
  | ret a s' =>
    rw [hp] at h
    exact ⟨a, s', rfl, h⟩
  | cut s' =>
    rw [hp] at h
    cases h
  | fault =>
    rw [hp] at h
    cases h

theorem bind_bind {γ : Type} (p : Prog σ α) (f : α → Prog σ β) (k : β → Prog σ γ) :
    (p >>= f) >>= k = p >>= fun a => f a >>= k := by
  funext s
  change Prog.bind (Prog.bind p f) k s = Prog.bind p (fun a => Prog.bind (f a) k) s
  unfold Prog.bind
  cases p s <;> rfl

/-- No fault; results satisfy `Q`, and what a power cut leaves `C`. -/
def wp (p : Prog σ α) (Q : α → σ → Prop) (C : σ → Prop) (s : σ) : Prop :=
  match p s with
  | .ret a s' => Q a s'
  | .cut s' => C s'
  | .fault => False

theorem wp_pure (a : α) (Q : α → σ → Prop) (C : σ → Prop) (s : σ) :
    wp (Pure.pure a : Prog σ α) Q C s ↔ Q a s := Iff.rfl

theorem wp_bind (p : Prog σ α) (f : α → Prog σ β) (Q : β → σ → Prop) (C : σ → Prop) (s : σ) :
    wp (p >>= f) Q C s ↔ wp p (fun a s' => wp (f a) Q C s') C s := by
  change wp (Prog.bind p f) Q C s ↔ _
  unfold wp Prog.bind
  cases p s <;> rfl

variable {s : σ} {C : σ → Prop} {Q : α → σ → Prop}

theorem wp_mono {Q Q' : α → σ → Prop} {C C' : σ → Prop} (h : wp p Q C s)
    (hQ : ∀ a s', Q a s' → Q' a s') (hC : ∀ s', C s' → C' s') : wp p Q' C' s := by
  unfold wp at h ⊢
  cases hp : p s with
  | ret a s' =>
    rw [hp] at h
    exact hQ a s' h
  | cut s' =>
    rw [hp] at h
    exact hC s' h
  | fault =>
    rw [hp] at h
    exact h

theorem wp_ret {s s' : σ} {a : α} (h : wp p Q C s) (hp : p s = .ret a s') : Q a s' := by
  unfold wp at h
  rwa [hp] at h

theorem exists_ret (h : wp p Q (fun _ => False) s) : ∃ a s', p s = .ret a s' ∧ Q a s' := by
  unfold wp at h
  cases hp : p s with
  | ret a s' =>
    rw [hp] at h
    exact ⟨a, s', rfl, h⟩
  | cut s' =>
    rw [hp] at h
    exact h.elim
  | fault =>
    rw [hp] at h
    exact h.elim

theorem exists_cut (h : wp p (fun _ _ => False) C s) : ∃ s', p s = .cut s' ∧ C s' := by
  unfold wp at h
  cases hp : p s with
  | ret a s' =>
    rw [hp] at h
    exact h.elim
  | cut s' =>
    rw [hp] at h
    exact ⟨s', rfl, h⟩
  | fault =>
    rw [hp] at h
    exact h.elim

theorem wp_cut {s s' : σ} (h : wp p Q C s) (hp : p s = .cut s') : C s' := by
  unfold wp at h
  rwa [hp] at h

def Yields (p : Prog σ α) (Q : α → Prop) (s : σ) : Prop :=
  match p s with
  | .ret a _ => Q a
  | _ => True

theorem yields_pure {a : α} {Q : α → Prop} (h : Q a) (s : σ) : Yields (Pure.pure a : Prog σ α) Q s := h

theorem yields_of_ret {Q : α → Prop} (h : ∀ a s', p s = .ret a s' → Q a) : Yields p Q s := by
  unfold Yields
  cases hp : p s with
  | ret a s' => exact h a s' hp
  | cut s' => trivial
  | fault => trivial

theorem yields_bind {Q : β → Prop} (h : ∀ a s', p s = .ret a s' → Yields (f a) Q s') :
    Yields (p >>= f) Q s := by
  refine yields_of_ret fun b s'' hb => ?_
  obtain ⟨a, s', ha, hf⟩ := bind_eq_ret hb
  have hy := h a s' ha
  unfold Yields at hy
  rwa [hf] at hy

def Returns (p : Prog σ α) : Prop := ∀ s, ∃ a s', p s = .ret a s'

theorem returns_pure (a : α) : Returns (Pure.pure a : Prog σ α) := fun s => ⟨a, s, rfl⟩

theorem returns_bind (hp : Returns p) (hf : ∀ a, Returns (f a)) : Returns (p >>= f) := by
  intro s
  obtain ⟨a, s', ha⟩ := hp s
  rw [bind_ret ha]
  exact hf a s'

theorem returns_ite {c : Prop} [Decidable c] {p q : Prog σ α} (hp : c → Returns p)
    (hq : ¬ c → Returns q) : Returns (if c then p else q) := by
  split
  · next h => exact hp h
  · next h => exact hq h

end SynaBoot.PowerCut
