import SynaBoot.CircularBuffer

namespace SynaBoot.PairLoop

open SynaBoot.CircularBuffer

variable {N : ℕ} [NeZero N] {α σ : Type}

def twoPending (b : Buffer N α) : Bool :=
  b.start.val + 1 < b.stop.val || (b.stop.val < b.start.val && b.start.val - b.stop.val < N - 1)

section Loops

variable (more : σ → Bool) (stray : α → Bool) (body : α → α → σ → σ)

/-- An element that cannot be the first of a pair is passed over. -/
def loop : ℕ → Buffer N α → σ → Buffer N α × σ
  | 0, b, s => (b, s)
  | fuel + 1, b, s =>
    if twoPending b && more s then
      if stray (b.slots b.start) then loop fuel b.skip s
      else loop fuel b.skip.skip (body (b.slots b.start) (b.skip.slots b.skip.start) s)
    else (b, s)

def scan : List α → σ → List α × σ
  | w :: v :: ws, s =>
    if more s then
      if stray w then scan (v :: ws) s else scan ws (body w v s)
    else (w :: v :: ws, s)
  | ws, s => (ws, s)

end Loops

variable {more : σ → Bool} {stray : α → Bool} {body : α → α → σ → σ} {b : Buffer N α} {s : σ}
  {ws later : List α}

theorem twoPending_iff : twoPending b ↔ 2 ≤ b.contents.length := by
  have hpending : b.pending = (N - b.start.val + b.stop.val) % N := Fin.val_sub b.stop b.start
  have hstart := b.start.isLt
  have hstop := b.stop.isLt
  rw [Buffer.length_contents, hpending, twoPending]
  simp only [Bool.or_eq_true, Bool.and_eq_true, decide_eq_true_eq]
  by_cases hle : b.start.val ≤ b.stop.val
  · have hadd : N - b.start.val + b.stop.val = b.stop.val - b.start.val + N := by omega
    rw [hadd, Nat.add_mod_right, Nat.mod_eq_of_lt (by omega)]
    omega
  · rw [Nat.mod_eq_of_lt (by omega)]
    omega

theorem exists_cons_cons (h : 2 ≤ ws.length) : ∃ w v vs, ws = w :: v :: vs := by
  match ws with
  | [] | [_] => exact absurd h (by simp)
  | w :: v :: vs => exact ⟨w, v, vs, rfl⟩

theorem scan_of_short (h : ws.length < 2) : scan more stray body ws s = (ws, s) := by
  match ws with
  | [] | [_] => rfl
  | _ :: _ :: _ => exact absurd h (by simp)

theorem scan_of_done (h : more s = false) : scan more stray body ws s = (ws, s) := by
  match ws with
  | [] | [_] => rfl
  | _ :: _ :: _ => rw [scan, if_neg (by rw [h]; exact Bool.false_ne_true)]

structure Follows (b : Buffer N α) (l : Buffer N α × σ) (r : List α × σ) : Prop where
  contents : l.1.contents = r.1
  state : l.2 = r.2
  slots : l.1.slots = b.slots
  stop : l.1.stop = b.stop

theorem loop_follows {fuel : ℕ} (hfuel : b.contents.length ≤ fuel) :
    Follows b (loop more stray body fuel b s) (scan more stray body b.contents s) := by
  induction fuel generalizing b s with
  | zero =>
    have hnil : b.contents = [] := List.length_eq_zero_iff.mp (Nat.le_zero.mp hfuel)
    rw [hnil]
    exact ⟨hnil, rfl, rfl, rfl⟩
  | succ fuel ih =>
    rw [loop]
    by_cases htwo : 2 ≤ b.contents.length
    · obtain ⟨w, v, ws, hb⟩ := exists_cons_cons htwo
      obtain ⟨hw, hskip⟩ := Buffer.contents_cons hb
      obtain ⟨hv, hskip'⟩ := Buffer.contents_cons hskip
      rw [hb, List.length_cons, List.length_cons] at hfuel
      rw [hb, scan, twoPending_iff.mpr htwo, Bool.true_and, hw, hv]
      split
      · split
        · have hrest := ih (b := b.skip) (s := s) (by rw [hskip, List.length_cons]; omega)
          rw [hskip] at hrest
          exact ⟨hrest.contents, hrest.state, hrest.slots, hrest.stop⟩
        · have hrest := ih (b := b.skip.skip) (s := body w v s) (by rw [hskip']; omega)
          rw [hskip'] at hrest
          exact ⟨hrest.contents, hrest.state, hrest.slots, hrest.stop⟩
      · exact ⟨hb, rfl, rfl, rfl⟩
    · rw [Bool.eq_false_of_not_eq_true (mt twoPending_iff.mp htwo), Bool.false_and,
        if_neg Bool.false_ne_true, scan_of_short (Nat.not_le.mp htwo)]
      exact ⟨rfl, rfl, rfl, rfl⟩

end SynaBoot.PairLoop
