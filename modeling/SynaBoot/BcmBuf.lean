import SynaBoot.Schedules

namespace SynaBoot.BcmBuf

open SynaBoot.Schedules

inductive BcmbufError where
  | ok
  | ebadparam
  | ebcmbuffull
  deriving DecidableEq, Repr

/-- `tail` and `writer` are counted in words from `head` on. -/
structure Bcmbuf where
  tail : ℕ
  writer : ℕ
  size : ℤ
  subID : ℤ
  deriving DecidableEq, Repr

def bcmbufCreate (size : ℤ) (b : Bcmbuf) : BcmbufError × Bcmbuf :=
  if size ≤ 0 then (.ebadparam, b) else (.ok, { b with size := size })

def bcmbufReset (b : Bcmbuf) : Bcmbuf :=
  { b with tail := b.size.toNat, writer := 0, subID := -1 }

def bcmbufSelect (subID : ℤ) (b : Bcmbuf) : Bcmbuf := { b with writer := 0, subID := subID }

def bcmbufWrite (address value : UInt32) (b : Bcmbuf) : BcmbufError × List (ℕ × UInt32) × Bcmbuf :=
  if b.writer = b.tail then (.ebcmbuffull, [], b)
  else (.ok, [(b.writer, value), (b.writer + 1, address)], { b with writer := b.writer + 2 })

inductive Act where
  | reset
  | select (subID : ℤ)
  | write (address value : UInt32)

def step : Act → Bcmbuf → Bcmbuf
  | .reset, b => bcmbufReset b
  | .select subID, b => bcmbufSelect subID b
  | .write address value, b => (bcmbufWrite address value b).2.2

/-- The words stored lie in the buffer, and a full buffer is reported. -/
def Inside (b : Bcmbuf) : Act → Prop
  | .reset | .select _ => True
  | .write address value =>
    (∀ x ∈ (bcmbufWrite address value b).2.1, 4 * (x.1 : ℤ) + 4 ≤ b.size) ∧
      (b.size - 4 * b.writer < 8 → (bcmbufWrite address value b).1 = .ebcmbuffull)

def Sparse (limit : ℕ) : ℕ → List Act → Prop
  | _, [] => True
  | _, .reset :: as | _, .select _ :: as => Sparse limit 0 as
  | made, .write _ _ :: as => made < limit ∧ Sparse limit (made + 1) as

section Writes

variable {b : Bcmbuf} {made : ℕ} {acts : List Act}

structure Filled (b : Bcmbuf) (made : ℕ) : Prop where
  size : 0 < b.size
  tail : b.tail = b.size.toNat
  writer : b.writer = 2 * made

theorem Filled.inside_iff (address value : UInt32) (h : Filled b made)
    (hmade : made ≤ b.size.toNat / 8) : Inside b (.write address value) ↔ made < b.size.toNat / 8 := by
  have hsize := h.size
  have hne : b.writer ≠ b.tail := by
    rw [h.writer, h.tail]
    omega
  unfold Inside
  dsimp only
  rw [bcmbufWrite, if_neg hne, h.writer]
  constructor
  · rintro ⟨hwords, -⟩
    have hlast := hwords _ (List.mem_cons_of_mem _ List.mem_cons_self)
    dsimp only at hlast
    omega
  · intro hlt
    refine ⟨fun x hx => ?_, fun hleft => by omega⟩
    rcases List.mem_pair.mp hx with rfl | rfl
    · dsimp only
      omega
    · dsimp only
      omega

theorem Filled.write (address value : UInt32) (h : Filled b made) (hmade : made < b.size.toNat / 8) :
    Filled (step (.write address value) b) (made + 1) ∧
      (step (.write address value) b).size = b.size := by
  have hne : b.writer ≠ b.tail := by
    rw [h.writer, h.tail]
    omega
  rw [step, bcmbufWrite, if_neg hne]
  refine ⟨⟨h.size, h.tail, ?_⟩, rfl⟩
  dsimp only
  rw [h.writer]
  omega

theorem Filled.meets_iff (h : Filled b made) (hmade : made ≤ b.size.toNat / 8) :
    Meets step Inside b acts ↔ Sparse (b.size.toNat / 8) made acts := by
  induction acts generalizing b made with
  | nil => exact Iff.rfl
  | cons a acts ih =>
    cases a with
    | reset =>
      have hreset : Filled (step .reset b) 0 := ⟨h.size, rfl, rfl⟩
      exact (and_iff_right trivial).trans (ih hreset (Nat.zero_le _))
    | select subID =>
      have hselect : Filled (step (.select subID) b) 0 := ⟨h.size, h.tail, rfl⟩
      exact (and_iff_right trivial).trans (ih hselect (Nat.zero_le _))
    | write address value =>
      rw [Meets, Sparse, h.inside_iff address value hmade]
      refine and_congr_right fun hlt => ?_
      obtain ⟨hwrite, hsize⟩ := h.write address value hlt
      rw [← hsize]
      exact ih hwrite (by rw [hsize]; omega)

end Writes

/-- The writes stay inside exactly if at most one for eight bytes is made between two resets. -/
theorem writes_inside_iff {size : ℤ} {b b' : Bcmbuf}
    (hcreate : bcmbufCreate size b = (.ok, b')) (acts : List Act) :
    Meets step Inside (bcmbufReset b') acts ↔ Sparse (size.toNat / 8) 0 acts := by
  unfold bcmbufCreate at hcreate
  split at hcreate
  · cases hcreate
  · next hpos =>
    obtain ⟨-, rfl⟩ := Prod.ext_iff.mp hcreate
    have hfilled : Filled (bcmbufReset { b with size := size }) 0 := ⟨Int.not_le.mp hpos, rfl, rfl⟩
    exact hfilled.meets_iff (Nat.zero_le _)

theorem two_writes_inside :
    Meets step Inside (bcmbufReset ⟨0, 0, 16, 0⟩) [.write 1 2, .write 3 4, .select 0, .write 5 6] := by
  have hcreate : bcmbufCreate 16 ⟨0, 0, 0, 0⟩ = (.ok, ⟨0, 0, 16, 0⟩) := rfl
  exact (writes_inside_iff hcreate _).mpr ⟨by decide, by decide, by decide, trivial⟩

theorem third_write_outside :
    let b := run step (bcmbufReset ⟨0, 0, 16, 0⟩) [.write 1 2, .write 3 4]
    bcmbufCreate 16 ⟨0, 0, 0, 0⟩ = (.ok, ⟨0, 0, 16, 0⟩) ∧ b.size - 4 * b.writer = 0 ∧
      (bcmbufWrite 5 6 b).1 = .ok ∧ (bcmbufWrite 5 6 b).2.1 = [(4, 6), (5, 5)] ∧
      ¬ Inside b (.write 5 6) := by
  refine ⟨rfl, by decide, by decide, by decide, fun h => ?_⟩
  exact absurd (h.1 (4, 6) (by decide)) (by decide)

end SynaBoot.BcmBuf
