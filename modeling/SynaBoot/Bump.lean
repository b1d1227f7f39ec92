import SynaBoot.Packing

namespace SynaBoot.Bump

open SynaBoot.Packing

structure Block where
  start : ℕ
  size : ℕ
  deriving DecidableEq, Repr

def Block.stop (b : Block) : ℕ := b.start + b.size

structure Log where
  next : ℕ
  blocks : List Block
  deriving DecidableEq, Repr

def allot (align stop : ℕ) (n : ℕ) (l : Log) : Log :=
  if 0 < n ∧ aligned align l.next + n ≤ stop then
    ⟨aligned align l.next + n, ⟨aligned align l.next, n⟩ :: l.blocks⟩
  else l

structure Sound (align start stop : ℕ) (blocks : List Block) : Prop where
  dvd : ∀ b ∈ blocks, align ∣ b.start
  inside : ∀ b ∈ blocks, start ≤ b.start ∧ b.stop ≤ stop
  disjoint : blocks.Pairwise fun b c => b.stop ≤ c.start ∨ c.stop ≤ b.start

structure Kept (align start stop : ℕ) (l : Log) : Prop extends Sound align start stop l.blocks where
  le_next : start ≤ l.next
  next_le : l.next ≤ stop
  stop_le : ∀ b ∈ l.blocks, b.stop ≤ l.next

variable {align start stop n : ℕ} {l : Log}

theorem kept_empty (h : start ≤ stop) : Kept align start stop ⟨start, []⟩ where
  dvd := List.forall_mem_nil _
  inside := List.forall_mem_nil _
  disjoint := List.Pairwise.nil
  le_next := le_rfl
  next_le := h
  stop_le := List.forall_mem_nil _

theorem Kept.allot (halign : 0 < align) (h : Kept align start stop l) (n : ℕ) :
    Kept align start stop (allot align stop n l) := by
  rw [Bump.allot]
  by_cases hn : 0 < n ∧ aligned align l.next + n ≤ stop
  · rw [if_pos hn]
    have hnext := le_aligned halign l.next
    have hstart := h.le_next
    refine ⟨⟨?_, ?_, ?_⟩, ?_, hn.2, ?_⟩
    · exact List.forall_mem_cons.mpr ⟨dvd_aligned align l.next, h.dvd⟩
    · exact List.forall_mem_cons.mpr ⟨⟨hstart.trans hnext, hn.2⟩, h.inside⟩
    · exact h.disjoint.cons fun b hb => .inr ((h.stop_le b hb).trans hnext)
    · dsimp only
      omega
    · refine List.forall_mem_cons.mpr ⟨le_rfl, fun b hb => ?_⟩
      have hstop := h.stop_le b hb
      dsimp only
      omega
  · rw [if_neg hn]
    exact h

end SynaBoot.Bump
