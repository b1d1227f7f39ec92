import SynaBoot.BlockRange
import SynaBoot.CText

namespace SynaBoot.EmmcBlocks

open SynaBoot.BlockRange SynaBoot.CText

def mmcBlockSize : ℕ := 512

/-- The drivers keep 32 bits of a block number. -/
def lbaOf (start : Int) : ℕ := uint64 start / mmcBlockSize % 2 ^ 32

/-- Some hardware has a block counter of 16 bits. -/
def maxRun : ℕ := 65535

def readLoop (lba offset blks : ℕ) : List ℕ :=
  let cur := if maxRun < blks then maxRun else blks
  let here := blocks (2 ^ 32) ((lba + offset) % 2 ^ 32) cur
  if 0 < blks - cur then here ++ readLoop lba (offset + cur) (blks - cur) else here
termination_by blks
decreasing_by
  have hcur : 0 < cur := by
    by_cases hb : maxRun < blks
    · rw [show cur = maxRun from dif_pos hb]
      decide
    · rw [show cur = blks from dif_neg hb]
      omega
  omega

def doEmmcread (start : Int) (blks : ℕ) : List ℕ := readLoop (lbaOf start) 0 blks

def doEmmcwrite (start : Int) (blks : ℕ) : List ℕ := blocks (2 ^ 32) (lbaOf start) blks

def blksOf (size : UInt32) : ℕ := (size.toNat + mmcBlockSize - 1) % 2 ^ 32 / mmcBlockSize

def readEmmc (start : Int) (size : UInt32) : Option (List ℕ) :=
  if start.tmod mmcBlockSize ≠ 0 then none else some (doEmmcread start (blksOf size))

def writeEmmc (start : Int) (size : UInt32) : List ℕ := doEmmcwrite start (blksOf size)

theorem readLoop_eq (lba offset blks : ℕ) :
    readLoop lba offset blks = blocks (2 ^ 32) (lba + offset) blks := by
  induction blks using Nat.strong_induction_on generalizing offset with
  | _ blks ih =>
    have hpos : 0 < maxRun := by decide
    rw [readLoop, blocks_mod]
    generalize maxRun = run at hpos
    by_cases h : run < blks
    · obtain ⟨rest, rfl⟩ := Nat.exists_eq_add_of_le h.le
      have hlt : 0 < rest := by omega
      simp only [if_pos h, Nat.add_sub_cancel_left, if_pos hlt]
      rw [ih rest (by omega), blocks_append, Nat.add_assoc]
    · simp only [if_neg h, Nat.sub_self, lt_irrefl, if_false]

theorem doEmmcread_eq (start : Int) (blks : ℕ) :
    doEmmcread start blks = blocks (2 ^ 32) (lbaOf start) blks := readLoop_eq _ 0 blks

theorem blksOf_lt (size : UInt32) : blksOf size < 2 ^ 23 := by
  unfold blksOf mmcBlockSize
  omega

theorem blksOf_le (size : UInt32) : blksOf size * mmcBlockSize < size.toNat + mmcBlockSize := by
  unfold blksOf mmcBlockSize
  omega

end SynaBoot.EmmcBlocks
