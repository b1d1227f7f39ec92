import SynaBoot.BurnImage
import SynaBoot.SparseImage

namespace SynaBoot.SparseBurn

open SynaBoot.BurnImage hiding blksz
open SynaBoot.FlashRecord (le32)
open SynaBoot.SparseImage

section Burner

variable (m : Emmc) (erased : UInt32) (part start cnt : ℕ) (d : Device)

/-- `setup_sparse_op`, with `emmcburn_sparse_write`. -/
def setupSparseOp : SparseStorage where
  start := start
  size := cnt
  erasedMemCont := erased
  write w := if (emmcWrite m part w.blk w.blocks.length d).1 then w.blocks.length else 0

/-- The branch of `burn_images` for a sparse image, with the commands that go to the eMMC. -/
def burnSparse (image : List UInt8) : Bool × List Command :=
  let r := writeSparseImage (setupSparseOp m erased part start cnt d) image
  (r.1.isNone, r.2.flatMap fun w => (emmcWrite m part w.blk w.blocks.length d).2.1)

variable {m erased part start cnt d}

theorem burnSparse_within (hpart : (switched part d).hwPart = part) (hend : start + cnt ≤ 2 ^ 32)
    (image : List UInt8) {c : Command} (hc : c ∈ (burnSparse m erased part start cnt d image).2) :
    c.Within part start cnt := by
  have hhonest : Honest (setupSparseOp m erased part start cnt d) := by
    refine ⟨fun w => ?_, show start + cnt < 2 ^ 63 by omega⟩
    dsimp only [setupSparseOp]
    split <;> omega
  obtain ⟨w, hw, hc⟩ := List.mem_flatMap.mp hc
  obtain ⟨hlo, hhi⟩ := writeSparseImage_inside hhonest image w hw
  by_cases hswitch : Switchable part d
  · rw [emmcWrite_switchable hswitch] at hc
    dsimp only [setupSparseOp] at hlo hhi hc
    by_cases hn : w.blocks.length = 0
    · rw [hn, mmcBwrite_zero] at hc
      cases hc
    · obtain ⟨-, hcpart, hcstart, hcend⟩ := mmcBwrite_commands hc
      rw [Nat.mod_eq_of_lt (by omega)] at hcstart hcend
      exact within_of_le (hcpart.trans hpart) (by omega) (by omega)
  · rw [emmcWrite_not_switchable hswitch] at hc
    cases hc

theorem eraseCommands_within (hpart : (switched part d).hwPart = part) (hend : start + cnt ≤ 2 ^ 32)
    {c : Command} (hc : c ∈ eraseCommands part start cnt d) : c.Within part start cnt := by
  obtain ⟨-, rfl⟩ := mem_eraseCommands.mp hc
  intro b hlo hhi
  dsimp only at hlo hhi
  exact ⟨hpart, by omega, by omega⟩

end Burner

theorem dlAndBurnImg_sparse {m : Emmc} {dl : Download} {pt name : List Char} {part start cnt : ℕ}
    {d₀ d : Device} (hinfo : lookupInfo pt d₀ = (.found part start cnt name, d))
    (hsparse : dl.format = .sparse) (hpart : (switched part (dl.load d)).hwPart = part)
    (hend : start + cnt ≤ 2 ^ 32) (hwrite : ∀ e, (switched part e).hwPart = part →
      ∀ c ∈ (m.writeSparseImage e).2, c.Within part start cnt) :
    ∃ r, dlAndBurnImg m dl pt d₀ = some r ∧ ∀ c ∈ r.2.1, c.Within part start cnt := by
  have hnone (P : Command → Prop) : ∀ c ∈ ([] : List Command), P c :=
    fun c hc => absurd hc List.not_mem_nil
  unfold dlAndBurnImg
  rw [hinfo]
  dsimp only
  split
  · exact ⟨_, rfl, hnone _⟩
  rw [hsparse]
  by_cases hswitch : Switchable part (dl.load d)
  · obtain ⟨e, herase, -, he, -⟩ := eraseOnce_switchable start cnt hswitch
    rw [herase]
    refine ⟨_, rfl, fun c hc => ?_⟩
    rcases List.mem_append.mp hc with hc | hc
    · exact eraseCommands_within hpart hend hc
    · exact hwrite e (he.trans hpart) c hc
  · rcases eraseOnce_not_switchable start cnt hswitch with ⟨e, herase⟩ | herase
    · rw [herase]
      exact ⟨_, rfl, hnone _⟩
    · rw [herase]
      exact ⟨_, rfl, hwrite _ hpart⟩

/-- Whatever a sparse image holds, burning it sends commands for blocks of its partition only. -/
theorem burn_sparse_confined (m : Emmc) (dl : Download) (pt name : List Char) (part start cnt : ℕ)
    (d₀ d : Device) (erased : UInt32) (image : List UInt8)
    (hinfo : lookupInfo pt d₀ = (.found part start cnt name, d)) (hsparse : dl.format = .sparse)
    (hpart : (switched part (dl.load d)).hwPart = part) (hend : start + cnt ≤ 2 ^ 32) :
    ∃ r, dlAndBurnImg { m with
        writeSparseImage := fun d => burnSparse m erased part start cnt d image } dl pt d₀ = some r ∧
      ∀ c ∈ r.2.1, c.Within part start cnt :=
  dlAndBurnImg_sparse hinfo hsparse hpart hend fun _ he _ hc => burnSparse_within he hend image hc

/-- A sparse image of one raw chunk, of a block that the partition does not have. -/
def behindEnd : List UInt8 :=
  le32 0xed26ff3a ++ [1, 0, 0, 0, 28, 0, 12, 0] ++ le32 512 ++ le32 16385 ++ le32 2 ++ le32 0 ++
    ([0xC3, 0xCA, 0, 0] ++ le32 16384 ++ le32 12) ++ ([0xC1, 0xCA, 0, 0] ++ le32 1 ++ le32 524) ++
    List.replicate 512 0

theorem burn_sparse_confined_behindEnd : ∃ r, dlAndBurnImg { sound with
      writeSparseImage := fun d => burnSparse sound 0 0 32768 16384 d behindEnd }
        ⟨.usbs, true, 1000, .sparse⟩ "sd1".toList oneImported = some r ∧
    ∀ c ∈ r.2.1, c.Within 0 32768 16384 := by
  apply burn_sparse_confined sound _ _ "boot".toList _ _ _ oneImported
    (lookupInfo "sd1".toList oneImported).2
  · exact Prod.ext (by decide +kernel) rfl
  · rfl
  · decide +kernel
  · decide

end SynaBoot.SparseBurn
