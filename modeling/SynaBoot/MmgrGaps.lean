import SynaBoot.MmgrFirstFit

namespace SynaBoot.MmgrGaps

open SynaBoot.Mmgr SynaBoot.MmgrHeap SynaBoot.MmgrRuns SynaBoot.MmgrFirstFit SynaBoot.Tiling

variable {m : Memmgr}

/-- The address belongs to the region and to no allocated block. -/
def Unallocated (m : Memmgr) (x : Nat) : Prop :=
  (m.membase ≤ x ∧ x < m.membase + m.totalsize) ∧ ∀ b ∈ allocBlocks m, ¬covers x b = true

theorem gapped_freeBlocks (h : WellFormed m) : Gapped (freeBlocks m) := by
  obtain ⟨fl, al, hheap, hsorted⟩ := h
  rw [freeBlocks, freeNodes_eq hheap]
  constructor
  · rw [List.forall_mem_map]
    exact fun i hi => hheap.nodes.pos i (List.mem_append_left al hi)
  · exact List.pairwise_map.mpr hsorted

theorem unallocated_iff (h : WellFormed m) (x : Nat) :
    (∃ b ∈ freeBlocks m, covers x b = true) ↔ Unallocated m x := by
  obtain ⟨fl, al, hheap, -⟩ := h
  apply tiles_append_iff
  rw [freeBlocks, allocBlocks, freeNodes_eq hheap, allocNodes_eq hheap, ← List.map_append]
  exact hheap.nodes.tiles

/-- After every run the free list holds the maximal intervals of the region between the allocated
blocks, each once and in ascending order: which calls led to it leaves no trace. -/
theorem freeBlocks_maximal {calls : List Call} {g : Managers} (hcalls : ∀ c ∈ calls, Admissible c)
    (hrun : run start calls = .ok g) {type : MemType} (hm : g type = some m) :
    (freeBlocks m).Pairwise (fun b c => b.1 + b.2 < c.1) ∧
      ∀ b, b ∈ freeBlocks m ↔ Maximal (Unallocated m) b := by
  have hwf : WellFormed m := (run_start_based hcalls hrun).1 type m hm
  have hgapped := gapped_freeBlocks hwf
  refine ⟨hgapped.gaps, fun b => ?_⟩
  rw [hgapped.mem_iff b]
  simp only [unallocated_iff hwf]

/-- The second of three blocks is freed, then the third, which has free memory on both sides. -/
def freeBetween : List Call :=
  [.init .common 0x1000 0x4000, .alloc .common 100, .alloc .common 64, .alloc .common 1,
    .free .common 0x3080, .free .common 0x30c0]

theorem freeBlocks_maximal_freeBetween : ∃ g m, run start freeBetween = .ok g ∧
    g .common = some m ∧ freeBlocks m = [(0x3080, 0x1f80)] ∧
      Maximal (Unallocated m) (0x3080, 0x1f80) := by
  have hcalls : ∀ c ∈ freeBetween, Admissible c := by
    simp [freeBetween, Admissible, Region, reserveMemSize]
  have hsome : ((run start freeBetween).toOption.bind (· .common)).any
      (fun m => decide (freeBlocks m = [(0x3080, 0x1f80)])) = true := by decide +kernel
  cases hrun : run start freeBetween with
  | error e => simp [hrun, Except.toOption] at hsome
  | ok g =>
    rw [hrun, Except.toOption, Option.bind_some] at hsome
    cases hm : g .common with
    | none => simp [hm] at hsome
    | some m =>
      simp only [hm, Option.any_some, decide_eq_true_eq] at hsome
      refine ⟨g, m, rfl, hm, hsome, ?_⟩
      exact ((freeBlocks_maximal hcalls hrun hm).2 _).mp (by simp [hsome])

end SynaBoot.MmgrGaps
