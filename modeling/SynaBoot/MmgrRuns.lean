import SynaBoot.MmgrAlloc
import SynaBoot.MmgrFree

namespace SynaBoot.MmgrRuns

open SynaBoot.Mmgr SynaBoot.MmgrLists SynaBoot.MmgrHeap SynaBoot.MmgrAlloc SynaBoot.MmgrFree
open SynaBoot.DoublyLinked SynaBoot.Tiling

def nodesFrom (pool : Pool) : Nat → Option Ptr → List Ptr
  | _, none => []
  | 0, some _ => []
  | fuel + 1, some p => p :: nodesFrom pool fuel (pool p).next

def freeNodes (m : Memmgr) : List Ptr := nodesFrom m.pool maxnumPool m.pFree
def allocNodes (m : Memmgr) : List Ptr := nodesFrom m.pool maxnumPool m.pAlloc

theorem nodesFrom_eq {pool : Pool} {fuel : Nat} {p : Option Ptr} {l : List Ptr}
    (h : Segment (prv pool) (nxt pool) p l none) (hf : l.length ≤ fuel) :
    nodesFrom pool fuel l.head? = l := by
  induction l generalizing p fuel with
  | nil => cases fuel <;> rfl
  | cons a l ih =>
    cases fuel with
    | zero => simp at hf
    | succ fuel =>
      obtain ⟨-, hn, ht⟩ := h
      have hna : (pool a).next = l.head? := by simpa [nxt] using hn
      have hr : nodesFrom pool fuel l.head? = l := ih ht (by simpa using hf)
      simp only [List.head?_cons, nodesFrom, hna, hr]

variable {m : Memmgr}

theorem freeNodes_eq {fl al : List Ptr} (h : Heap m fl al) : freeNodes m = fl := by
  have hle := h.nodes.length_le
  rw [List.length_append] at hle
  rw [freeNodes, h.freeHead]
  exact nodesFrom_eq h.freeLinked (by omega)

theorem allocNodes_eq {fl al : List Ptr} (h : Heap m fl al) : allocNodes m = al := by
  have hle := h.nodes.length_le
  rw [List.length_append] at hle
  rw [allocNodes, h.allocHead]
  exact nodesFrom_eq h.allocLinked (by omega)

/-- It does not wrap and is larger than the manager's 8 KB. -/
def Region (mstart size : Nat) : Prop :=
  mstart + size ≤ 2 ^ 64 ∧ reserveMemSize < size ∧ size < 2 ^ 32

def firstNode : Ptr := ⟨0, by decide⟩

theorem findValidNode_empty (membase totalsize : Nat) :
    findValidNodeFromPool ⟨membase, totalsize, 0, none, none, fun _ => Mnode.zero⟩ =
      (some firstNode, ⟨membase, totalsize, 1, none, none,
        Function.update (fun _ => Mnode.zero) firstNode { Mnode.zero with isused := .used }⟩) := rfl

theorem heap_init {membase totalsize : Nat} (hpos : 0 < totalsize)
    (haddr : membase + totalsize ≤ 2 ^ 64) (hsmall : totalsize < 2 ^ 32) :
    Heap ⟨membase, totalsize, 1, some firstNode, none, Function.update (fun _ => Mnode.zero)
      firstNode ⟨none, none, membase, totalsize, .used⟩⟩ [firstNode] [] where
  freeHead := rfl
  allocHead := rfl
  freeLinked := (segment_singleton _ _ none none firstNode).mpr ⟨by simp, by simp⟩
  allocLinked := trivial
  nodes := by
    refine Nodes.of_payload (List.nodup_singleton firstNode) ?_ ?_ ?_
    · intro i hi
      rw [List.append_nil, List.mem_singleton] at hi
      subst hi
      simpa using hpos
    · intro i hi
      have hi0 : i ≠ firstNode := by simpa using hi
      simp [hi0]
    · simpa [block] using tiles_single membase totalsize
  count := rfl
  addressable := haddr
  small := hsmall

def fresh (mstart size : Nat) : Memmgr :=
  ⟨mstart + reserveMemSize, size - reserveMemSize, 1, some firstNode, none,
    Function.update (fun _ => Mnode.zero) firstNode
      ⟨none, none, mstart + reserveMemSize, size - reserveMemSize, .used⟩⟩

theorem initMmgr_eq {mstart size : Nat} (h : Region mstart size) :
    initMmgr mstart size = .ok (fresh mstart size) := by
  obtain ⟨hwrap, hlarge, hsmall⟩ := h
  have hres : reserveMemSize = 8192 := rfl
  have hbase : (mstart + reserveMemSize) % 2 ^ 64 = mstart + reserveMemSize :=
    Nat.mod_eq_of_lt (by omega)
  have hsize : (size + 2 ^ 32 - reserveMemSize) % 2 ^ 32 = size - reserveMemSize := by omega
  simp only [initMmgr, hbase, hsize, findValidNode_empty, deref, bind, Except.bind, pure,
    Except.pure, setNext, setPrev, setBlock, Function.update_self, Function.update_idem, fresh]

theorem initMmgr_ok {mstart size : Nat} (h : Region mstart size) :
    ∃ m, initMmgr mstart size = .ok m ∧ WellFormed m := by
  have hres : reserveMemSize = 8192 := rfl
  obtain ⟨hwrap, hlarge, hsmall⟩ := h
  have hheap : Heap (fresh mstart size) [firstNode] [] := heap_init (by omega) (by omega) (by omega)
  exact ⟨_, initMmgr_eq ⟨hwrap, hlarge, hsmall⟩, _, _, hheap, List.pairwise_singleton _ _⟩

def start : Managers := fun _ => none

def Admissible : Call → Prop
  | .init _ mstart size => Region mstart size
  | .alloc _ _ | .free _ _ => True

/-- The allocation finds a node; the freed block is not above all free ones. -/
def SafeCall (g : Managers) : Call → Prop
  | .init _ _ _ => True
  | .alloc type size => ∀ m, g type = some m → ¬ OutOfNodes m (freeNodes m) type size
  | .free type addr => ∀ m, g type = some m → ¬ AboveFree m (freeNodes m) (allocNodes m) addr

def SafeRun (g : Managers) : List Call → Prop
  | [] => True
  | c :: cs => SafeCall g c ∧ ∀ g', step g c = .ok g' → SafeRun g' cs

def AllWellFormed (g : Managers) : Prop := ∀ type m, g type = some m → WellFormed m

theorem allWellFormed_start : AllWellFormed start := by
  intro type m h
  cases h

variable {g : Managers}

theorem forall_update {P : MemType → Memmgr → Prop} {type : MemType}
    (hg : ∀ t m', g t = some m' → P t m') (hm : P type m) :
    ∀ t m', Function.update g type (some m) t = some m' → P t m' := by
  intro t m' h
  by_cases ht : t = type
  · subst ht
    rw [Function.update_self, Option.some.injEq] at h
    exact h ▸ hm
  · rw [Function.update_of_ne ht] at h
    exact hg t m' h

theorem allWellFormed_update (hg : AllWellFormed g) (hm : WellFormed m) (type : MemType) :
    AllWellFormed (Function.update g type (some m)) :=
  forall_update (P := fun _ => WellFormed) hg hm

theorem step_ok {c : Call} (hg : AllWellFormed g) (hc : Admissible c) (hs : SafeCall g c) :
    ∃ g', step g c = .ok g' ∧ AllWellFormed g' := by
  cases c with
  | init type mstart size =>
    cases ht : g type with
    | some m => exact ⟨g, by simp only [step, ht], hg⟩
    | none =>
      obtain ⟨m, hm, hwf⟩ := initMmgr_ok hc
      refine ⟨_, ?_, allWellFormed_update hg hwf type⟩
      simp only [step, ht, hm, bind, Except.bind, pure, Except.pure]
  | alloc type size =>
    cases ht : g type with
    | none => exact ⟨g, by simp only [step, ht], hg⟩
    | some m =>
      obtain ⟨fl, al, hheap, hsorted⟩ := hg type m ht
      have hno := hs m ht
      rw [freeNodes_eq hheap] at hno
      obtain ⟨r, m', hm', hwf⟩ := mmgrAlloc_ok hheap hsorted hno
      refine ⟨_, ?_, allWellFormed_update hg hwf type⟩
      simp only [step, ht, hm', bind, Except.bind, pure, Except.pure]
  | free type addr =>
    cases ht : g type with
    | none => exact ⟨g, by simp only [step, ht], hg⟩
    | some m =>
      obtain ⟨fl, al, hheap, hsorted⟩ := hg type m ht
      have hno := hs m ht
      rw [freeNodes_eq hheap, allocNodes_eq hheap] at hno
      obtain ⟨m', hm', hwf⟩ := mmgrFree_ok hheap hsorted hno
      refine ⟨_, ?_, allWellFormed_update hg hwf type⟩
      simp only [step, ht, hm', bind, Except.bind, pure, Except.pure]

theorem step_error {c : Call} (hg : AllWellFormed g) (hs : ¬ SafeCall g c) :
    step g c = .error .nullDeref := by
  cases c with
  | init type mstart size => exact absurd trivial hs
  | alloc type size =>
    simp only [SafeCall, not_forall, not_not] at hs
    obtain ⟨m, ht, ho⟩ := hs
    obtain ⟨fl, al, hheap, -⟩ := hg type m ht
    rw [freeNodes_eq hheap] at ho
    simp only [step, ht, mmgrAlloc_error hheap ho, bind, Except.bind]
  | free type addr =>
    simp only [SafeCall, not_forall, not_not] at hs
    obtain ⟨m, ht, ha⟩ := hs
    obtain ⟨fl, al, hheap, -⟩ := hg type m ht
    rw [freeNodes_eq hheap, allocNodes_eq hheap] at ha
    simp only [step, ht, mmgrFree_error hheap ha, bind, Except.bind]

theorem run_cons (g : Managers) (c : Call) (cs : List Call) :
    run g (c :: cs) = (step g c).bind (fun g' => run g' cs) := rfl

theorem run_cases {cs : List Call} (hg : AllWellFormed g) (hcs : ∀ c ∈ cs, Admissible c) :
    (SafeRun g cs ∧ ∃ g', run g cs = .ok g' ∧ AllWellFormed g') ∨
      (¬ SafeRun g cs ∧ run g cs = .error .nullDeref) := by
  induction cs generalizing g with
  | nil => exact .inl ⟨trivial, g, rfl, hg⟩
  | cons c cs ih =>
    by_cases hs : SafeCall g c
    · obtain ⟨g', hstep, hg'⟩ := step_ok hg (hcs c (by simp)) hs
      have hrun : run g (c :: cs) = run g' cs := by
        rw [run_cons, hstep]
        rfl
      have hsafe : SafeRun g (c :: cs) ↔ SafeRun g' cs := by
        simp only [SafeRun, hs, hstep, true_and, Except.ok.injEq, forall_eq']
      rw [hrun, hsafe]
      exact ih hg' (fun d hd => hcs d (by simp [hd]))
    · refine .inr ⟨fun h => hs h.1, ?_⟩
      rw [run_cons, step_error hg hs]
      rfl

/-- The blocks of each manager partition its region, after every sequence of calls
that completes. -/
theorem heap_partition {calls : List Call} {g : Managers} (hcalls : ∀ c ∈ calls, Admissible c)
    (hrun : run start calls = .ok g) {type : MemType} {m : Memmgr} (hm : g type = some m) :
    WellFormed m := by
  rcases run_cases allWellFormed_start hcalls with ⟨-, g', hg', hwf⟩ | ⟨-, herr⟩
  · rw [hrun, Except.ok.injEq] at hg'
    exact hwf type m (hg' ▸ hm)
  · rw [hrun] at herr
    cases herr

def splitAndMerge : List Call :=
  [.init .common 0x1000 0x4000, .alloc .common 100, .alloc .common 64, .free .common 0x3000]

theorem heap_partition_splitAndMerge :
    ∃ g m, run start splitAndMerge = .ok g ∧ g .common = some m ∧ WellFormed m := by
  have hcalls : ∀ c ∈ splitAndMerge, Admissible c := by
    simp [splitAndMerge, Admissible, Region, reserveMemSize]
  have hsome : (match run start splitAndMerge with
    | .ok g => (g .common).isSome
    | .error _ => false) = true := by decide +kernel
  cases hrun : run start splitAndMerge with
  | error e => simp [hrun] at hsome
  | ok g =>
    simp only [hrun, Option.isSome_iff_exists] at hsome
    obtain ⟨m, hm⟩ := hsome
    exact ⟨g, m, rfl, hm, heap_partition hcalls hrun hm⟩

/-- A sequence of calls follows no `NULL` node, and then returns, exactly if each call is safe. -/
theorem no_null_deref_iff {calls : List Call} (hcalls : ∀ c ∈ calls, Admissible c) :
    (run start calls ≠ .error .nullDeref ↔ SafeRun start calls) ∧
      run start calls ≠ .error .diverge := by
  rcases run_cases allWellFormed_start hcalls with ⟨hs, g, hg, -⟩ | ⟨hs, he⟩
  · rw [hg]
    exact ⟨⟨fun _ => hs, fun _ => nofun⟩, nofun⟩
  · rw [he]
    exact ⟨⟨fun h => absurd rfl h, fun h => absurd h hs⟩, nofun⟩

theorem no_null_deref_splitAndMerge :
    (run start splitAndMerge ≠ .error .nullDeref ↔ SafeRun start splitAndMerge) ∧
      run start splitAndMerge ≠ .error .diverge := by
  apply no_null_deref_iff
  simp [splitAndMerge, Admissible, Region, reserveMemSize]

def freeHighestLast : List Call :=
  [.init .common 0x1000 (8192 + 128), .alloc .common 64, .alloc .common 64,
    .free .common 0x3000, .free .common 0x3040]

theorem freeHighestLast_null_deref :
    (∀ c ∈ freeHighestLast, Admissible c) ∧ run start freeHighestLast = .error .nullDeref := by
  have hnull : (match run start freeHighestLast with
    | .error .nullDeref => true
    | _ => false) = true := by decide +kernel
  constructor
  · simp [freeHighestLast, Admissible, Region, reserveMemSize]
  · cases hrun : run start freeHighestLast with
    | ok g => simp [hrun] at hnull
    | error e =>
      cases e with
      | nullDeref => rfl
      | diverge => simp [hrun] at hnull

end SynaBoot.MmgrRuns
