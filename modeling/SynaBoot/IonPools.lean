import SynaBoot.MemRegions
import SynaBoot.MmgrFirstFit

namespace SynaBoot.IonPools

open SynaBoot.MemRegions SynaBoot.Mmgr SynaBoot.MmgrHeap SynaBoot.MmgrAlloc SynaBoot.MmgrFree
open SynaBoot.MmgrRuns
open SynaBoot.MmgrFirstFit (bind_ok)

def cacheableMemPoolSize : ℕ := 128 * 1024 * 1024

/-- Two heaps may have the same manager; address 0 is `NULL`. -/
structure Ion where
  mem : List MemRegion
  cmaPoolStart : UInt32
  cmaPoolSize : UInt32
  gMmgr : MemType → ℕ
  memory : ℕ → Memmgr
  cleared : List (MemType × ℕ)

def initMmgrByType (type : MemType) (mstart size : ℕ) (s : Ion) : Except Fault Ion :=
  if s.gMmgr type ≠ 0 then .ok s
  else do
    let m ← initMmgr mstart size
    return { s with
      gMmgr := Function.update s.gMmgr type mstart
      memory := Function.update s.memory mstart m
      cleared := (type, mstart) :: s.cleared }

def mmgrAllocByType (type : MemType) (size : ℤ) (s : Ion) : Except Fault (Option ℕ × Ion) :=
  if s.gMmgr type = 0 then .ok (none, s)
  else do
    let (r, m) ← mmgrAlloc type size (s.memory (s.gMmgr type))
    return (r, { s with memory := Function.update s.memory (s.gMmgr type) m })

def mmgrFreeByType (type : MemType) (addr : ℕ) (s : Ion) : Except Fault Ion :=
  if s.gMmgr type = 0 then .ok s
  else do
    let m ← mmgrFree addr (s.memory (s.gMmgr type))
    return { s with memory := Function.update s.memory (s.gMmgr type) m }

def initIonCacheableMempool (s : Ion) : Except Fault Ion :=
  match s.mem.find? fun r => r.forNonsecure && r.forCacheable with
  | none => .ok s
  | some r =>
    let s := if r.isCma && r.isIon && r.size ≠ 0 then
        { s with cmaPoolStart := r.base, cmaPoolSize := r.size }
      else s
    initMmgrByType .ionCacheable r.base.toNat cacheableMemPoolSize s

def initIonNoncacheableMempool (s : Ion) : Except Fault Ion :=
  match s.mem.find? fun r => r.forNonsecure && r.forNoncacheable with
  | none => .ok s
  | some r => initMmgrByType .ionNoncacheable r.base.toNat r.size.toNat s

/-- `tz` is what TrustZone reports. -/
def getMemRegionListFromTz (tz : List MemRegion) (s : Ion) : Except Fault Ion :=
  if 0 < s.mem.length then .ok s
  else do
    let s ← initIonCacheableMempool { s with mem := tz }
    initIonNoncacheableMempool s

def mallocIonCacheable : ℤ → Ion → Except Fault (Option ℕ × Ion) := mmgrAllocByType .ionCacheable
def freeIonCacheable : ℕ → Ion → Except Fault Ion := mmgrFreeByType .ionCacheable
def mallocIonNoncacheable : ℤ → Ion → Except Fault (Option ℕ × Ion) :=
  mmgrAllocByType .ionNoncacheable
def freeIonNoncacheable : ℕ → Ion → Except Fault Ion := mmgrFreeByType .ionNoncacheable

inductive IonPool where
  | cacheable
  | noncacheable
  deriving DecidableEq, Repr

def IonPool.type : IonPool → MemType
  | .cacheable => .ionCacheable
  | .noncacheable => .ionNoncacheable

def IonPool.region (tz : List MemRegion) : IonPool → Option MemRegion
  | .cacheable => tz.find? fun r => r.forNonsecure && r.forCacheable
  | .noncacheable => tz.find? fun r => r.forNonsecure && r.forNoncacheable

def malloc : IonPool → ℤ → Ion → Except Fault (Option ℕ × Ion)
  | .cacheable => mallocIonCacheable
  | .noncacheable => mallocIonNoncacheable

def free : IonPool → ℕ → Ion → Except Fault Ion
  | .cacheable => freeIonCacheable
  | .noncacheable => freeIonNoncacheable

inductive Call where
  | malloc (p : IonPool) (size : ℤ)
  | free (p : IonPool) (addr : ℕ)

def step (s : Ion) : Call → Except Fault Ion
  | .malloc p size => do return (← malloc p size s).2
  | .free p addr => free p addr s

def run (s : Ion) (calls : List Call) : Except Fault Ion := calls.foldlM step s

def boot (memory : ℕ → Memmgr) : Ion := ⟨[], 0, 0, fun _ => 0, memory, []⟩

def Inside (r : MemRegion) (a n : ℕ) : Prop := r.first ≤ a ∧ a + n ≤ r.afterLast

structure Confined (memory : ℕ → Memmgr) (tz : List MemRegion) : Prop where
  blocks : ∀ s₀, getMemRegionListFromTz tz (boot memory) = .ok s₀ →
    ∀ calls s, run s₀ calls = .ok s → ∀ p size a s', malloc p size s = .ok (some a, s') →
      ∃ r, p.region tz = some r ∧ Inside r a (allocSize p.type size.toNat)
  bookkeeping : ∀ s₀, getMemRegionListFromTz tz (boot memory) = .ok s₀ →
    ∀ (p : IonPool) a, (p.type, a) ∈ s₀.cleared → ∃ r, p.region tz = some r ∧ Inside r a reserveMemSize

/-- The cacheable pool takes 128 MiB for granted. -/
structure Fits (tz : List MemRegion) : Prop where
  reserve : ∀ (p : IonPool) r, p.region tz = some r → reserveMemSize ≤ r.size.toNat
  whole : ∀ r, IonPool.region tz .cacheable = some r → r.base ≠ 0 →
    IonPool.region tz .noncacheable ≠ some r → cacheableMemPoolSize ≤ r.size.toNat

section Extent

def extent (m : Memmgr) : ℕ × ℕ := (m.membase, m.totalsize)

variable {m m' : Memmgr}

theorem findValidNode_extent (m : Memmgr) : extent (findValidNodeFromPool m).2 = extent m := by
  unfold findValidNodeFromPool
  split <;> rfl

theorem returnNode2Pool_extent (m : Memmgr) (i : Ptr) :
    extent (returnNode2Pool m i) = extent m := by
  unfold returnNode2Pool extent
  dsimp only

theorem takeFromFree_extent {p : Ptr} {n : ℕ} (h : takeFromFree m p n = .ok m') :
    extent m' = extent m := by
  unfold takeFromFree at h
  split at h
  · obtain ⟨⟨head, pool⟩, -, h⟩ := bind_ok h
    dsimp only [pure, Except.pure] at h
    rw [← Except.ok.inj h, returnNode2Pool_extent]
    rfl
  · dsimp only [pure, Except.pure] at h
    rw [← Except.ok.inj h]
    rfl

theorem mmgrAlloc_extent {type : MemType} {size : ℤ} {r : Option ℕ}
    (h : mmgrAlloc type size m = .ok (r, m')) : extent m' = extent m := by
  unfold mmgrAlloc at h
  split at h
  · exact congrArg extent (Prod.mk.inj (Except.ok.inj h)).2.symm
  split at h
  · exact congrArg extent (Prod.mk.inj (Except.ok.inj h)).2.symm
  obtain ⟨fit, -, h⟩ := bind_ok h
  cases fit with
  | none => exact congrArg extent (Prod.mk.inj (Except.ok.inj h)).2.symm
  | some p =>
    dsimp only at h
    obtain ⟨new, -, h⟩ := bind_ok h
    obtain ⟨m₁, htake, h⟩ := bind_ok h
    obtain ⟨a, -, h⟩ := bind_ok h
    obtain ⟨-, rfl⟩ := Prod.mk.inj (Except.ok.inj h)
    exact (takeFromFree_extent htake).trans (findValidNode_extent m)

theorem checkPrevnodeAndMerge_extent {p : Option Ptr} {q : Ptr}
    (h : checkPrevnodeAndMerge m p = .ok (q, m')) : extent m' = extent m := by
  unfold checkPrevnodeAndMerge at h
  obtain ⟨i, -, h⟩ := bind_ok h
  dsimp only [pure, Except.pure] at h
  split at h
  · split at h
    · rw [← (Prod.mk.inj (Except.ok.inj h)).2, returnNode2Pool_extent]
      rfl
    · rw [← (Prod.mk.inj (Except.ok.inj h)).2]
  · rw [← (Prod.mk.inj (Except.ok.inj h)).2]

theorem insertNode2Free_extent {p : Ptr} (h : insertNode2Free m p = .ok m') :
    extent m' = extent m := by
  unfold insertNode2Free at h
  split at h
  · rw [← Except.ok.inj h]
    rfl
  · obtain ⟨pf, -, h⟩ := bind_ok h
    obtain ⟨⟨q, m₁⟩, hfirst, h⟩ := bind_ok h
    obtain ⟨⟨q', m₂⟩, hsecond, h⟩ := bind_ok h
    obtain rfl := Except.ok.inj h
    rw [checkPrevnodeAndMerge_extent hsecond, checkPrevnodeAndMerge_extent hfirst]
    split <;> rfl

theorem mmgrFree_extent {addr : ℕ} (h : mmgrFree addr m = .ok m') : extent m' = extent m := by
  unfold mmgrFree at h
  obtain ⟨found, -, h⟩ := bind_ok h
  cases found with
  | none => exact congrArg extent (Except.ok.inj h).symm
  | some p =>
    obtain ⟨⟨head, pool⟩, -, h⟩ := bind_ok h
    exact (insertNode2Free_extent h).trans rfl

end Extent

section Heaps

variable {lo hi : ℕ} {m m' : Memmgr} {type : MemType} {size : ℤ} {r : Option ℕ}

structure Exhausted (m : Memmgr) : Prop where
  pFree : ∃ i, m.pFree = some i ∧ (m.pool i).size = 0 ∧ (m.pool i).next = none
  pAlloc : m.pAlloc = none

structure Lives (lo hi : ℕ) (m : Memmgr) : Prop where
  heap : WellFormed m ∨ Exhausted m
  lo_le : lo ≤ m.membase
  le_hi : m.membase + m.totalsize ≤ hi

theorem Lives.of_extent (h : Lives lo hi m) (he : extent m' = extent m)
    (hheap : WellFormed m' ∨ Exhausted m') : Lives lo hi m' := by
  obtain ⟨hbase, hsize⟩ := Prod.mk.inj he
  exact ⟨hheap, by rw [hbase]; exact h.lo_le, by rw [hbase, hsize]; exact h.le_hi⟩

theorem exhausted_alloc (h : Exhausted m) : mmgrAlloc type size m = .ok (none, m) := by
  obtain ⟨i, hfree, hsize, hnext⟩ := h.pFree
  unfold mmgrAlloc
  split
  · rfl
  · next hpos =>
    split
    · rfl
    · have hbig : ¬ allocSize type size.toNat ≤ (m.pool i).size := by
        have hpos' : 0 < size.toNat := by omega
        have := allocSize_pos type hpos'
        omega
      have hfind : findFit m.pool (allocSize type size.toNat) (maxnumPool + 1) m.pFree =
          .ok none := by
        rw [hfree, findFit.eq_def]
        dsimp only
        rw [if_neg hbig, hnext]
        rfl
      dsimp only
      rw [hfind]
      rfl

theorem exhausted_free {addr : ℕ} (h : Exhausted m) : mmgrFree addr m = .ok m := by
  unfold mmgrFree
  rw [h.pAlloc]
  rfl

theorem wellFormed_alloc (h : WellFormed m) (halloc : mmgrAlloc type size m = .ok (r, m')) :
    WellFormed m' ∧ ∀ a, r = some a → m.membase ≤ a ∧
      a + allocSize type size.toNat ≤ m.membase + m.totalsize := by
  obtain ⟨fl, al, hheap, hsorted⟩ := h
  obtain ⟨-, heq⟩ | ⟨l₁, p, l₂, m₁, rfl, -, hfit, heq, hcarved⟩ | hout :=
    mmgrAlloc_cases hheap hsorted type size
  · obtain ⟨rfl, rfl⟩ := Prod.mk.inj (Except.ok.inj (heq.symm.trans halloc))
    exact ⟨⟨fl, al, hheap, hsorted⟩, fun a ha => by cases ha⟩
  · obtain ⟨rfl, rfl⟩ := Prod.mk.inj (Except.ok.inj (heq.symm.trans halloc))
    obtain ⟨fl', new, hheap', hsorted', -⟩ := hcarved.heap
    refine ⟨⟨fl', _, hheap', hsorted'⟩, fun a ha => ?_⟩
    obtain rfl := Option.some.inj ha
    obtain ⟨hlow, hhigh⟩ := hheap.nodes.within (i := p) (by simp)
    exact ⟨hlow, (Nat.add_le_add_left hfit _).trans hhigh⟩
  · rw [mmgrAlloc_error hheap hout] at halloc
    cases halloc

theorem wellFormed_free {addr : ℕ} (h : WellFormed m) (hfree : mmgrFree addr m = .ok m') :
    WellFormed m' := by
  obtain ⟨fl, al, hheap, hsorted⟩ := h
  by_cases habove : AboveFree m fl al addr
  · rw [mmgrFree_error hheap habove] at hfree
    cases hfree
  · obtain ⟨m₁, heq, hwf⟩ := mmgrFree_ok hheap hsorted habove
    obtain rfl := Except.ok.inj (heq.symm.trans hfree)
    exact hwf

theorem Lives.alloc (h : Lives lo hi m) (halloc : mmgrAlloc type size m = .ok (r, m')) :
    Lives lo hi m' ∧ ∀ a, r = some a → lo ≤ a ∧ a + allocSize type size.toNat ≤ hi := by
  obtain hwf | hex := h.heap
  · obtain ⟨hwf', hblock⟩ := wellFormed_alloc hwf halloc
    refine ⟨h.of_extent (mmgrAlloc_extent halloc) (.inl hwf'), fun a ha => ?_⟩
    obtain ⟨hlow, hhigh⟩ := hblock a ha
    exact ⟨h.lo_le.trans hlow, hhigh.trans h.le_hi⟩
  · obtain ⟨rfl, rfl⟩ := Prod.mk.inj (Except.ok.inj ((exhausted_alloc hex).symm.trans halloc))
    exact ⟨h, fun a ha => by cases ha⟩

theorem Lives.free {addr : ℕ} (h : Lives lo hi m) (hfree : mmgrFree addr m = .ok m') :
    Lives lo hi m' := by
  obtain hwf | hex := h.heap
  · exact h.of_extent (mmgrFree_extent hfree) (.inl (wellFormed_free hwf hfree))
  · obtain rfl := Except.ok.inj ((exhausted_free hex).symm.trans hfree)
    exact h

def built (membase totalsize : ℕ) : Memmgr :=
  ⟨membase, totalsize, 1, some firstNode, none, Function.update (fun _ => Mnode.zero) firstNode
    ⟨none, none, membase, totalsize, .used⟩⟩

def behindReserve (size : ℕ) : ℕ := (size + 2 ^ 32 - reserveMemSize) % 2 ^ 32

theorem initMmgr_built {mstart : ℕ} (size : ℕ) (haddr : mstart < 2 ^ 32) :
    initMmgr mstart size = .ok (built (mstart + reserveMemSize) (behindReserve size)) := by
  have hres : reserveMemSize = 8192 := rfl
  have hbase : (mstart + reserveMemSize) % 2 ^ 64 = mstart + reserveMemSize :=
    Nat.mod_eq_of_lt (by omega)
  simp only [initMmgr, hbase, findValidNode_empty, deref, bind, Except.bind, pure,
    Except.pure, setNext, setPrev, setBlock, Function.update_self, Function.update_idem, built,
    behindReserve]

theorem behindReserve_eq {size : ℕ} (h : reserveMemSize ≤ size) (hsmall : size < 2 ^ 32) :
    behindReserve size = size - reserveMemSize := by
  have hres : reserveMemSize = 8192 := rfl
  unfold behindReserve
  omega

theorem heap_built {membase totalsize : ℕ} (hpos : 0 < totalsize)
    (haddr : membase + totalsize ≤ 2 ^ 64) (hsmall : totalsize < 2 ^ 32) :
    Heap (built membase totalsize) [firstNode] [] := heap_init hpos haddr hsmall

theorem lives_built {membase totalsize : ℕ} (haddr : membase + totalsize ≤ 2 ^ 64)
    (hsmall : totalsize < 2 ^ 32) (hlo : lo ≤ membase) (hhi : membase + totalsize ≤ hi) :
    Lives lo hi (built membase totalsize) := by
  refine ⟨?_, hlo, hhi⟩
  obtain rfl | hpos := Nat.eq_zero_or_pos totalsize
  · exact .inr ⟨⟨firstNode, rfl, rfl, rfl⟩, rfl⟩
  · exact .inl ⟨_, _, heap_built hpos haddr hsmall, List.pairwise_singleton _ _⟩

end Heaps

section Pools

variable {tz : List MemRegion} {s s' : Ion} {p q : IonPool} {r : MemRegion}

def IonPool.passed : IonPool → MemRegion → ℕ
  | .cacheable, _ => cacheableMemPoolSize
  | .noncacheable, r => r.size.toNat

def created (p : IonPool) (r : MemRegion) (s : Ion) : Ion :=
  { s with
    gMmgr := Function.update s.gMmgr p.type r.first
    memory := Function.update s.memory r.first
      (built (r.first + reserveMemSize) (behindReserve (p.passed r)))
    cleared := (p.type, r.first) :: s.cleared }

def createdIn (tz : List MemRegion) (p : IonPool) (s : Ion) : Ion :=
  match p.region tz with
  | none => s
  | some r => created p r s

theorem initMmgrByType_created (h : s.gMmgr p.type = 0) :
    initMmgrByType p.type r.first (p.passed r) s = .ok (created p r s) := by
  have haddr : r.first < 2 ^ 32 := r.base.toNat_lt
  rw [initMmgrByType, if_neg (not_not.mpr h), initMmgr_built _ haddr]
  rfl

theorem initIonNoncacheableMempool_eq (h : s.gMmgr .ionNoncacheable = 0) :
    initIonNoncacheableMempool s = .ok (createdIn s.mem .noncacheable s) := by
  unfold initIonNoncacheableMempool createdIn IonPool.region
  dsimp only
  cases s.mem.find? fun r => r.forNonsecure && r.forNoncacheable with
  | none => rfl
  | some r => exact initMmgrByType_created (p := .noncacheable) h

theorem initIonCacheableMempool_eq (h : s.gMmgr .ionCacheable = 0) :
    ∃ start size, initIonCacheableMempool s =
      .ok (createdIn s.mem .cacheable { s with cmaPoolStart := start, cmaPoolSize := size }) := by
  unfold initIonCacheableMempool createdIn IonPool.region
  dsimp only
  cases s.mem.find? fun r => r.forNonsecure && r.forCacheable with
  | none => exact ⟨s.cmaPoolStart, s.cmaPoolSize, rfl⟩
  | some r =>
    dsimp only
    split
    · exact ⟨r.base, r.size, initMmgrByType_created (p := .cacheable) h⟩
    · exact ⟨s.cmaPoolStart, s.cmaPoolSize, initMmgrByType_created (p := .cacheable) h⟩

theorem createdIn_mem : (createdIn tz p s).mem = s.mem := by
  unfold createdIn
  split <;> rfl

theorem type_injective : Function.Injective IonPool.type := by
  intro p q h
  cases p <;> cases q <;> first | rfl | cases h

theorem createdIn_gMmgr_of_ne (h : q ≠ p) : (createdIn tz p s).gMmgr q.type = s.gMmgr q.type := by
  unfold createdIn
  split
  · rfl
  · exact Function.update_of_ne (fun he => h (type_injective he)) _ _

theorem created_gMmgr_self : (created p r s).gMmgr p.type = r.first := Function.update_self _ _ _

theorem created_memory_self : (created p r s).memory r.first =
    built (r.first + reserveMemSize) (behindReserve (p.passed r)) := Function.update_self _ _ _

theorem createdIn_some (h : p.region tz = some r) : createdIn tz p s = created p r s := by
  rw [createdIn, h]

theorem createdIn_none (h : p.region tz = none) : createdIn tz p s = s := by
  rw [createdIn, h]

def pools (tz : List MemRegion) (memory : ℕ → Memmgr) (start size : UInt32) : Ion :=
  createdIn tz .noncacheable
    (createdIn tz .cacheable ⟨tz, start, size, fun _ => 0, memory, []⟩)

theorem getMemRegionListFromTz_boot (tz : List MemRegion) (memory : ℕ → Memmgr) :
    ∃ start size, getMemRegionListFromTz tz (boot memory) = .ok (pools tz memory start size) := by
  obtain ⟨start, size, hc⟩ :=
    initIonCacheableMempool_eq (s := { boot memory with mem := tz }) rfl
  refine ⟨start, size, ?_⟩
  have hboot : ¬ 0 < (boot memory).mem.length := Nat.lt_irrefl 0
  rw [getMemRegionListFromTz, if_neg hboot, hc]
  have hnull : (createdIn tz .cacheable ⟨tz, start, size, fun _ => 0, memory, []⟩).gMmgr
      .ionNoncacheable = 0 :=
    createdIn_gMmgr_of_ne (q := .noncacheable) (p := .cacheable) (by decide)
  have hnon := initIonNoncacheableMempool_eq hnull
  rw [createdIn_mem] at hnon
  exact hnon

section Created

variable {memory : ℕ → Memmgr} {start size : UInt32}

theorem pools_gMmgr (p : IonPool) :
    (pools tz memory start size).gMmgr p.type = (p.region tz).elim 0 MemRegion.first := by
  cases p with
  | noncacheable =>
    rw [pools]
    cases hr : IonPool.region tz .noncacheable with
    | none =>
      rw [createdIn_none hr]
      exact createdIn_gMmgr_of_ne (q := .noncacheable) (p := .cacheable) (by decide)
    | some r =>
      rw [createdIn_some hr]
      exact created_gMmgr_self
  | cacheable =>
    rw [pools, createdIn_gMmgr_of_ne (by decide)]
    cases hr : IonPool.region tz .cacheable with
    | none =>
      rw [createdIn_none hr]
      rfl
    | some r =>
      rw [createdIn_some hr]
      exact created_gMmgr_self

theorem mem_cleared_createdIn {t : MemType × ℕ} : t ∈ (createdIn tz p s).cleared ↔
    (∃ r, p.region tz = some r ∧ t = (p.type, r.first)) ∨ t ∈ s.cleared := by
  cases hr : p.region tz with
  | none =>
    rw [createdIn_none hr]
    exact ⟨.inr, fun h => h.resolve_left fun ⟨r, h, _⟩ => by cases h⟩
  | some r =>
    rw [createdIn_some hr]
    constructor
    · intro h
      exact (List.mem_cons.mp h).imp_left fun h => ⟨r, rfl, h⟩
    · rintro (⟨r, hr, ht⟩ | h)
      · obtain rfl := Option.some.inj hr
        exact List.mem_cons.mpr (.inl ht)
      · exact List.mem_cons_of_mem _ h

theorem pools_cleared {a : ℕ} : (p.type, a) ∈ (pools tz memory start size).cleared ↔
    ∃ r, p.region tz = some r ∧ a = r.first := by
  rw [pools, mem_cleared_createdIn, mem_cleared_createdIn]
  constructor
  · rintro (⟨r, hr, ht⟩ | ⟨r, hr, ht⟩ | h)
    · obtain ⟨htype, rfl⟩ := Prod.mk.inj ht
      obtain rfl := type_injective htype
      exact ⟨r, hr, rfl⟩
    · obtain ⟨htype, rfl⟩ := Prod.mk.inj ht
      obtain rfl := type_injective htype
      exact ⟨r, hr, rfl⟩
    · cases h
  · rintro ⟨r, hr, rfl⟩
    cases p with
    | noncacheable => exact .inl ⟨r, hr, rfl⟩
    | cacheable => exact .inr (.inl ⟨r, hr, rfl⟩)

theorem pools_noncacheable (hr : IonPool.region tz .noncacheable = some r) :
    (pools tz memory start size).memory r.first =
      built (r.first + reserveMemSize) (behindReserve r.size.toNat) := by
  rw [pools, createdIn_some hr]
  exact created_memory_self

theorem pools_cacheable (hr : IonPool.region tz .cacheable = some r)
    (hother : ∀ r', IonPool.region tz .noncacheable = some r' → r'.first ≠ r.first) :
    (pools tz memory start size).memory r.first =
      built (r.first + reserveMemSize) (cacheableMemPoolSize - reserveMemSize) := by
  have hmem : (createdIn tz .cacheable ⟨tz, start, size, fun _ => 0, memory, []⟩).memory r.first =
      built (r.first + reserveMemSize) (cacheableMemPoolSize - reserveMemSize) := by
    rw [createdIn_some hr, created_memory_self, IonPool.passed,
      behindReserve_eq (by decide) (by decide)]
  rw [pools]
  cases hr' : IonPool.region tz .noncacheable with
  | none =>
    rw [createdIn_none hr']
    exact hmem
  | some r' =>
    rw [createdIn_some hr']
    exact (Function.update_of_ne (hother r' hr').symm _ _).trans hmem

end Created

def Housed (tz : List MemRegion) (s : Ion) : Prop :=
  ∀ p : IonPool, s.gMmgr p.type ≠ 0 →
    ∃ r, p.region tz = some r ∧ Lives r.first r.afterLast (s.memory (s.gMmgr p.type))

theorem Housed.update {m : Memmgr} {a : ℕ} (h : Housed tz s)
    (hm : ∀ lo hi, Lives lo hi (s.memory a) → Lives lo hi m) :
    Housed tz { s with memory := Function.update s.memory a m } := by
  intro q hq
  obtain ⟨r, hr, hlives⟩ := h q hq
  refine ⟨r, hr, ?_⟩
  dsimp only
  by_cases ha : s.gMmgr q.type = a
  · rw [ha, Function.update_self]
    exact hm _ _ (ha ▸ hlives)
  · rw [Function.update_of_ne ha]
    exact hlives

theorem malloc_eq (p : IonPool) : malloc p = mmgrAllocByType p.type := by
  cases p <;> rfl

theorem free_eq (p : IonPool) : free p = mmgrFreeByType p.type := by
  cases p <;> rfl

theorem malloc_of_alloc {size : ℤ} {a : ℕ} {b : Option ℕ} {m : Memmgr} (hptr : s.gMmgr p.type = a)
    (ha : a ≠ 0) (h : mmgrAlloc p.type size (s.memory a) = .ok (b, m)) :
    malloc p size s = .ok (b, { s with memory := Function.update s.memory a m }) := by
  subst hptr
  rw [malloc_eq, mmgrAllocByType, if_neg ha, h]
  rfl

theorem Housed.malloc {size : ℤ} {b : Option ℕ} (h : Housed tz s)
    (hm : malloc p size s = .ok (b, s')) : Housed tz s' ∧
      ∀ a, b = some a → ∃ r, p.region tz = some r ∧ Inside r a (allocSize p.type size.toNat) := by
  rw [malloc_eq, mmgrAllocByType] at hm
  split at hm
  · obtain ⟨rfl, rfl⟩ := Prod.mk.inj (Except.ok.inj hm)
    exact ⟨h, fun a ha => by cases ha⟩
  · next hptr =>
    obtain ⟨⟨b', m⟩, halloc, hm⟩ := bind_ok hm
    obtain ⟨rfl, rfl⟩ := Prod.mk.inj (Except.ok.inj hm)
    refine ⟨h.update fun lo hi hlives => (hlives.alloc halloc).1, fun a ha => ?_⟩
    obtain ⟨r, hr, hlives⟩ := h p hptr
    exact ⟨r, hr, (hlives.alloc halloc).2 a ha⟩

theorem Housed.free {addr : ℕ} (h : Housed tz s) (hf : free p addr s = .ok s') : Housed tz s' := by
  rw [free_eq, mmgrFreeByType] at hf
  split at hf
  · exact Except.ok.inj hf ▸ h
  · obtain ⟨m, hfree, hf⟩ := bind_ok hf
    obtain rfl := Except.ok.inj hf
    exact h.update fun lo hi hlives => hlives.free hfree

theorem Housed.step {c : Call} (h : Housed tz s) (hs : step s c = .ok s') : Housed tz s' := by
  cases c with
  | malloc p size =>
    obtain ⟨⟨b, s₁⟩, hm, hs⟩ := bind_ok hs
    obtain rfl := Except.ok.inj hs
    exact (h.malloc hm).1
  | free p addr => exact h.free hs

theorem Housed.run {calls : List Call} (h : Housed tz s) (hs : run s calls = .ok s') :
    Housed tz s' := by
  induction calls generalizing s with
  | nil => exact Except.ok.inj hs ▸ h
  | cons c calls ih =>
    rw [IonPools.run, List.foldlM_cons] at hs
    obtain ⟨s₁, hstep, hs⟩ := bind_ok hs
    exact ih (h.step hstep) hs

theorem first_ne_of_apart {r₁ r₂ : MemRegion} (h : Apart r₁ r₂)
    (h₁ : reserveMemSize ≤ r₁.size.toNat) (h₂ : reserveMemSize ≤ r₂.size.toNat) :
    r₂.first ≠ r₁.first := by
  intro heq
  have hpos : 0 < reserveMemSize := by decide
  refine h r₁.first ⟨⟨le_rfl, Nat.lt_add_of_pos_right (hpos.trans_le h₁)⟩, heq.le, ?_⟩
  rw [← heq]
  exact Nat.lt_add_of_pos_right (hpos.trans_le h₂)

theorem lives_region {n : ℕ} (hres : reserveMemSize ≤ n) (hn : n ≤ r.size.toNat) :
    Lives r.first r.afterLast (built (r.first + reserveMemSize) (n - reserveMemSize)) := by
  have hfirst : r.first < 2 ^ 32 := r.base.toNat_lt
  have hsize : r.size.toNat < 2 ^ 32 := r.size.toNat_lt
  have hlast : r.afterLast = r.first + r.size.toNat := rfl
  exact lives_built (by omega) (by omega) (by omega) (by omega)

theorem housed_pools {memory : ℕ → Memmgr} {start size : UInt32}
    (hapart : ∀ r₁ r₂, IonPool.region tz .cacheable = some r₁ →
      IonPool.region tz .noncacheable = some r₂ → r₁ = r₂ ∨ Apart r₁ r₂)
    (hfits : Fits tz) : Housed tz (pools tz memory start size) := by
  have hnon : ∀ r, IonPool.region tz .noncacheable = some r → Lives r.first r.afterLast
      ((pools tz memory start size).memory r.first) := by
    intro r hr
    have hres := hfits.reserve .noncacheable r hr
    rw [pools_noncacheable hr, behindReserve_eq hres r.size.toNat_lt]
    exact lives_region hres le_rfl
  intro p hptr
  rw [pools_gMmgr] at hptr ⊢
  cases hr : p.region tz with
  | none =>
    rw [hr] at hptr
    exact absurd rfl hptr
  | some r =>
    rw [hr] at hptr
    refine ⟨r, rfl, ?_⟩
    change Lives _ _ ((pools tz memory start size).memory r.first)
    cases p with
    | noncacheable => exact hnon r hr
    | cacheable =>
      by_cases hsame : IonPool.region tz .noncacheable = some r
      · exact hnon r hsame
      · have hbase : r.base ≠ 0 := fun h => hptr (congrArg UInt32.toNat h)
        rw [pools_cacheable hr fun r' hr' => first_ne_of_apart
          ((hapart r r' hr hr').resolve_left fun h => hsame (h ▸ hr'))
          (hfits.reserve .cacheable r hr) (hfits.reserve .noncacheable r' hr')]
        exact lives_region (by decide) (hfits.whole r hr hbase hsame)

theorem alloc_built (membase totalsize : ℕ) (type : MemType) (hpos : 0 < totalsize)
    (haddr : membase + totalsize ≤ 2 ^ 64) (hsmall : totalsize < 2 ^ 32)
    (hround : allocSize type totalsize = totalsize) :
    ∃ m, mmgrAlloc type totalsize (built membase totalsize) = .ok (some membase, m) := by
  have hheap : Heap (built membase totalsize) ([] ++ firstNode :: []) [] :=
    heap_built hpos haddr hsmall
  have hsize : ((totalsize : ℤ)).toNat = totalsize := Int.toNat_natCast _
  have hfit : allocSize type ((totalsize : ℤ)).toNat ≤ totalsize := by
    rw [hsize, hround]
  obtain ⟨m, halloc, -⟩ := mmgrAlloc_fit hheap (List.pairwise_singleton _ _) (by omega)
    (by decide) (fun i hi => by cases hi) hfit
  exact ⟨m, halloc⟩

theorem fits_of_confined {memory : ℕ → Memmgr}
    (hapart : ∀ r₁ r₂, IonPool.region tz .cacheable = some r₁ →
      IonPool.region tz .noncacheable = some r₂ → r₁ = r₂ ∨ Apart r₁ r₂)
    (h : Confined memory tz) : Fits tz := by
  obtain ⟨start, size, hboot⟩ := getMemRegionListFromTz_boot tz memory
  have hreserve : ∀ (p : IonPool) r, p.region tz = some r → reserveMemSize ≤ r.size.toNat := by
    intro p r hr
    obtain ⟨r', hr', -, hlast⟩ := h.bookkeeping _ hboot p r.first (pools_cleared.mpr ⟨r, hr, rfl⟩)
    obtain rfl := Option.some.inj (hr.symm.trans hr')
    exact Nat.le_of_add_le_add_left hlast
  refine ⟨hreserve, fun r hr hbase hne => ?_⟩
  have hmem : (pools tz memory start size).memory r.first =
      built (r.first + reserveMemSize) (cacheableMemPoolSize - reserveMemSize) :=
    pools_cacheable hr fun r' hr' => first_ne_of_apart
      ((hapart r r' hr hr').resolve_left fun h => hne (h ▸ hr'))
      (hreserve .cacheable r hr) (hreserve .noncacheable r' hr')
  have hptr : (pools tz memory start size).gMmgr (IonPool.type .cacheable) = r.first := by
    rw [pools_gMmgr, hr]
    rfl
  have hnull : r.first ≠ 0 := fun h => hbase (UInt32.toNat_inj.mp h)
  have hfirst : r.first < 2 ^ 32 := r.base.toNat_lt
  -- the whole heap is one block
  obtain ⟨m, halloc⟩ := alloc_built (r.first + reserveMemSize)
    (cacheableMemPoolSize - reserveMemSize) (IonPool.type .cacheable) (by decide)
    (by unfold cacheableMemPoolSize reserveMemSize; omega) (by decide) (by decide)
  have hmalloc := malloc_of_alloc hptr hnull (hmem.symm ▸ halloc)
  obtain ⟨r', hr', -, hlast⟩ := h.blocks _ hboot [] _ rfl .cacheable _ _ _ hmalloc
  obtain rfl := Option.some.inj (hr.symm.trans hr')
  have hround : allocSize .ionCacheable (cacheableMemPoolSize - reserveMemSize) =
      cacheableMemPoolSize - reserveMemSize := by decide
  have hlast' : r.first + reserveMemSize + (cacheableMemPoolSize - reserveMemSize) ≤
      r.first + r.size.toNat := by
    rw [Int.toNat_natCast, IonPool.type, hround] at hlast
    exact hlast
  unfold cacheableMemPoolSize reserveMemSize at hlast'
  unfold cacheableMemPoolSize
  omega

/-- The pools stay inside exactly if their regions are large enough, for the cacheable one
128 MiB. -/
theorem pools_confined_iff (memory : ℕ → Memmgr) (tz : List MemRegion)
    (hapart : ∀ r₁ r₂, IonPool.region tz .cacheable = some r₁ →
      IonPool.region tz .noncacheable = some r₂ → r₁ = r₂ ∨ Apart r₁ r₂) :
    Confined memory tz ↔ Fits tz := by
  refine ⟨fits_of_confined hapart, fun hfits => ?_⟩
  obtain ⟨start, size, hboot⟩ := getMemRegionListFromTz_boot tz memory
  constructor
  · intro s₀ hs₀ calls s hrun p n a s' hmalloc
    obtain rfl := Except.ok.inj (hboot.symm.trans hs₀)
    have hhoused : Housed tz (pools tz memory start size) := housed_pools hapart hfits
    exact ((hhoused.run hrun).malloc hmalloc).2 a rfl
  · intro s₀ hs₀ p a ha
    obtain rfl := Except.ok.inj (hboot.symm.trans hs₀)
    obtain ⟨r, hr, rfl⟩ := pools_cleared.mp ha
    exact ⟨r, hr, le_rfl, Nat.add_le_add_left (hfits.reserve p r hr) _⟩

end Pools

def emptyMemory : ℕ → Memmgr := fun _ => built 0 0

def poolMem (base size attributes : UInt32) : MemRegion :=
  ⟨noName, base, size, 0, 0, 0x06000002, attributes, 0, 0⟩

theorem pools_confined_two :
    Confined emptyMemory [poolMem 0x20000000 0x8000000 0x6, poolMem 0x28000000 0x100000 0xa] := by
  refine (pools_confined_iff _ _ fun r₁ r₂ h₁ h₂ => .inr ?_).mpr ⟨fun p r hr => ?_, fun r hr _ _ => ?_⟩
  · obtain rfl := Option.some.inj h₁
    obtain rfl := Option.some.inj h₂
    exact apart_of_le (by decide)
  · cases p with
    | cacheable =>
      obtain rfl := Option.some.inj hr
      decide
    | noncacheable =>
      obtain rfl := Option.some.inj hr
      decide
  · obtain rfl := Option.some.inj hr
    decide

theorem small_region_left : ¬ Confined emptyMemory [poolMem 0x20000000 0x4000000 0x6] := by
  intro h
  have hfits := fits_of_confined (fun r₁ r₂ _ h₂ => by cases h₂) h
  exact absurd (hfits.whole _ rfl (by decide) (by decide)) (by decide)

end SynaBoot.IonPools
