import SynaBoot.MmgrLists
import SynaBoot.Tiling

namespace SynaBoot.MmgrHeap

open SynaBoot.Mmgr SynaBoot.MmgrLists SynaBoot.DoublyLinked SynaBoot.Tiling

def block (pool : Pool) (i : Ptr) : Block := ((pool i).base, (pool i).size)

structure Nodes (pool : Pool) (lo hi : Nat) (l : List Ptr) : Prop where
  nodup : l.Nodup
  used : ∀ i, (pool i).isused = .used ↔ i ∈ l
  unused : ∀ i, i ∉ l → pool i = Mnode.zero
  pos : ∀ i ∈ l, 0 < (pool i).size
  tiles : Tiles lo hi (l.map (block pool))

/-- Two doubly linked lists, whose blocks partition the region. -/
structure Heap (m : Memmgr) (fl al : List Ptr) : Prop where
  freeHead : m.pFree = fl.head?
  allocHead : m.pAlloc = al.head?
  freeLinked : Linked m.pool fl
  allocLinked : Linked m.pool al
  nodes : Nodes m.pool m.membase (m.membase + m.totalsize) (fl ++ al)
  count : m.num = (fl ++ al).length
  addressable : m.membase + m.totalsize ≤ 2 ^ 64
  small : m.totalsize < 2 ^ 32

/-- Sorted, and no two blocks can be merged. -/
def Sorted (pool : Pool) (fl : List Ptr) : Prop :=
  fl.Pairwise (fun i j => (pool i).base + (pool i).size < (pool j).base)

def WellFormed (m : Memmgr) : Prop := ∃ fl al, Heap m fl al ∧ Sorted m.pool fl

theorem payload_eq_iff {pool pool' : Pool} {i j : Ptr} :
    payload pool' i = payload pool j ↔ (pool' i).base = (pool j).base ∧
      (pool' i).size = (pool j).size ∧ (pool' i).isused = (pool j).isused := by
  simp [payload]

theorem sorted_congr {pool pool' : Pool} {l : List Ptr}
    (h : ∀ i ∈ l, payload pool' i = payload pool i) (hs : Sorted pool l) : Sorted pool' l := by
  refine List.Pairwise.imp_of_mem ?_ hs
  intro i j hi hj hij
  obtain ⟨hib, his, -⟩ := payload_eq_iff.mp (h i hi)
  obtain ⟨hjb, -, -⟩ := payload_eq_iff.mp (h j hj)
  rwa [hib, his, hjb]

theorem perm_front (l r s : List Ptr) (p : Ptr) :
    (l ++ p :: r ++ s).Perm (p :: (l ++ r ++ s)) := by
  simpa only [List.append_assoc, List.cons_append] using List.perm_middle

namespace Nodes

variable {pool pool' : Pool} {lo hi : Nat} {l : List Ptr} {p q new : Ptr} {n : Nat}

theorem perm {k : List Ptr} (h : Nodes pool lo hi l) (hp : l.Perm k) : Nodes pool lo hi k where
  nodup := hp.nodup_iff.mp h.nodup
  used i := (h.used i).trans hp.mem_iff
  unused i hi := h.unused i (fun hl => hi (hp.mem_iff.mp hl))
  pos i hi := h.pos i (hp.mem_iff.mpr hi)
  tiles := tiles_perm (hp.map _) h.tiles

theorem of_payload {l' : List Ptr} (hnd : l'.Nodup)
    (hused : ∀ i ∈ l', 0 < (payload pool' i).2.1 ∧ (payload pool' i).2.2 = .used)
    (hunused : ∀ i, i ∉ l' → pool' i = Mnode.zero)
    (htiles : Tiles lo hi (l'.map (block pool'))) : Nodes pool' lo hi l' where
  nodup := hnd
  used i := by
    constructor
    · intro hu
      by_contra hi
      rw [hunused i hi] at hu
      exact NodeState.noConfusion hu
    · intro hi
      exact (hused i hi).2
  unused := hunused
  pos i hi := (hused i hi).1
  tiles := htiles

theorem payload_used (h : Nodes pool lo hi l) {i : Ptr} (hi : i ∈ l)
    (he : payload pool' i = payload pool i) :
    0 < (payload pool' i).2.1 ∧ (payload pool' i).2.2 = .used := by
  rw [he]
  exact ⟨h.pos i hi, (h.used i).mpr hi⟩

theorem map_block (he : ∀ i ∈ l, payload pool' i = payload pool i) :
    l.map (block pool') = l.map (block pool) := by
  apply List.map_congr_left
  intro i hi
  obtain ⟨hb, hs, -⟩ := payload_eq_iff.mp (he i hi)
  simp [block, hb, hs]

theorem congr (h : Nodes pool lo hi l) (he : ∀ i ∈ l, payload pool' i = payload pool i)
    (hu : ∀ i, i ∉ l → pool' i = pool i) : Nodes pool' lo hi l := by
  refine of_payload h.nodup (fun i hi => h.payload_used hi (he i hi)) ?_ ?_
  · intro i hi
    rw [hu i hi, h.unused i hi]
  · rw [map_block he]
    exact h.tiles

theorem split (h : Nodes pool lo hi (p :: l)) (hnew : new ∉ p :: l) (hn : 0 < n)
    (hlt : n < (pool p).size)
    (hep : payload pool' p = ((pool p).base + n, (pool p).size - n, .used))
    (hen : payload pool' new = ((pool p).base, n, .used))
    (he : ∀ i ∈ l, payload pool' i = payload pool i)
    (hu : ∀ i, i ∉ new :: p :: l → pool' i = pool i) : Nodes pool' lo hi (new :: p :: l) := by
  refine of_payload (List.nodup_cons.mpr ⟨hnew, h.nodup⟩) ?_ ?_ ?_
  · intro i hi
    rcases List.mem_cons.mp hi with rfl | hi
    · rw [hen]
      exact ⟨hn, rfl⟩
    · rcases List.mem_cons.mp hi with rfl | hi
      · rw [hep]
        exact ⟨Nat.sub_pos_of_lt hlt, rfl⟩
      · exact h.payload_used (List.mem_cons_of_mem p hi) (he i hi)
  · intro i hi
    rw [hu i hi, h.unused i (fun hl => hi (List.mem_cons_of_mem new hl))]
  · have hbp : block pool' p = ((pool p).base + n, (pool p).size - n) := by
      simp only [payload, Prod.mk.injEq] at hep
      simp [block, hep]
    have hbn : block pool' new = ((pool p).base, n) := by
      simp only [payload, Prod.mk.injEq] at hen
      simp [block, hen]
    have hsum : n + ((pool p).size - n) = (pool p).size := by omega
    rw [List.map_cons, List.map_cons, map_block he, hbp, hbn, tiles_split, hsum]
    exact h.tiles

theorem move (h : Nodes pool lo hi (p :: l)) (hnew : new ∉ p :: l)
    (hen : payload pool' new = ((pool p).base, (pool p).size, .used))
    (hep : pool' p = Mnode.zero) (he : ∀ i ∈ l, payload pool' i = payload pool i)
    (hu : ∀ i, i ∉ new :: p :: l → pool' i = pool i) : Nodes pool' lo hi (new :: l) := by
  obtain ⟨hpl, hndl⟩ := List.nodup_cons.mp h.nodup
  have hnl : new ∉ l := fun hl => hnew (List.mem_cons_of_mem p hl)
  refine of_payload (List.nodup_cons.mpr ⟨hnl, hndl⟩) ?_ ?_ ?_
  · intro i hi
    rcases List.mem_cons.mp hi with rfl | hi
    · rw [hen]
      exact ⟨h.pos p (by simp), rfl⟩
    · exact h.payload_used (List.mem_cons_of_mem p hi) (he i hi)
  · intro i hi
    by_cases hip : i = p
    · rw [hip, hep]
    · have hni : i ∉ new :: p :: l := by simp_all
      rw [hu i hni, h.unused i (fun hl => hni (List.mem_cons_of_mem new hl))]
  · have hbn : block pool' new = block pool p := by
      simp only [payload, Prod.mk.injEq] at hen
      simp [block, hen]
    rw [List.map_cons, map_block he, hbn]
    exact h.tiles

theorem merge (h : Nodes pool lo hi (q :: p :: l))
    (hadj : (pool q).base + (pool q).size = (pool p).base)
    (heq : payload pool' q = ((pool q).base, (pool q).size + (pool p).size, .used))
    (hep : pool' p = Mnode.zero) (he : ∀ i ∈ l, payload pool' i = payload pool i)
    (hu : ∀ i, i ∉ q :: p :: l → pool' i = pool i) : Nodes pool' lo hi (q :: l) := by
  have hndl : (q :: l).Nodup := h.nodup.sublist (by simp)
  refine of_payload hndl ?_ ?_ ?_
  · intro i hi
    rcases List.mem_cons.mp hi with rfl | hi
    · rw [heq]
      exact ⟨Nat.add_pos_left (h.pos i (by simp)) _, rfl⟩
    · exact h.payload_used (by simp [hi]) (he i hi)
  · intro i hi
    by_cases hip : i = p
    · rw [hip, hep]
    · have hni : i ∉ q :: p :: l := by simp_all
      rw [hu i hni, h.unused i hni]
  · have hbq : block pool' q = ((pool q).base, (pool q).size + (pool p).size) := by
      simp only [payload, Prod.mk.injEq] at heq
      simp [block, heq]
    rw [List.map_cons, map_block he, hbq, ← tiles_split, hadj]
    exact h.tiles

theorem within (h : Nodes pool lo hi l) {i : Ptr} (hm : i ∈ l) :
    lo ≤ (pool i).base ∧ (pool i).base + (pool i).size ≤ hi :=
  tiles_within h.tiles (List.mem_map_of_mem hm) (h.pos i hm)

theorem disjoint (h : Nodes pool lo hi l) {i j : Ptr} (hi : i ∈ l) (hj : j ∈ l) (hij : i ≠ j) :
    (pool i).base + (pool i).size ≤ (pool j).base ∨
      (pool j).base + (pool j).size ≤ (pool i).base := by
  obtain ⟨k, hk⟩ : ∃ k, l.Perm (i :: j :: k) := by
    have hj' : j ∈ l.erase i := (List.mem_erase_of_ne hij.symm).mpr hj
    exact ⟨(l.erase i).erase j,
      (List.perm_cons_erase hi).trans ((List.perm_cons_erase hj').cons i)⟩
  have ht := tiles_perm (hk.map (block pool)) h.tiles
  exact tiles_disjoint ht (h.pos i hi) (h.pos j hj)

theorem length_le (h : Nodes pool lo hi l) : l.length ≤ maxnumPool := by
  simpa using h.nodup.length_le_card

theorem full_iff (h : Nodes pool lo hi l) :
    l.length = maxnumPool ↔ ∀ i, (pool i).isused = .used := by
  simp only [h.used]
  constructor
  · intro hl i
    have hc : l.toFinset = Finset.univ := by
      apply Finset.eq_univ_of_card
      rw [List.toFinset_card_of_nodup h.nodup, hl, Fintype.card_fin]
    exact List.mem_toFinset.mp (hc ▸ Finset.mem_univ i)
  · intro hall
    have hle := h.length_le
    have hge : (List.finRange maxnumPool).length ≤ l.length :=
      ((List.nodup_finRange maxnumPool).subperm (fun i _ => hall i)).length_le
    rw [List.length_finRange] at hge
    omega

end Nodes

variable {m : Memmgr} {fl al : List Ptr}

theorem findValidNode_full (h : Heap m fl al) (hl : (fl ++ al).length = maxnumPool) :
    findValidNodeFromPool m = (none, m) := by
  have hf : (List.finRange maxnumPool).find? (fun i => (m.pool i).isused = .free) = none := by
    simp [h.nodes.full_iff.mp hl]
  simp only [findValidNodeFromPool, hf]

theorem findValidNode_room (h : Heap m fl al) (hl : (fl ++ al).length ≠ maxnumPool) :
    ∃ i, i ∉ fl ++ al ∧ findValidNodeFromPool m = (some i, { m with
      pool := Function.update m.pool i { Mnode.zero with isused := .used }
      num := m.num + 1 }) := by
  have hle := h.nodes.length_le
  have hnum : (m.num + 1) % 2 ^ 32 = m.num + 1 := by
    rw [h.count]
    simp only [maxnumPool] at hle
    omega
  cases hf : (List.finRange maxnumPool).find? (fun i => (m.pool i).isused = .free) with
  | none =>
    refine absurd (h.nodes.full_iff.mpr fun i => ?_) hl
    have hi := List.find?_eq_none.mp hf i (List.mem_finRange i)
    cases hu : (m.pool i).isused with
    | free => simp [hu] at hi
    | used => rfl
  | some i =>
    have hi := List.find?_some hf
    have hni : i ∉ fl ++ al := by
      intro hm
      rw [← h.nodes.used] at hm
      simp [hm] at hi
    refine ⟨i, hni, ?_⟩
    simp only [findValidNodeFromPool, hf, h.nodes.unused i hni, hnum]

end SynaBoot.MmgrHeap
