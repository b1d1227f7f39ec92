import SynaBoot.MmgrHeap

namespace SynaBoot.MmgrFree

open SynaBoot.Mmgr SynaBoot.MmgrLists SynaBoot.MmgrHeap SynaBoot.DoublyLinked SynaBoot.Tiling

def blockEnd (pool : Pool) (i : Ptr) : Nat := (pool i).base + (pool i).size

variable {m : Memmgr} {al : List Ptr}

def joined (pool : Pool) (q p : Ptr) (r : Option Ptr) : Pool :=
  Function.update (setPrevIf (setNext (setBlock pool q (pool q).base
    ((pool q).size + (pool p).size)) q r) r (some q)) p Mnode.zero

theorem joined_of_not_mem (pool : Pool) {q p i : Ptr} {r : List Ptr} (hq : i ≠ q) (hp : i ≠ p)
    (hr : i ∉ r) : joined pool q p r.head? i = pool i := by
  have hh : r.head? ≠ some i := fun he => hr (List.mem_of_head? he)
  refine node_ext ?_ ?_ ?_ <;> simp [joined, hq, hp, hh]

variable {l r : List Ptr} {q p : Ptr}

theorem heap_joined (h : Heap m (l ++ q :: p :: r) al) (hadj : blockEnd m.pool q = (m.pool p).base) :
    Heap { m with num := m.num - 1, pool := joined m.pool q p r.head? } (l ++ q :: r) al := by
  have hnodes := h.nodes.perm
    ((perm_front l (p :: r) al q).trans ((perm_front l r al p).cons q))
  obtain ⟨hq, hnd⟩ := List.nodup_cons.mp hnodes.nodup
  obtain ⟨hp, hnd'⟩ := List.nodup_cons.mp hnd
  have hpq : q ≠ p := fun he => hq (by simp [he])
  have hndf := (List.nodup_append.mp h.nodes.nodup).1
  have hused : (payload m.pool q).2.2 = .used := (h.nodes.used q).mpr (by simp)
  exact
    { freeHead := by
        rw [h.freeHead]
        cases l <;> rfl
      allocHead := h.allocHead
      freeLinked := by
        have hlk : Linked m.pool ((l ++ [q]) ++ p :: r) := by simpa using h.freeLinked
        have hnd₁ : ((l ++ [q]) ++ p :: r).Nodup := by simpa using hndf
        have hp₁ : p ∉ (l ++ [q]) ++ r := (List.nodup_cons.mp (List.nodup_middle.mp hnd₁)).1
        have hres : Linked (joined m.pool q p r.head?) ((l ++ [q]) ++ r) := by
          refine segment_unlink hlk hnd₁ ?_ ?_
          · intro x hx
            simp [joined, ne_of_mem_of_not_mem hx hp₁, eq_comm]
          · intro x hx
            simp [joined, ne_of_mem_of_not_mem hx hp₁]
        simpa using hres
      allocLinked := by
        refine linked_congr h.allocLinked fun i hi => ?_
        have hia : i ∈ l ++ r ++ al := List.mem_append_right _ hi
        have hir : i ∉ r := by
          intro hm
          exact (List.nodup_append.mp hnd').2.2 i (List.mem_append_right l hm) i hi rfl
        have he := joined_of_not_mem m.pool
          (ne_of_mem_of_not_mem (List.mem_cons_of_mem p hia) hq) (ne_of_mem_of_not_mem hia hp) hir
        exact ⟨congrArg Mnode.prev he, congrArg Mnode.next he⟩
      nodes := by
        refine Nodes.perm (l := q :: (l ++ r ++ al)) (hnodes.merge hadj ?_ ?_ ?_ ?_) ?_
        · simp [joined, hpq, hused]
        · simp [joined]
        · intro i hi
          simp [joined, ne_of_mem_of_not_mem hi hp,
            ne_of_mem_of_not_mem (List.mem_cons_of_mem p hi) hq]
        · intro i hi
          simp only [List.mem_cons, not_or, List.mem_append] at hi
          exact joined_of_not_mem m.pool hi.1 hi.2.1 hi.2.2.1.2
        · exact (perm_front l r al q).symm
      count := by
        simp only [h.count, List.length_append, List.length_cons]
        omega
      addressable := h.addressable
      small := h.small }

theorem payload_joined_of_ne (pool : Pool) {q p i : Ptr} (r : Option Ptr) (hq : i ≠ q)
    (hp : i ≠ p) : payload (joined pool q p r) i = payload pool i := by
  simp [joined, hq, hp]

theorem payload_joined_self (pool : Pool) (r : Option Ptr) (hpq : q ≠ p) :
    payload (joined pool q p r) q =
      ((pool q).base, (pool q).size + (pool p).size, (pool q).isused) := by
  simp [joined, hpq]
  rfl

/-- The block of `c` is joined to the one before it, or stands alone. -/
structure Merged (m m' : Memmgr) (k r al : List Ptr) (c y : Ptr) : Prop where
  heap : Heap m' (k ++ y :: r) al
  sorted : Sorted m'.pool (k ++ [y])
  top : blockEnd m'.pool y = blockEnd m.pool c
  rest : ∀ i ∈ r, payload m'.pool i = payload m.pool i

theorem checkPrevnodeAndMerge_none (m : Memmgr) :
    checkPrevnodeAndMerge m none = .error .nullDeref := rfl

theorem checkPrevnodeAndMerge_head {r : List Ptr} {p : Ptr} (h : Heap m (p :: r) al) :
    checkPrevnodeAndMerge m (some p) = .ok (p, m) ∧ Merged m m [] r al p p := by
  have hprev : (m.pool p).prev = none := (linked_at (l := []) h.freeLinked).1
  refine ⟨?_, ⟨h, List.pairwise_singleton _ _, rfl, fun i _ => rfl⟩⟩
  simp [checkPrevnodeAndMerge, deref, hprev, bind, Except.bind, pure, Except.pure]

theorem checkPrevnodeAndMerge_spec (h : Heap m (l ++ q :: p :: r) al)
    (hs : Sorted m.pool (l ++ [q])) (hle : blockEnd m.pool q ≤ (m.pool p).base) :
    ∃ y m' k, checkPrevnodeAndMerge m (some p) = .ok (y, m') ∧ Merged m m' k r al p y := by
  have hlk : Linked m.pool ((l ++ [q]) ++ p :: r) := by simpa using h.freeLinked
  obtain ⟨hprev, hnext⟩ := linked_at hlk
  rw [List.getLast?_concat] at hprev
  have hndf := (List.nodup_append.mp h.nodes.nodup).1
  have hpq : p ≠ q := by
    rintro rfl
    simp [List.nodup_append] at hndf
  have hp := h.nodes.within (i := p) (by simp)
  have hq := h.nodes.within (i := q) (by simp)
  have hpos := h.nodes.pos p (by simp)
  have haddr := h.addressable
  have hsmall := h.small
  have hmod : blockEnd m.pool q % 2 ^ 64 = blockEnd m.pool q := Nat.mod_eq_of_lt (by omega)
  by_cases hadj : blockEnd m.pool q = (m.pool p).base
  · have hsum : ((m.pool q).size + (m.pool p).size) % 2 ^ 32 =
        (m.pool q).size + (m.pool p).size := by
      apply Nat.mod_eq_of_lt
      simp only [blockEnd] at hadj
      omega
    have hnum : (m.num + 2 ^ 32 - 1) % 2 ^ 32 = m.num - 1 := by
      have hlen := h.nodes.length_le
      have hcount := h.count
      simp only [List.length_append, List.length_cons, maxnumPool] at hlen hcount
      omega
    refine ⟨q, { m with num := m.num - 1, pool := joined m.pool q p r.head? }, l, ?_,
      ⟨heap_joined h hadj, ?_, ?_, ?_⟩⟩
    · have hnp : (setBlock m.pool q (m.pool q).base ((m.pool q).size + (m.pool p).size) p) =
          m.pool p := setBlock_of_ne _ _ _ hpq
      have hnp' : (setNext (setBlock m.pool q (m.pool q).base
          ((m.pool q).size + (m.pool p).size)) q r.head? p) = m.pool p := by
        rw [setNext, Function.update_of_ne hpq, hnp]
      have hcond : ((m.pool q).base + (m.pool q).size) % 2 ^ 64 = (m.pool p).base :=
        hmod.trans hadj
      simp only [checkPrevnodeAndMerge, deref, hprev, hcond, if_true, hsum, hnp, hnp', hnext,
        joined, returnNode2Pool, hnum, bind, Except.bind, pure, Except.pure]
    · have hbq : ((joined m.pool q p r.head?) q).base = (m.pool q).base :=
        congrArg Prod.fst (payload_joined_self m.pool r.head? hpq.symm)
      have hl : ∀ i ∈ l, payload (joined m.pool q p r.head?) i = payload m.pool i := by
        intro i hi
        have hiq : i ≠ q := fun he => (List.nodup_append.mp hndf).2.2 i hi q (by simp) he
        have hip : i ≠ p := fun he => (List.nodup_append.mp hndf).2.2 i hi p (by simp) he
        exact payload_joined_of_ne m.pool _ hiq hip
      obtain ⟨hs₁, -, hs₂⟩ := List.pairwise_append.mp hs
      refine List.pairwise_append.mpr ⟨sorted_congr hl hs₁, List.pairwise_singleton _ _, ?_⟩
      intro i hi j hj
      rw [List.mem_singleton.mp hj]
      obtain ⟨hb, hz, -⟩ := payload_eq_iff.mp (hl i hi)
      have hlt := hs₂ i hi q (by simp)
      show _ < ((joined m.pool q p r.head?) q).base
      rw [hbq]
      simpa only [hb, hz] using hlt
    · have he := payload_joined_self m.pool r.head? hpq.symm
      simp only [payload, Prod.mk.injEq] at he
      simp only [blockEnd] at hadj ⊢
      omega
    · intro i hi
      have hnd := (List.nodup_append.mp hndf).2.1
      have hiq : i ≠ q := fun he => (List.nodup_cons.mp hnd).1 (by simp [← he, hi])
      have hip : i ≠ p := fun he =>
        (List.nodup_cons.mp (List.nodup_cons.mp hnd).2).1 (by simp [← he, hi])
      exact payload_joined_of_ne m.pool _ hiq hip
  · refine ⟨p, m, l ++ [q], ?_, ⟨by simpa using h, ?_, rfl, fun i _ => rfl⟩⟩
    · simp only [blockEnd] at hadj hmod
      simp only [checkPrevnodeAndMerge, deref, hprev, hmod, hadj, if_false, bind, Except.bind,
        pure, Except.pure]
    · refine List.pairwise_append.mpr ⟨hs, List.pairwise_singleton _ _, ?_⟩
      intro i hi j hj
      rw [List.mem_singleton.mp hj]
      have hlt : blockEnd m.pool q < (m.pool p).base := lt_of_le_of_ne hle hadj
      rcases List.mem_append.mp hi with hi | hi
      · have hiq := (List.pairwise_append.mp hs).2.2 i hi q (by simp)
        simp only [blockEnd] at hlt
        omega
      · rw [List.mem_singleton.mp hi]
        exact hlt

theorem merge_both {p c : Ptr} (h : Heap m (l ++ p :: c :: r) al) (hs : Sorted m.pool (l ++ c :: r))
    (hl : ∀ i ∈ l, blockEnd m.pool i ≤ (m.pool p).base) (hc : blockEnd m.pool p ≤ (m.pool c).base) :
    ∃ m', (do
      let (q, m) ← checkPrevnodeAndMerge m (some p)
      let (_, m) ← checkPrevnodeAndMerge m (m.pool q).next
      return m) = .ok m' ∧ WellFormed m' := by
  obtain ⟨hs₁, hs₂, -⟩ := List.pairwise_append.mp hs
  obtain ⟨hcr, hr⟩ := List.pairwise_cons.mp hs₂
  have hstep : ∃ y m₁ k, checkPrevnodeAndMerge m (some p) = .ok (y, m₁) ∧
      Merged m m₁ k (c :: r) al p y := by
    rcases List.eq_nil_or_concat l with rfl | ⟨l', q, rfl⟩
    · exact ⟨p, m, [], checkPrevnodeAndMerge_head h⟩
    · rw [List.concat_eq_append] at *
      refine checkPrevnodeAndMerge_spec (l := l') ?_ hs₁ (hl q (by simp))
      simpa using h
  obtain ⟨y, m₁, k, he₁, hm₁⟩ := hstep
  have hnext : (m₁.pool y).next = some c := (linked_at hm₁.heap.freeLinked).2
  obtain ⟨hcb, hcs, -⟩ := payload_eq_iff.mp (hm₁.rest c (by simp))
  have hyc : blockEnd m₁.pool y ≤ (m₁.pool c).base := by
    rw [hm₁.top, hcb]
    exact hc
  obtain ⟨z, m₂, k', he₂, hm₂⟩ := checkPrevnodeAndMerge_spec hm₁.heap hm₁.sorted hyc
  refine ⟨m₂, ?_, k' ++ z :: r, al, hm₂.heap, ?_⟩
  · simp only [he₁, bind, Except.bind, hnext, he₂, pure, Except.pure]
  · have hrest : ∀ i ∈ r, payload m₂.pool i = payload m.pool i :=
      fun i hi => (hm₂.rest i hi).trans (hm₁.rest i (by simp [hi]))
    have htop : blockEnd m₂.pool z = blockEnd m.pool c := by
      rw [hm₂.top]
      simp only [blockEnd, hcb, hcs]
    obtain ⟨hk₁, -, hk₂⟩ := List.pairwise_append.mp hm₂.sorted
    have hz : ∀ j ∈ r, blockEnd m₂.pool z < (m₂.pool j).base := by
      intro j hj
      obtain ⟨hb, -, -⟩ := payload_eq_iff.mp (hrest j hj)
      rw [htop, hb]
      exact hcr j hj
    refine List.pairwise_append.mpr ⟨hk₁, List.pairwise_cons.mpr ⟨hz, sorted_congr hrest hr⟩, ?_⟩
    intro i hi j hj
    have hiz := hk₂ i hi z (by simp)
    rcases List.mem_cons.mp hj with rfl | hj
    · exact hiz
    · have hzj := hz j hj
      simp only [blockEnd] at hzj
      omega

variable {fl : List Ptr}

theorem sorted_place {pool : Pool} (hs : Sorted pool fl) (b : Nat) :
    ∃ l r, fl = l ++ r ∧ (∀ i ∈ l, (pool i).base < b) ∧ ∀ i ∈ r, ¬ (pool i).base < b := by
  induction fl with
  | nil => exact ⟨[], [], rfl, by simp, by simp⟩
  | cons a fl ih =>
    obtain ⟨ha, hs⟩ := List.pairwise_cons.mp hs
    by_cases hab : (pool a).base < b
    · obtain ⟨l, r, rfl, hl, hr⟩ := ih hs
      refine ⟨a :: l, r, rfl, ?_, hr⟩
      intro i hi
      rcases List.mem_cons.mp hi with rfl | hi
      · exact hab
      · exact hl i hi
    · refine ⟨[], a :: fl, rfl, by simp, ?_⟩
      intro i hi
      rcases List.mem_cons.mp hi with rfl | hi
      · exact hab
      · have := ha i hi
        omega

structure Detached (m : Memmgr) (fl al : List Ptr) (p : Ptr) : Prop where
  freeHead : m.pFree = fl.head?
  allocHead : m.pAlloc = al.head?
  freeLinked : Linked m.pool fl
  allocLinked : Linked m.pool al
  nodes : Nodes m.pool m.membase (m.membase + m.totalsize) (p :: (fl ++ al))
  count : m.num = (p :: (fl ++ al)).length
  addressable : m.membase + m.totalsize ≤ 2 ^ 64
  small : m.totalsize < 2 ^ 32

section

variable {fl : List Ptr} {p : Ptr}

theorem Detached.length_lt (h : Detached m fl al p) : fl.length < maxnumPool + 1 := by
  have hle := h.nodes.length_le
  simp only [List.length_cons, List.length_append] at hle
  omega

theorem Detached.heap {l r : List Ptr} {pool' : Pool} {head : Option Ptr}
    (h : Detached m (l ++ r) al p) (hlinked : Linked pool' (l ++ p :: r))
    (hpay : payload pool' = payload m.pool) (hrest : ∀ i, i ∉ l ++ p :: r → pool' i = m.pool i)
    (hhead : head = (l ++ p :: r).head?) :
    Heap { m with pFree := head, pool := pool' } (l ++ p :: r) al where
  freeHead := hhead
  allocHead := h.allocHead
  freeLinked := hlinked
  allocLinked := by
    obtain ⟨hp, hnd⟩ := List.nodup_cons.mp h.nodes.nodup
    refine linked_congr h.allocLinked fun i hi => ?_
    have hi' : i ∉ l ++ p :: r := by
      intro hm
      have hip : i ≠ p := ne_of_mem_of_not_mem (List.mem_append_right _ hi) hp
      have hmem : i ∈ l ++ r := by simpa [hip] using hm
      exact (List.nodup_append.mp hnd).2.2 i hmem i hi rfl
    exact ⟨congrArg Mnode.prev (hrest i hi'), congrArg Mnode.next (hrest i hi')⟩
  nodes := by
    have hperm := perm_front l r al p
    refine Nodes.congr (h.nodes.perm hperm.symm) (fun i _ => congrFun hpay i) ?_
    intro i hi
    exact hrest i (fun hm => hi (List.mem_append_left al hm))
  count := by
    have hcount := h.count
    simp only [List.length_cons, List.length_append] at hcount ⊢
    omega
  addressable := h.addressable
  small := h.small

theorem insertNode2Free_empty (h : Detached m [] al p) :
    ∃ m', insertNode2Free m p = .ok m' ∧ WellFormed m' := by
  have hheap : Heap { m with
      pFree := some p
      pool := setNext (setPrev m.pool p none) p none } [p] al := by
    refine h.heap (l := []) (r := []) ?_ ?_ ?_ rfl
    · exact (segment_singleton _ _ none none p).mpr ⟨by simp, by simp⟩
    · funext i
      simp
    · intro i hi
      have hip : i ≠ p := by simpa using hi
      refine node_ext ?_ ?_ ?_ <;> simp [hip]
  refine ⟨_, ?_, _, _, hheap, List.pairwise_singleton _ _⟩
  simp [insertNode2Free, h.freeHead]

theorem insertNode2Free_tail (h : Detached m fl al p) (hne : fl ≠ [])
    (hl : ∀ i ∈ fl, (m.pool i).base < (m.pool p).base) :
    insertNode2Free m p = .error .nullDeref := by
  obtain ⟨f, hf⟩ : ∃ f, fl.head? = some f := ⟨fl.head hne, List.head?_eq_some_head hne⟩
  obtain ⟨e, he⟩ : ∃ e, fl.getLast? = some e := ⟨fl.getLast hne, List.getLast?_eq_some_getLast hne⟩
  have hplace : findPlace m.pool (m.pool p).base (maxnumPool + 1) f = .ok e := by
    refine findPlace_eq (p := none) (l := fl) (m := []) ?_ ?_ hl (by simp) ?_ e (by simpa using he)
    · rw [List.append_nil]
      exact h.freeLinked
    · rwa [List.append_nil]
    · rw [List.append_nil]
      exact h.length_lt
  have hef : e ∈ fl := List.mem_of_getLast? he
  have hlt := hl e hef
  have hep : e ≠ p := fun hep => by simp [hep] at hlt
  let pool := setNext (setPrev (setNext m.pool e (some p)) p (some e)) p none
  have hprev : (pool p).prev = some e := by
    simpa [prv] using (show prv pool p = some e by simp [pool])
  have hnext : (pool p).next = none := by
    simpa [nxt] using (show nxt pool p = none by simp [pool])
  have hcheck : ∃ q m', checkPrevnodeAndMerge { m with pFree := some f, pool := pool }
      (some p) = .ok (q, m') ∧ (m'.pool q).next = none := by
    simp only [checkPrevnodeAndMerge, deref, bind, Except.bind, hprev, pure, Except.pure]
    split
    · refine ⟨_, _, rfl, ?_⟩
      change nxt (Function.update (setPrevIf (setNext _ e _) _ _) p Mnode.zero) e = none
      rw [nxt_update, if_neg hep, nxt_setPrevIf, nxt_setNext, if_pos rfl,
        setBlock_of_ne _ _ _ hep.symm, hnext]
    · exact ⟨p, _, rfl, hnext⟩
  obtain ⟨q, m', hc, hq⟩ := hcheck
  rw [insertNode2Free, h.freeHead, hf]
  simp only [hplace, bind, Except.bind, if_pos hlt]
  rw [show setNext (setPrev (setNext m.pool e (some p)) p (some e)) p none = pool from rfl, hc]
  simp only [hq, checkPrevnodeAndMerge_none]

theorem insertNode2Free_before {l r : List Ptr} {c : Ptr} (h : Detached m (l ++ c :: r) al p)
    (hs : Sorted m.pool (l ++ c :: r)) (hl : ∀ i ∈ l, (m.pool i).base < (m.pool p).base)
    (hr : ∀ i ∈ c :: r, ¬ (m.pool i).base < (m.pool p).base) :
    ∃ m', insertNode2Free m p = .ok m' ∧ WellFormed m' := by
  obtain ⟨f, hf⟩ : ∃ f, (l ++ c :: r).head? = some f := by
    cases l <;> simp
  have hplace : findPlace m.pool (m.pool p).base (maxnumPool + 1) f = .ok c :=
    findPlace_eq h.freeLinked hf hl hr h.length_lt c rfl
  obtain ⟨hp, hnd⟩ := List.nodup_cons.mp h.nodes.nodup
  have hndf : (l ++ p :: c :: r).Nodup := by
    refine List.nodup_middle.mpr (List.nodup_cons.mpr ⟨?_, (List.nodup_append.mp hnd).1⟩)
    exact fun hm => hp (List.mem_append_left al hm)
  obtain ⟨hlinked, hpay, hrest⟩ := link_spec h.freeLinked hndf
  have hhead : (if l.getLast? = none then some p else some f) = (l ++ p :: c :: r).head? := by
    cases l with
    | nil => rfl
    | cons a l =>
      rw [if_neg (by simp)]
      simpa using hf.symm
  have hheap := h.heap hlinked hpay hrest hhead
  have hprev : (m.pool c).prev = l.getLast? := (linked_at h.freeLinked).1
  have hb : ∀ i, (payload _ i) = payload m.pool i := congrFun hpay
  have hdisj : ∀ i ∈ l ++ c :: r, blockEnd m.pool i ≤ (m.pool p).base ∨
      blockEnd m.pool p ≤ (m.pool i).base := by
    intro i hi
    have hip : i ≠ p := ne_of_mem_of_not_mem (List.mem_append_left al hi) hp
    exact h.nodes.disjoint (List.mem_cons_of_mem p (List.mem_append_left al hi)) (by simp) hip
  obtain ⟨m', hm', hwf⟩ := merge_both hheap (sorted_congr (fun i _ => hb i) hs) (by
    intro i hi
    obtain ⟨h1, h2, -⟩ := payload_eq_iff.mp (hb i)
    obtain ⟨h3, -, -⟩ := payload_eq_iff.mp (hb p)
    simp only [blockEnd, h1, h2, h3]
    have := hl i hi
    have := hdisj i (by simp [hi])
    simp only [blockEnd] at this
    omega) (by
    obtain ⟨h1, h2, -⟩ := payload_eq_iff.mp (hb p)
    obtain ⟨h3, -, -⟩ := payload_eq_iff.mp (hb c)
    simp only [blockEnd, h1, h2, h3]
    have := hr c (by simp)
    have := hdisj c (by simp)
    have := h.nodes.pos c (by simp)
    simp only [blockEnd] at *
    omega)
  refine ⟨m', ?_, hwf⟩
  rw [insertNode2Free, h.freeHead, hf]
  simp only [hplace, bind, Except.bind, if_neg (hr c (by simp)), hprev]
  exact hm'

end

theorem findBase_heap (h : Heap m fl al) (addr : Nat) :
    findBase m.pool addr (maxnumPool + 1) m.pAlloc =
      .ok (al.find? (fun i => (m.pool i).base = addr)) := by
  have hle := h.nodes.length_le
  rw [List.length_append] at hle
  rw [h.allocHead]
  exact findBase_eq h.allocLinked (by omega)

theorem detached_of_heap {fl l r : List Ptr} {p : Ptr} {pool' : Pool} (h : Heap m fl (l ++ p :: r))
    (hlinked : Linked pool' (l ++ r)) (hpay : payload pool' = payload m.pool)
    (hrest : ∀ i, i ∉ l ++ r → pool' i = m.pool i) :
    Detached { m with pAlloc := (l ++ r).head?, pool := pool' } fl (l ++ r) p := by
  have hperm : (fl ++ (l ++ p :: r)).Perm (p :: (fl ++ (l ++ r))) := by
    simpa only [List.append_assoc, List.append_nil, List.cons_append] using
      perm_front (fl ++ l) r [] p
  have hdisj := List.nodup_append.mp h.nodes.nodup
  exact
    { freeHead := h.freeHead
      allocHead := rfl
      freeLinked := by
        refine linked_congr h.freeLinked fun i hi => ?_
        have hi' : i ∉ l ++ r := by
          intro hm
          refine hdisj.2.2 i hi i ?_ rfl
          rcases List.mem_append.mp hm with hm | hm <;> simp [hm]
        exact ⟨congrArg Mnode.prev (hrest i hi'), congrArg Mnode.next (hrest i hi')⟩
      allocLinked := hlinked
      nodes := by
        refine Nodes.congr (h.nodes.perm hperm) (fun i _ => congrFun hpay i) ?_
        intro i hi
        exact hrest i (fun hm => hi (by simp_all))
      count := by
        rw [← hperm.length_eq]
        exact h.count
      addressable := h.addressable
      small := h.small }

def AboveFree (m : Memmgr) (fl al : List Ptr) (addr : Nat) : Prop :=
  (∃ i ∈ al, (m.pool i).base = addr) ∧ fl ≠ [] ∧ ∀ i ∈ fl, (m.pool i).base < addr

variable {addr : Nat}

theorem mmgrFree_found {p : Ptr} (h : Heap m fl al)
    (hf : al.find? (fun i => (m.pool i).base = addr) = some p) :
    ∃ l m', mmgrFree addr m = insertNode2Free m' p ∧ Detached m' fl l p ∧
      payload m'.pool = payload m.pool ∧ m'.membase = m.membase := by
  have hp : p ∈ al := List.mem_of_find?_eq_some hf
  have hfind := findBase_heap h addr
  rw [hf] at hfind
  obtain ⟨l, r, rfl⟩ := List.append_of_mem hp
  obtain ⟨pool', hun, hlinked, hpay, hrest⟩ := unlink_spec h.allocLinked
    (List.nodup_append.mp h.nodes.nodup).2.1
  refine ⟨l ++ r, { m with pAlloc := (l ++ r).head?, pool := pool' }, ?_,
    detached_of_heap h hlinked hpay hrest, hpay, rfl⟩
  rw [← h.allocHead] at hun
  simp only [mmgrFree, hfind, bind, Except.bind, hun]

theorem mmgrFree_error (h : Heap m fl al) (ha : AboveFree m fl al addr) :
    mmgrFree addr m = .error .nullDeref := by
  obtain ⟨⟨i, hi, hb⟩, hne, hlt⟩ := ha
  cases hf : al.find? (fun i => (m.pool i).base = addr) with
  | none => exact absurd (List.find?_eq_none.mp hf i hi) (by simp [hb])
  | some p =>
    obtain ⟨l, m', he, hdet, hpay, -⟩ := mmgrFree_found h hf
    have hbase : (m.pool p).base = addr := by simpa using List.find?_some hf
    rw [he]
    refine insertNode2Free_tail hdet hne fun j hj => ?_
    rw [(payload_eq_iff.mp (congrFun hpay j)).1, (payload_eq_iff.mp (congrFun hpay p)).1, hbase]
    exact hlt j hj

theorem mmgrFree_ok (h : Heap m fl al) (hs : Sorted m.pool fl) (ha : ¬ AboveFree m fl al addr) :
    ∃ m', mmgrFree addr m = .ok m' ∧ WellFormed m' := by
  cases hf : al.find? (fun i => (m.pool i).base = addr) with
  | none =>
    refine ⟨m, ?_, fl, al, h, hs⟩
    have hfind := findBase_heap h addr
    rw [hf] at hfind
    simp only [mmgrFree, hfind, bind, Except.bind, pure, Except.pure]
  | some p =>
    obtain ⟨l, m', he, hdet, hpay, -⟩ := mmgrFree_found h hf
    have hbase : (m.pool p).base = addr := by simpa using List.find?_some hf
    have hb : ∀ i, (m'.pool i).base = (m.pool i).base :=
      fun i => (payload_eq_iff.mp (congrFun hpay i)).1
    have hs' : Sorted m'.pool fl := sorted_congr (fun i _ => congrFun hpay i) hs
    rw [he]
    obtain ⟨l', r', rfl, hl', hr'⟩ := sorted_place hs' (m'.pool p).base
    cases r' with
    | nil =>
      cases l' with
      | nil => exact insertNode2Free_empty hdet
      | cons a l' =>
        refine absurd ⟨⟨p, List.mem_of_find?_eq_some hf, hbase⟩, by simp, ?_⟩ ha
        intro i hi
        rw [← hbase, ← hb, ← hb]
        exact hl' i (by simpa using hi)
    | cons c r' => exact insertNode2Free_before hdet hs' hl' hr'

end SynaBoot.MmgrFree
