import SynaBoot.MmgrHeap

namespace SynaBoot.MmgrAlloc

open SynaBoot.Mmgr SynaBoot.MmgrLists SynaBoot.MmgrHeap SynaBoot.DoublyLinked SynaBoot.Tiling

variable {m : Memmgr} {fl al : List Ptr}

theorem allocSize_pos (type : MemType) {size : Nat} (h : 0 < size) : 0 < allocSize type size := by
  cases type <;> simp only [allocSize] <;> split_ifs <;>
    first | exact h | exact Nat.add_pos_right _ (by decide)

def withNew (pool : Pool) (new p : Ptr) (n : Nat) (head : Option Ptr) : Pool :=
  setPrevIf (setNext (setBlock (Function.update pool new { Mnode.zero with isused := .used })
    new (pool p).base n) new head) head (some new)

theorem withNew_of_not_mem (pool : Pool) (p : Ptr) (n : Nat) {new i : Ptr} (hne : i ≠ new)
    (hi : i ∉ al) : withNew pool new p n al.head? i = pool i := by
  have hh : al.head? ≠ some i := fun he => hi (List.mem_of_head? he)
  exact node_ext (by simp [withNew, hne, hh]) (by simp [withNew, hne]) (by simp [withNew, hne])

theorem payload_withNew_self (pool : Pool) (new p : Ptr) (n : Nat) (head : Option Ptr) :
    payload (withNew pool new p n head) new = ((pool p).base, n, .used) := by
  simp [withNew]

theorem payload_withNew_of_ne (pool : Pool) (p : Ptr) (n : Nat) (head : Option Ptr) {new i : Ptr}
    (hne : i ≠ new) : payload (withNew pool new p n head) i = payload pool i := by
  simp [withNew, hne]

theorem linked_withNew {pool : Pool} {new : Ptr} (p : Ptr) (n : Nat) (h : Linked pool al)
    (hnd : (new :: al).Nodup) : Linked (withNew pool new p n al.head?) (new :: al) := by
  have hnew : new ∉ al := (List.nodup_cons.mp hnd).1
  have hh : al.head? ≠ some new := fun he => hnew (List.mem_of_head? he)
  refine segment_link (l := []) h hnd ?_ ?_ ?_ ?_
  · intro x hx
    simp [withNew, ne_of_mem_of_not_mem hx hnew]
  · intro x hx
    simp [withNew, ne_of_mem_of_not_mem hx hnew]
  · simp [withNew]
  · simp [withNew, hh, Mnode.zero]

section

variable {l₁ l₂ : List Ptr} {new p : Ptr}

theorem fresh_ne (hnew : new ∉ l₁ ++ p :: l₂ ++ al) {i : Ptr} (hi : i ∈ l₁ ++ p :: l₂ ++ al) :
    i ≠ new := ne_of_mem_of_not_mem hi hnew

theorem freeLinked_withNew (h : Heap m (l₁ ++ p :: l₂) al) (hnew : new ∉ l₁ ++ p :: l₂ ++ al)
    (n : Nat) : Linked (withNew m.pool new p n al.head?) (l₁ ++ p :: l₂) := by
  have hdisj := (List.nodup_append.mp h.nodes.nodup).2.2
  refine linked_congr h.freeLinked fun i hi => ?_
  have he := withNew_of_not_mem m.pool p n (fresh_ne hnew (List.mem_append_left al hi))
    (fun ha => hdisj i hi i ha rfl)
  exact ⟨congrArg Mnode.prev he, congrArg Mnode.next he⟩

theorem allocLinked_withNew (h : Heap m (l₁ ++ p :: l₂) al) (hnew : new ∉ l₁ ++ p :: l₂ ++ al)
    (n : Nat) : Linked (withNew m.pool new p n al.head?) (new :: al) := by
  have hna : new ∉ al := fun ha => hnew (List.mem_append_right _ ha)
  refine linked_withNew p n h.allocLinked (List.nodup_cons.mpr ⟨hna, ?_⟩)
  exact (List.nodup_append.mp h.nodes.nodup).2.1

theorem heap_split {n : Nat} (h : Heap m (l₁ ++ p :: l₂) al) (hnew : new ∉ l₁ ++ p :: l₂ ++ al)
    (hn : 0 < n) (hlt : n < (m.pool p).size) :
    Heap { m with
      num := m.num + 1
      pAlloc := some new
      pool := setBlock (withNew m.pool new p n al.head?) p ((m.pool p).base + n)
        ((m.pool p).size - n) } (l₁ ++ p :: l₂) (new :: al) := by
  have hpn : p ≠ new := fresh_ne hnew (by simp)
  have hnodes := h.nodes.perm (perm_front l₁ l₂ al p)
  have hused : (payload m.pool p).2.2 = .used := (h.nodes.used p).mpr (by simp)
  exact
    { freeHead := h.freeHead
      allocHead := rfl
      freeLinked := linked_congr (freeLinked_withNew h hnew n) (fun i _ => by simp)
      allocLinked := linked_congr (allocLinked_withNew h hnew n) (fun i _ => by simp)
      nodes := by
        refine Nodes.perm (l := new :: p :: (l₁ ++ l₂ ++ al)) ?_ ?_
        · refine hnodes.split ?_ hn hlt ?_ ?_ ?_ ?_
          · exact fun hm => hnew ((perm_front l₁ l₂ al p).mem_iff.mpr hm)
          · simp [payload_withNew_of_ne m.pool p n _ hpn, hused]
          · simp [payload_withNew_self, hpn.symm]
          · intro i hi
            have hip : i ≠ p := ne_of_mem_of_not_mem hi (List.nodup_cons.mp hnodes.nodup).1
            have hin : i ≠ new :=
              fresh_ne hnew ((perm_front l₁ l₂ al p).mem_iff.mpr (List.mem_cons_of_mem p hi))
            simp [hip, payload_withNew_of_ne m.pool p n _ hin]
          · intro i hi
            simp only [List.mem_cons, not_or, List.mem_append] at hi
            exact (setBlock_of_ne _ _ _ hi.2.1).trans
              (withNew_of_not_mem m.pool p n hi.1 hi.2.2.2)
        · exact ((perm_front l₁ l₂ al p).symm.cons new).trans List.perm_middle.symm
      count := by
        simp only [h.count, List.length_append, List.length_cons]
        omega
      addressable := h.addressable
      small := h.small }

theorem heap_exact (h : Heap m (l₁ ++ p :: l₂) al) (hnew : new ∉ l₁ ++ p :: l₂ ++ al)
    {pool' : Pool} (hlinked : Linked pool' (l₁ ++ l₂))
    (hpay : payload pool' = payload (withNew m.pool new p (m.pool p).size al.head?))
    (hrest : ∀ i, i ∉ l₁ ++ l₂ → pool' i = withNew m.pool new p (m.pool p).size al.head? i) :
    Heap { m with
      pFree := (l₁ ++ l₂).head?
      pAlloc := some new
      pool := Function.update pool' p Mnode.zero } (l₁ ++ l₂) (new :: al) := by
  have hpn : p ≠ new := fresh_ne hnew (by simp)
  have hnodes := h.nodes.perm (perm_front l₁ l₂ al p)
  have hp : p ∉ l₁ ++ l₂ ++ al := (List.nodup_cons.mp hnodes.nodup).1
  have hnew' : new ∉ p :: (l₁ ++ l₂ ++ al) :=
    fun hm => hnew ((perm_front l₁ l₂ al p).mem_iff.mpr hm)
  exact
    { freeHead := rfl
      allocHead := rfl
      freeLinked := by
        refine linked_congr hlinked fun i hi => ?_
        have hip : i ≠ p := ne_of_mem_of_not_mem (List.mem_append_left al hi) hp
        simp [hip]
      allocLinked := by
        refine linked_congr (allocLinked_withNew h hnew (m.pool p).size) fun i hi => ?_
        have hip : i ≠ p := by
          rcases List.mem_cons.mp hi with rfl | hi
          · exact hpn.symm
          · exact ne_of_mem_of_not_mem (List.mem_append_right _ hi) hp
        have hif : i ∉ l₁ ++ l₂ := by
          rcases List.mem_cons.mp hi with rfl | hi
          · exact fun hm => hnew' (by simp_all)
          · have hnd := (List.nodup_cons.mp hnodes.nodup).2
            exact fun hm => (List.nodup_append.mp hnd).2.2 i hm i hi rfl
        simp [hip, prv, nxt, hrest i hif]
      nodes := by
        refine Nodes.perm (l := new :: (l₁ ++ l₂ ++ al)) ?_ List.perm_middle.symm
        refine hnodes.move hnew' ?_ ?_ ?_ ?_
        · simp [hpay, payload_withNew_self, hpn.symm]
        · simp
        · intro i hi
          have hip : i ≠ p := ne_of_mem_of_not_mem hi hp
          have hin : i ≠ new := ne_of_mem_of_not_mem (List.mem_cons_of_mem p hi) hnew'
          simp [hip, hpay, payload_withNew_of_ne m.pool p _ _ hin]
        · intro i hi
          simp only [List.mem_cons, not_or, List.mem_append] at hi
          have hif : i ∉ l₁ ++ l₂ := by simp [hi]
          exact (Function.update_of_ne hi.2.1 _ _).trans ((hrest i hif).trans
            (withNew_of_not_mem m.pool p _ hi.1 hi.2.2.2))
      count := by
        simp only [h.count, List.length_append, List.length_cons]
        omega
      addressable := h.addressable
      small := h.small }

theorem sorted_split {n : Nat} (h : Heap m (l₁ ++ p :: l₂) al)
    (hs : Sorted m.pool (l₁ ++ p :: l₂)) (hnew : new ∉ l₁ ++ p :: l₂ ++ al)
    (hlt : n < (m.pool p).size) :
    Sorted (setBlock (withNew m.pool new p n al.head?) p ((m.pool p).base + n)
      ((m.pool p).size - n)) (l₁ ++ p :: l₂) := by
  have hend : ∀ i ∈ l₁ ++ p :: l₂, ∀ b s u, payload (setBlock (withNew m.pool new p n al.head?) p
      ((m.pool p).base + n) ((m.pool p).size - n)) i = (b, s, u) →
      b + s = (m.pool i).base + (m.pool i).size ∧ (m.pool i).base ≤ b := by
    intro i hi b s u he
    have hin : i ≠ new := fresh_ne hnew (List.mem_append_left al hi)
    rw [payload_setBlock] at he
    split at he
    · next hip =>
      subst hip
      simp only [Prod.mk.injEq] at he
      omega
    · rw [payload_withNew_of_ne m.pool p n _ hin] at he
      simp only [payload, Prod.mk.injEq] at he
      omega
  refine List.Pairwise.imp_of_mem ?_ hs
  intro i j hi hj hij
  have h1 := hend i hi _ _ _ rfl
  have h2 := hend j hj _ _ _ rfl
  omega

theorem findFit_heap (h : Heap m fl al) (n : Nat) :
    findFit m.pool n (maxnumPool + 1) m.pFree = .ok (fl.find? (fun i => n ≤ (m.pool i).size)) := by
  have hle := h.nodes.length_le
  rw [List.length_append] at hle
  rw [h.freeHead]
  exact findFit_eq h.freeLinked (by omega)

def leftover (base size n : Nat) : List Block :=
  if size = n then [] else [(base + n, size - n)]

structure Carved (m m' : Memmgr) (l₁ l₂ al : List Ptr) (p : Ptr) (n : Nat) : Prop where
  heap : ∃ fl new, Heap m' fl (new :: al) ∧ Sorted m'.pool fl ∧
    fl.map (block m'.pool) = l₁.map (block m.pool) ++
      (leftover (m.pool p).base (m.pool p).size n ++ l₂.map (block m.pool)) ∧
    block m'.pool new = ((m.pool p).base, n) ∧ m'.pAlloc = some new
  kept : al.map (block m'.pool) = al.map (block m.pool)
  membase : m'.membase = m.membase

theorem block_congr {pool pool' : Pool} {i : Ptr} (h : payload pool' i = payload pool i) :
    block pool' i = block pool i := by
  obtain ⟨hb, hs, -⟩ := payload_eq_iff.mp h
  rw [block, block, hb, hs]

theorem takeFromFree_spec {n : Nat} (h : Heap m (l₁ ++ p :: l₂) al)
    (hs : Sorted m.pool (l₁ ++ p :: l₂)) (hnew : new ∉ l₁ ++ p :: l₂ ++ al) (hn : 0 < n)
    (hfit : n ≤ (m.pool p).size) :
    ∃ m', takeFromFree { m with
        num := m.num + 1
        pAlloc := some new
        pool := withNew m.pool new p n al.head? } p n = .ok m' ∧ Carved m m' l₁ l₂ al p n := by
  have hpn : p ≠ new := fresh_ne hnew (by simp)
  obtain ⟨hbase, hsz, -⟩ := payload_eq_iff.mp (payload_withNew_of_ne m.pool p n al.head? hpn)
  have hnd := List.nodup_append.mp h.nodes.nodup
  have hpl : p ∉ l₁ ++ l₂ := (List.nodup_cons.mp (List.nodup_middle.mp hnd.1)).1
  have hpa : p ∉ al := fun ha => hnd.2.2 p (by simp) p ha rfl
  have hother : ∀ i ∈ l₁ ++ l₂ ++ al, i ≠ new ∧ i ≠ p := by
    intro i hi
    refine ⟨fresh_ne hnew ?_, ?_⟩
    · exact (perm_front l₁ l₂ al p).mem_iff.mpr (List.mem_cons_of_mem p hi)
    · rcases List.mem_append.mp hi with hi | hi
      · exact ne_of_mem_of_not_mem hi hpl
      · exact ne_of_mem_of_not_mem hi hpa
  by_cases hexact : (m.pool p).size = n
  · subst hexact
    obtain ⟨pool', hun, hlk, hpay, hrest⟩ := unlink_spec
      (freeLinked_withNew h hnew (m.pool p).size) hnd.1
    have hnum : (m.num + 1 + 2 ^ 32 - 1) % 2 ^ 32 = m.num := by
      have hle := h.nodes.length_le
      rw [← h.count] at hle
      simp only [maxnumPool] at hle
      omega
    have hsame : ∀ i ∈ l₁ ++ l₂ ++ al,
        payload (Function.update pool' p Mnode.zero) i = payload m.pool i := by
      intro i hi
      obtain ⟨hin, hip⟩ := hother i hi
      simp [hip, hpay, payload_withNew_of_ne m.pool p _ _ hin]
    have hblocks {l : List Ptr} (hl : ∀ i ∈ l, i ∈ l₁ ++ l₂ ++ al) :
        l.map (block (Function.update pool' p Mnode.zero)) = l.map (block m.pool) :=
      List.map_congr_left fun i hi => block_congr (hsame i (hl i hi))
    refine ⟨{ m with
      pFree := (l₁ ++ l₂).head?
      pAlloc := some new
      pool := Function.update pool' p Mnode.zero }, ?_, ⟨l₁ ++ l₂, new,
      heap_exact h hnew hlk hpay hrest, ?_, ?_, ?_, rfl⟩, hblocks fun i hi => by simp [hi], rfl⟩
    · simp only [takeFromFree, hsz, if_true, h.freeHead, hun, returnNode2Pool, hnum]
      rfl
    · refine sorted_congr (fun i hi => hsame i (List.mem_append_left al hi)) (hs.sublist (by simp))
    · rw [leftover, if_pos rfl, List.nil_append, ← List.map_append]
      exact hblocks fun i hi => List.mem_append_left al hi
    · have hblock : payload (Function.update pool' p Mnode.zero) new =
          ((m.pool p).base, (m.pool p).size, .used) := by
        simp [hpn.symm, hpay, payload_withNew_self]
      simp only [payload, Prod.mk.injEq] at hblock
      simp [block, hblock]
  · have hlt : n < (m.pool p).size := lt_of_le_of_ne hfit (Ne.symm hexact)
    have hwithin := h.nodes.within (i := p) (by simp)
    have hmod : ((m.pool p).base + n) % 2 ^ 64 = (m.pool p).base + n := by
      have haddr := h.addressable
      omega
    have hblocks {l : List Ptr} (hl : ∀ i ∈ l, i ∈ l₁ ++ l₂ ++ al) :
        l.map (block (setBlock (withNew m.pool new p n al.head?) p ((m.pool p).base + n)
          ((m.pool p).size - n))) = l.map (block m.pool) := by
      refine List.map_congr_left fun i hi => block_congr ?_
      obtain ⟨hin, hip⟩ := hother i (hl i hi)
      simp [hip, payload_withNew_of_ne m.pool p n _ hin]
    refine ⟨_, ?_, ⟨_, _, heap_split h hnew hn hlt, sorted_split h hs hnew hlt, ?_, ?_, rfl⟩,
      hblocks fun i hi => by simp [hi], rfl⟩
    · simp only [takeFromFree, hsz, hexact, if_false, hbase, hmod]
      rfl
    · rw [leftover, if_neg hexact, List.map_append, List.map_cons,
        hblocks fun i hi => by simp [hi], hblocks fun i hi => by simp [hi], List.singleton_append]
      simp [block, setBlock]
    · have hblock := payload_withNew_self m.pool new p n al.head?
      simp only [payload, Prod.mk.injEq] at hblock
      simp [block, setBlock, hpn.symm, hblock]

end

theorem addAllocated_eq (h : Heap m fl al) (new p : Ptr) (n : Nat) (hp : p ≠ new) :
    addAllocated { m with
        pool := Function.update m.pool new { Mnode.zero with isused := .used }
        num := m.num + 1 } new p n =
      { m with
        num := m.num + 1
        pAlloc := some new
        pool := withNew m.pool new p n al.head? } := by
  simp [addAllocated, withNew, setNext, h.allocHead, hp]

def OutOfNodes (m : Memmgr) (fl : List Ptr) (type : MemType) (size : Int) : Prop :=
  0 < size ∧ (∀ i, (m.pool i).isused = .used) ∧
    ∃ i ∈ fl, allocSize type size.toNat ≤ (m.pool i).size

theorem num_le (h : Heap m fl al) : ¬ maxnumPool < m.num := by
  rw [h.count]
  exact Nat.not_lt.mpr h.nodes.length_le

variable {size : Int} {type : MemType}

theorem mmgrAlloc_error (h : Heap m fl al) (ho : OutOfNodes m fl type size) :
    mmgrAlloc type size m = .error .nullDeref := by
  obtain ⟨hsize, hused, i, hi, hfit⟩ := ho
  have hfind := findFit_heap h (allocSize type size.toNat)
  cases hf : fl.find? (fun i => allocSize type size.toNat ≤ (m.pool i).size) with
  | none => exact absurd (List.find?_eq_none.mp hf i hi) (by simp [hfit])
  | some p =>
    rw [hf] at hfind
    have hvalid := findValidNode_full h (h.nodes.full_iff.mpr hused)
    simp only [mmgrAlloc, not_le.mpr hsize, num_le h, if_false, hfind, hvalid, deref, bind,
      Except.bind]

theorem mmgrAlloc_none (h : Heap m fl al) (hsize : 0 < size)
    (hf : ∀ i ∈ fl, (m.pool i).size < allocSize type size.toNat) :
    mmgrAlloc type size m = .ok (none, m) := by
  have hfind := findFit_heap h (allocSize type size.toNat)
  have hnone : fl.find? (fun i => allocSize type size.toNat ≤ (m.pool i).size) = none :=
    List.find?_eq_none.mpr fun i hi => by simp [hf i hi]
  rw [hnone] at hfind
  simp only [mmgrAlloc, not_le.mpr hsize, num_le h, if_false, hfind, bind, Except.bind, pure,
    Except.pure]

theorem mmgrAlloc_fit {l₁ l₂ : List Ptr} {p : Ptr} (h : Heap m (l₁ ++ p :: l₂) al)
    (hs : Sorted m.pool (l₁ ++ p :: l₂)) (hsize : 0 < size)
    (hroom : (l₁ ++ p :: l₂ ++ al).length ≠ maxnumPool)
    (hlow : ∀ i ∈ l₁, (m.pool i).size < allocSize type size.toNat)
    (hfit : allocSize type size.toNat ≤ (m.pool p).size) :
    ∃ m', mmgrAlloc type size m = .ok (some (m.pool p).base, m') ∧
      Carved m m' l₁ l₂ al p (allocSize type size.toNat) := by
  have hfind := findFit_heap h (allocSize type size.toNat)
  have hsome : (l₁ ++ p :: l₂).find? (fun i => allocSize type size.toNat ≤ (m.pool i).size) =
      some p := by
    rw [List.find?_eq_some_iff_append]
    exact ⟨by simpa using hfit, l₁, l₂, rfl, fun i hi => by simpa using hlow i hi⟩
  rw [hsome] at hfind
  obtain ⟨new, hnew, hvalid⟩ := findValidNode_room h hroom
  have hadd := addAllocated_eq h new p (allocSize type size.toNat) (fresh_ne hnew (by simp))
  obtain ⟨m', htake, hcarved⟩ :=
    takeFromFree_spec h hs hnew (allocSize_pos type (by omega)) hfit
  obtain ⟨fl, new', -, -, -, hblock, halloc⟩ := hcarved.heap
  refine ⟨m', ?_, hcarved⟩
  have hb : (m'.pool new').base = (m.pool p).base := congrArg Prod.fst hblock
  simp only [mmgrAlloc, not_le.mpr hsize, num_le h, if_false, hfind, hvalid, deref, bind,
    Except.bind, hadd, htake, halloc, pure, Except.pure, hb]

theorem mmgrAlloc_cases (h : Heap m fl al) (hs : Sorted m.pool fl) (type : MemType) (size : Int) :
    ((0 < size → ∀ i ∈ fl, (m.pool i).size < allocSize type size.toNat) ∧
        mmgrAlloc type size m = .ok (none, m)) ∨
      (∃ l₁ p l₂ m', fl = l₁ ++ p :: l₂ ∧
        (∀ i ∈ l₁, (m.pool i).size < allocSize type size.toNat) ∧
        allocSize type size.toNat ≤ (m.pool p).size ∧
        mmgrAlloc type size m = .ok (some (m.pool p).base, m') ∧
        Carved m m' l₁ l₂ al p (allocSize type size.toNat)) ∨
      OutOfNodes m fl type size := by
  by_cases hsize : size ≤ 0
  · exact .inl ⟨fun hpos => absurd hsize (not_le.mpr hpos), by simp only [mmgrAlloc, hsize, if_true]⟩
  rw [not_le] at hsize
  cases hf : fl.find? (fun i => allocSize type size.toNat ≤ (m.pool i).size) with
  | none =>
    have hnone : ∀ i ∈ fl, (m.pool i).size < allocSize type size.toNat := by
      simpa using List.find?_eq_none.mp hf
    exact .inl ⟨fun _ => hnone, mmgrAlloc_none h hsize hnone⟩
  | some p =>
    obtain ⟨hfit, l₁, l₂, rfl, hlow⟩ := List.find?_eq_some_iff_append.mp hf
    rw [decide_eq_true_iff] at hfit
    have hlow' : ∀ i ∈ l₁, (m.pool i).size < allocSize type size.toNat :=
      fun i hi => by simpa using hlow i hi
    by_cases hroom : (l₁ ++ p :: l₂ ++ al).length = maxnumPool
    · exact .inr (.inr ⟨hsize, h.nodes.full_iff.mp hroom, p, by simp, hfit⟩)
    · obtain ⟨m', halloc, hcarved⟩ := mmgrAlloc_fit h hs hsize hroom hlow' hfit
      exact .inr (.inl ⟨l₁, p, l₂, m', rfl, hlow', hfit, halloc, hcarved⟩)

theorem mmgrAlloc_ok (h : Heap m fl al) (hs : Sorted m.pool fl) (ho : ¬ OutOfNodes m fl type size) :
    ∃ r m', mmgrAlloc type size m = .ok (r, m') ∧ WellFormed m' := by
  obtain ⟨-, halloc⟩ | ⟨l₁, p, l₂, m', -, -, -, halloc, hcarved⟩ | hout :=
    mmgrAlloc_cases h hs type size
  · exact ⟨none, m, halloc, fl, al, h, hs⟩
  · obtain ⟨fl', new, hheap, hsorted, -⟩ := hcarved.heap
    exact ⟨_, m', halloc, fl', _, hheap, hsorted⟩
  · exact absurd hout ho

end SynaBoot.MmgrAlloc
