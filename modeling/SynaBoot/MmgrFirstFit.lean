import SynaBoot.MmgrRuns

namespace SynaBoot.MmgrFirstFit

open SynaBoot.Mmgr SynaBoot.MmgrLists SynaBoot.MmgrHeap SynaBoot.MmgrAlloc SynaBoot.MmgrFree
open SynaBoot.MmgrRuns SynaBoot.Tiling

def granule : MemType → Nat
  | .common => 64
  | .ionCacheable | .ionNoncacheable => 4096

def rounded (type : MemType) (size : Nat) : Nat :=
  (size + granule type - 1) / granule type * granule type

def freeBlocks (m : Memmgr) : List Block := (freeNodes m).map (block m.pool)
def allocBlocks (m : Memmgr) : List Block := (allocNodes m).map (block m.pool)

theorem round_mask (size k : Nat) :
    (if size &&& (2 ^ k - 1) ≠ 0 then size - (size &&& (2 ^ k - 1)) + 2 ^ k else size) =
      (size + 2 ^ k - 1) / 2 ^ k * 2 ^ k := by
  have hpos : 0 < 2 ^ k := Nat.two_pow_pos k
  have hdiv := Nat.div_add_mod size (2 ^ k)
  have hlt := Nat.mod_lt size hpos
  rw [Nat.and_two_pow_sub_one_eq_mod]
  generalize 2 ^ k = g at *
  rw [mul_comm] at hdiv
  split
  case isTrue hne =>
    have hq : (size + g - 1) / g = size / g + 1 := by
      refine Nat.div_eq_of_lt_le ?_ ?_
      · rw [Nat.add_mul, Nat.one_mul]
        omega
      · rw [Nat.add_mul, Nat.add_mul, Nat.one_mul]
        omega
    rw [hq, Nat.add_mul, Nat.one_mul]
    omega
  case isFalse heq =>
    have hq : (size + g - 1) / g = size / g := by
      refine Nat.div_eq_of_lt_le ?_ ?_
      · omega
      · rw [Nat.add_mul, Nat.one_mul]
        omega
    rw [hq]
    omega

theorem allocSize_eq (type : MemType) (size : Nat) : allocSize type size = rounded type size := by
  cases type with
  | common => exact round_mask size 6
  | ionCacheable => exact round_mask size 12
  | ionNoncacheable => exact round_mask size 12

theorem granule_dvd_rounded (type : MemType) (size : Nat) : granule type ∣ rounded type size :=
  Nat.dvd_mul_left _ _

def Kept (pool pool' : Pool) : Prop :=
  ∀ i, (pool' i).isused = .used → (pool i).isused = .used ∧ (pool' i).base = (pool i).base

theorem Kept.refl (pool : Pool) : Kept pool pool := fun _ hi => ⟨hi, rfl⟩

theorem Kept.trans {pool₁ pool₂ pool₃ : Pool} (h : Kept pool₁ pool₂) (h' : Kept pool₂ pool₃) :
    Kept pool₁ pool₃ := by
  intro i hi
  obtain ⟨h₂, hb₂⟩ := h' i hi
  obtain ⟨h₁, hb₁⟩ := h i h₂
  exact ⟨h₁, hb₂.trans hb₁⟩

theorem kept_of_payload {pool pool' : Pool} (h : ∀ i, payload pool' i = payload pool i) :
    Kept pool pool' := by
  intro i hi
  obtain ⟨hb, -, hu⟩ := payload_eq_iff.mp (h i)
  exact ⟨hu.symm.trans hi, hb⟩

theorem kept_clear (pool : Pool) (i : Ptr) : Kept pool (Function.update pool i Mnode.zero) := by
  intro j hj
  by_cases hji : j = i
  · subst hji
    rw [Function.update_self] at hj
    cases hj
  · rw [Function.update_of_ne hji] at hj ⊢
    exact ⟨hj, rfl⟩

theorem kept_resize (pool : Pool) (i : Ptr) (n : Nat) :
    Kept pool (setBlock pool i (pool i).base n) := by
  intro j hj
  by_cases hji : j = i
  · subst hji
    rw [setBlock, Function.update_self] at hj ⊢
    exact ⟨hj, rfl⟩
  · rw [setBlock_of_ne pool _ _ hji] at hj ⊢
    exact ⟨hj, rfl⟩

theorem returnNode2Pool_kept (m : Memmgr) (i : Ptr) :
    Kept m.pool (returnNode2Pool m i).pool ∧ (returnNode2Pool m i).membase = m.membase := by
  unfold returnNode2Pool
  dsimp only
  exact ⟨kept_clear m.pool i, rfl⟩

variable {m m' : Memmgr} {p : Ptr}

theorem checkPrevnodeAndMerge_kept {p : Option Ptr} {q : Ptr}
    (h : checkPrevnodeAndMerge m p = .ok (q, m')) :
    Kept m.pool m'.pool ∧ m'.membase = m.membase := by
  cases p with
  | none => cases h
  | some p =>
    simp only [checkPrevnodeAndMerge, deref, bind, Except.bind] at h
    split at h
    case h_1 q' hq =>
      split at h
      · obtain ⟨-, rfl⟩ := Prod.mk.inj (Except.ok.inj h)
        obtain ⟨hk, hb⟩ := returnNode2Pool_kept { m with pool := _ } p
        refine ⟨Kept.trans ?_ hk, hb⟩
        have hsize := kept_resize m.pool q' (((m.pool q').size + (m.pool p).size) % 2 ^ 32)
        exact hsize.trans (kept_of_payload fun i => by simp)
      · cases h
        exact ⟨Kept.refl _, rfl⟩
    case h_2 =>
      cases h
      exact ⟨Kept.refl _, rfl⟩

theorem bind_ok {α β : Type} {x : Except Fault α} {f : α → Except Fault β} {b : β}
    (h : x.bind f = .ok b) : ∃ a, x = .ok a ∧ f a = .ok b := by
  cases x with
  | error e => cases h
  | ok a => exact ⟨a, rfl, h⟩

theorem insertNode2Free_kept (h : insertNode2Free m p = .ok m') :
    Kept m.pool m'.pool ∧ m'.membase = m.membase := by
  unfold insertNode2Free at h
  split at h
  · cases h
    exact ⟨kept_of_payload fun i => by simp, rfl⟩
  · obtain ⟨pf, -, h⟩ := bind_ok h
    dsimp only at h
    obtain ⟨⟨q, m₂⟩, h₂, h⟩ := bind_ok h
    obtain ⟨⟨q', m₃⟩, h₃, h⟩ := bind_ok h
    cases h
    obtain ⟨hk₂, hb₂⟩ := checkPrevnodeAndMerge_kept h₂
    obtain ⟨hk₃, hb₃⟩ := checkPrevnodeAndMerge_kept h₃
    refine ⟨?_, ?_⟩
    · refine Kept.trans (Kept.trans (kept_of_payload fun i => ?_) hk₂) hk₃
      split <;> simp
    · rw [hb₃, hb₂]
      split <;> rfl

theorem mmgrFree_kept {fl al : List Ptr} (hheap : Heap m fl al) {addr : Nat}
    (h : mmgrFree addr m = .ok m') : Kept m.pool m'.pool ∧ m'.membase = m.membase := by
  cases hf : al.find? (fun i => (m.pool i).base = addr) with
  | none =>
    have hfind := findBase_heap hheap addr
    rw [hf] at hfind
    have heq : mmgrFree addr m = .ok m := by
      simp only [mmgrFree, hfind, bind, Except.bind, pure, Except.pure]
    obtain rfl := Except.ok.inj (heq.symm.trans h)
    exact ⟨Kept.refl _, rfl⟩
  | some p =>
    obtain ⟨l, m₁, heq, -, hpay, hbase⟩ := mmgrFree_found hheap hf
    obtain ⟨hk, hb⟩ := insertNode2Free_kept (heq.symm.trans h)
    exact ⟨(kept_of_payload (congrFun hpay)).trans hk, hb.trans hbase⟩

structure Based (type : MemType) (m : Memmgr) : Prop where
  membase : reserveMemSize ≤ m.membase
  nodes : ∀ i, (m.pool i).isused = .used → (m.pool i).base ≡ m.membase [MOD granule type]

variable {type : MemType}

theorem Based.kept (h : Based type m) (hk : Kept m.pool m'.pool) (hb : m'.membase = m.membase) :
    Based type m' := by
  refine ⟨hb ▸ h.membase, fun i hi => ?_⟩
  obtain ⟨hu, hbase⟩ := hk i hi
  rw [hbase, hb]
  exact h.nodes i hu

theorem Based.carved {l₁ l₂ al : List Ptr} {n : Nat} (h : Based type m)
    (hheap : Heap m (l₁ ++ p :: l₂) al) (hn : granule type ∣ n) (hc : Carved m m' l₁ l₂ al p n) :
    Based type m' := by
  obtain ⟨fl, new, hheap', -, hfree, hblock, -⟩ := hc.heap
  have hold : ∀ i ∈ l₁ ++ p :: l₂ ++ al, (m.pool i).base ≡ m.membase [MOD granule type] :=
    fun i hi => h.nodes i ((hheap.nodes.used i).mpr hi)
  have hp := hold p (by simp)
  have hpn : (m.pool p).base + n ≡ m.membase [MOD granule type] := by
    have hz : n ≡ 0 [MOD granule type] := (Nat.modEq_zero_iff_dvd).mpr hn
    exact hp.add hz
  refine ⟨hc.membase ▸ h.membase, fun i hi => ?_⟩
  rw [hc.membase]
  have hmem : block m'.pool i ∈ (fl ++ new :: al).map (block m'.pool) :=
    List.mem_map_of_mem ((hheap'.nodes.used i).mp hi)
  have hblocks : ∀ b ∈ (fl ++ new :: al).map (block m'.pool), b.1 ≡ m.membase [MOD granule type] := by
    rw [List.map_append, List.map_cons, hfree, hblock, hc.kept, leftover]
    intro b hb
    simp only [List.mem_append, List.mem_cons, List.mem_map] at hb
    obtain (⟨j, hj, rfl⟩ | hb | ⟨j, hj, rfl⟩) | rfl | ⟨j, hj, rfl⟩ := hb
    · exact hold j (by simp [hj])
    · split at hb
      · cases hb
      · rw [List.mem_singleton.mp hb]
        exact hpn
    · exact hold j (by simp [hj])
    · exact hp
    · exact hold j (by simp [hj])
  exact hblocks _ hmem

def AllBased (g : Managers) : Prop := ∀ type m, g type = some m → Based type m

theorem allBased_update {g : Managers} {m : Memmgr} (hg : AllBased g) (hm : Based type m) :
    AllBased (Function.update g type (some m)) :=
  forall_update hg hm

theorem based_fresh (type : MemType) (mstart size : Nat) : Based type (fresh mstart size) := by
  refine ⟨Nat.le_add_left _ _, fun i hi => ?_⟩
  unfold fresh at hi ⊢
  dsimp only at hi ⊢
  by_cases hi0 : i = firstNode
  · subst hi0
    rw [Function.update_self]
  · rw [Function.update_of_ne hi0] at hi
    cases hi

theorem based_alloc {size : Int} {r : Option Nat} (hwf : WellFormed m) (hb : Based type m)
    (h : mmgrAlloc type size m = .ok (r, m')) : Based type m' := by
  obtain ⟨fl, al, hheap, hsorted⟩ := hwf
  obtain ⟨-, heq⟩ | ⟨l₁, p, l₂, m₁, rfl, -, -, heq, hcarved⟩ | hout :=
    mmgrAlloc_cases hheap hsorted type size
  · obtain ⟨-, rfl⟩ := Prod.mk.inj (Except.ok.inj (h.symm.trans heq))
    exact hb
  · obtain ⟨-, rfl⟩ := Prod.mk.inj (Except.ok.inj (h.symm.trans heq))
    refine hb.carved hheap ?_ hcarved
    rw [allocSize_eq]
    exact granule_dvd_rounded type _
  · have herr := mmgrAlloc_error hheap hout
    rw [h] at herr
    cases herr

theorem step_based {g g' : Managers} {c : Call} (hg : AllWellFormed g) (hb : AllBased g)
    (hc : Admissible c) (h : step g c = .ok g') : AllBased g' := by
  cases c with
  | init type mstart size =>
    cases ht : g type with
    | some m =>
      rw [step, ht] at h
      exact Except.ok.inj h ▸ hb
    | none =>
      rw [step, ht] at h
      obtain ⟨m, hm, h⟩ := bind_ok h
      obtain rfl := Except.ok.inj ((initMmgr_eq hc).symm.trans hm)
      exact Except.ok.inj h ▸ allBased_update hb (based_fresh type mstart size)
  | alloc type size =>
    cases ht : g type with
    | none =>
      rw [step, ht] at h
      exact Except.ok.inj h ▸ hb
    | some m =>
      rw [step, ht] at h
      obtain ⟨⟨r, m'⟩, hm, h⟩ := bind_ok h
      have hbased := based_alloc (hg type m ht) (hb type m ht) hm
      exact Except.ok.inj h ▸ allBased_update hb hbased
  | free type addr =>
    cases ht : g type with
    | none =>
      rw [step, ht] at h
      exact Except.ok.inj h ▸ hb
    | some m =>
      rw [step, ht] at h
      obtain ⟨m', hm, h⟩ := bind_ok h
      obtain ⟨fl, al, hheap, -⟩ := hg type m ht
      obtain ⟨hk, hbase⟩ := mmgrFree_kept hheap hm
      exact Except.ok.inj h ▸ allBased_update hb ((hb type m ht).kept hk hbase)

theorem run_based {g g' : Managers} {cs : List Call} (hg : AllWellFormed g) (hb : AllBased g)
    (hcs : ∀ c ∈ cs, Admissible c) (h : run g cs = .ok g') : AllWellFormed g' ∧ AllBased g' := by
  induction cs generalizing g with
  | nil =>
    obtain rfl := Except.ok.inj h
    exact ⟨hg, hb⟩
  | cons c cs ih =>
    obtain ⟨g₁, hstep, hrun⟩ := bind_ok h
    rw [List.forall_mem_cons] at hcs
    have hsafe : SafeCall g c := by
      by_contra hn
      have herr := step_error hg hn
      rw [hstep] at herr
      cases herr
    obtain ⟨g₂, hok, hg₂⟩ := step_ok hg hcs.1 hsafe
    obtain rfl := Except.ok.inj (hstep.symm.trans hok)
    exact ih hg₂ (step_based hg hb hcs.1 hstep) hcs.2 hrun

theorem run_start_based {g : Managers} {calls : List Call} (hcalls : ∀ c ∈ calls, Admissible c)
    (hrun : run start calls = .ok g) : AllWellFormed g ∧ AllBased g :=
  run_based allWellFormed_start (fun _ _ h => by cases h) hcalls hrun

def Taken (m m' : Memmgr) (base n : Nat) : Prop :=
  ∃ l₁ l₂ size, n ≤ size ∧ freeBlocks m = l₁ ++ (base, size) :: l₂ ∧
    freeBlocks m' = l₁ ++ (leftover base size n ++ l₂) ∧
    allocBlocks m' = (base, n) :: allocBlocks m

theorem Carved.taken {l₁ l₂ al : List Ptr} {n : Nat} (h : Heap m (l₁ ++ p :: l₂) al)
    (hc : Carved m m' l₁ l₂ al p n) (hn : n ≤ (m.pool p).size) : Taken m m' (m.pool p).base n := by
  obtain ⟨fl, new, hheap, -, hfree, hblock, -⟩ := hc.heap
  refine ⟨l₁.map (block m.pool), l₂.map (block m.pool), (m.pool p).size, hn, ?_, ?_, ?_⟩
  · rw [freeBlocks, freeNodes_eq h, List.map_append, List.map_cons]
    rfl
  · rw [freeBlocks, freeNodes_eq hheap, hfree]
  · rw [allocBlocks, allocNodes_eq hheap, List.map_cons, hblock, hc.kept, allocBlocks,
      allocNodes_eq h]

theorem lowest_fit {m : Memmgr} {l₁ l₂ : List Ptr} {n : Nat} (hs : Sorted m.pool (l₁ ++ p :: l₂))
    (hlow : ∀ i ∈ l₁, (m.pool i).size < n) :
    ∀ i ∈ l₁ ++ p :: l₂, n ≤ (m.pool i).size → (m.pool p).base ≤ (m.pool i).base := by
  intro i hi hfit
  rcases List.mem_append.mp hi with hi | hi
  · exact absurd hfit (not_le.mpr (hlow i hi))
  · rcases List.mem_cons.mp hi with rfl | hi
    · exact le_rfl
    · have hlt := (List.pairwise_cons.mp (List.pairwise_append.mp hs).2.1).1 i hi
      omega

/-- With a node left an allocation fails only if no free block is large enough, and takes the
lowest. -/
theorem alloc_first_fit {calls : List Call} {g : Managers} (hcalls : ∀ c ∈ calls, Admissible c)
    (hrun : run start calls = .ok g) {type : MemType} {m : Memmgr} (hm : g type = some m)
    (hnode : ∃ i, (m.pool i).isused = .free) {size : Int} (hpos : 1 ≤ size)
    (hmax : size ≤ 0x7ffff000) :
    ∃ r m', mmgrAlloc type size m = .ok (r, m') ∧
      (r = none ↔ ∀ b ∈ freeBlocks m, b.2 < rounded type size.toNat) ∧
      (r = none → m' = m) ∧
      ∀ base, r = some base → base ≠ 0 ∧
        (∀ b ∈ freeBlocks m, rounded type size.toNat ≤ b.2 → base ≤ b.1) ∧
        (granule type ∣ m.membase → granule type ∣ base) ∧
        Taken m m' base (rounded type size.toNat) := by
  obtain ⟨hwf, hbased⟩ := run_start_based hcalls hrun
  obtain ⟨fl, al, hheap, hsorted⟩ := hwf type m hm
  have hb := hbased type m hm
  have hblocks : ∀ {P : Block → Prop}, (∀ b ∈ freeBlocks m, P b) ↔ ∀ i ∈ fl, P (block m.pool i) := by
    intro P
    rw [freeBlocks, freeNodes_eq hheap, List.forall_mem_map]
  have hcases := mmgrAlloc_cases hheap hsorted type size
  rw [allocSize_eq] at hcases
  obtain ⟨hnone, heq⟩ | ⟨l₁, p, l₂, m', rfl, hlow, hfit, heq, hcarved⟩ | ⟨-, hused, -⟩ := hcases
  · refine ⟨none, m, heq, ?_, fun _ => rfl, fun base h => by cases h⟩
    rw [hblocks]
    exact ⟨fun _ => hnone (by omega), fun _ => rfl⟩
  · have hp := (hheap.nodes.used p).mpr (by simp)
    have hwithin := hheap.nodes.within (i := p) (by simp)
    refine ⟨_, m', heq, ?_, fun h => (by cases h), ?_⟩
    · rw [hblocks]
      refine ⟨fun h => (by cases h), fun h => ?_⟩
      exact absurd hfit (not_le.mpr (h p (by simp)))
    · intro base h
      obtain rfl := Option.some.inj h
      refine ⟨?_, hblocks.mpr (lowest_fit hsorted hlow), fun hd => ?_, Carved.taken hheap hcarved hfit⟩
      · have hres : reserveMemSize = 8192 := rfl
        have := hb.membase
        omega
      · exact (hb.nodes p hp).dvd_iff dvd_rfl |>.mpr hd
  · obtain ⟨i, hi⟩ := hnode
    rw [hused i] at hi
    cases hi

theorem alloc_first_fit_splitAndMerge : ∃ g m r m', run start splitAndMerge = .ok g ∧
    g .common = some m ∧ mmgrAlloc .common 100 m = .ok (r, m') ∧
      (r = none ↔ ∀ b ∈ freeBlocks m, b.2 < rounded .common 100) := by
  have hcalls : ∀ c ∈ splitAndMerge, Admissible c := by
    simp [splitAndMerge, Admissible, Region, reserveMemSize]
  have hsome : ((run start splitAndMerge).toOption.bind (· .common)).any
      (fun m => decide ((m.pool (Fin.last _)).isused = .free)) = true := by decide +kernel
  cases hrun : run start splitAndMerge with
  | error e => simp [hrun, Except.toOption] at hsome
  | ok g =>
    rw [hrun, Except.toOption, Option.bind_some] at hsome
    cases hm : g .common with
    | none => simp [hm] at hsome
    | some m =>
      simp only [hm, Option.any_some, decide_eq_true_eq] at hsome
      obtain ⟨r, m', halloc, hnone, -⟩ := alloc_first_fit hcalls hrun hm
        ⟨Fin.last _, hsome⟩ (show (1 : Int) ≤ 100 by decide) (by decide)
      exact ⟨g, m, r, m', rfl, hm, halloc, hnone⟩

end SynaBoot.MmgrFirstFit
