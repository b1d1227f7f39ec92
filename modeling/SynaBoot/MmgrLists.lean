import SynaBoot.DoublyLinked
import SynaBoot.Mmgr

namespace SynaBoot.MmgrLists

open SynaBoot.DoublyLinked SynaBoot.Mmgr

def prv (pool : Pool) : Ptr → Option Ptr := fun i => (pool i).prev
def nxt (pool : Pool) : Ptr → Option Ptr := fun i => (pool i).next
def payload (pool : Pool) : Ptr → Nat × Nat × NodeState :=
  fun i => ((pool i).base, (pool i).size, (pool i).isused)

def Linked (pool : Pool) (l : List Ptr) : Prop := Segment (prv pool) (nxt pool) none l none

theorem node_ext {pool pool' : Pool} {i : Ptr} (hp : prv pool' i = prv pool i)
    (hn : nxt pool' i = nxt pool i) (hb : payload pool' i = payload pool i) : pool' i = pool i := by
  simp only [prv, nxt, payload, Prod.mk.injEq] at hp hn hb
  obtain ⟨h1, h2, h3⟩ := hb
  cases h : pool' i
  cases h' : pool i
  simp_all

@[simp] theorem prv_update (pool : Pool) (i : Ptr) (v : Mnode) (j : Ptr) :
    prv (Function.update pool i v) j = if j = i then v.prev else prv pool j := by
  by_cases h : j = i <;> simp [prv, h]

@[simp] theorem nxt_update (pool : Pool) (i : Ptr) (v : Mnode) (j : Ptr) :
    nxt (Function.update pool i v) j = if j = i then v.next else nxt pool j := by
  by_cases h : j = i <;> simp [nxt, h]

@[simp] theorem payload_update (pool : Pool) (i : Ptr) (v : Mnode) (j : Ptr) :
    payload (Function.update pool i v) j =
      if j = i then (v.base, v.size, v.isused) else payload pool j := by
  by_cases h : j = i <;> simp [payload, h]

@[simp] theorem prv_setPrev (pool : Pool) (i : Ptr) (p : Option Ptr) (j : Ptr) :
    prv (setPrev pool i p) j = if j = i then p else prv pool j := by
  by_cases h : j = i <;> simp [prv, setPrev, h]

@[simp] theorem nxt_setPrev (pool : Pool) (i : Ptr) (p : Option Ptr) (j : Ptr) :
    nxt (setPrev pool i p) j = nxt pool j := by
  by_cases h : j = i <;> simp [nxt, setPrev, h]

@[simp] theorem payload_setPrev (pool : Pool) (i : Ptr) (p : Option Ptr) (j : Ptr) :
    payload (setPrev pool i p) j = payload pool j := by
  by_cases h : j = i <;> simp [payload, setPrev, h]

@[simp] theorem prv_setNext (pool : Pool) (i : Ptr) (p : Option Ptr) (j : Ptr) :
    prv (setNext pool i p) j = prv pool j := by
  by_cases h : j = i <;> simp [prv, setNext, h]

@[simp] theorem nxt_setNext (pool : Pool) (i : Ptr) (p : Option Ptr) (j : Ptr) :
    nxt (setNext pool i p) j = if j = i then p else nxt pool j := by
  by_cases h : j = i <;> simp [nxt, setNext, h]

@[simp] theorem payload_setNext (pool : Pool) (i : Ptr) (p : Option Ptr) (j : Ptr) :
    payload (setNext pool i p) j = payload pool j := by
  by_cases h : j = i <;> simp [payload, setNext, h]

@[simp] theorem prv_setBlock (pool : Pool) (i : Ptr) (b n : Nat) (j : Ptr) :
    prv (setBlock pool i b n) j = prv pool j := by
  by_cases h : j = i <;> simp [prv, setBlock, h]

@[simp] theorem nxt_setBlock (pool : Pool) (i : Ptr) (b n : Nat) (j : Ptr) :
    nxt (setBlock pool i b n) j = nxt pool j := by
  by_cases h : j = i <;> simp [nxt, setBlock, h]

@[simp] theorem payload_setBlock (pool : Pool) (i : Ptr) (b n : Nat) (j : Ptr) :
    payload (setBlock pool i b n) j =
      if j = i then (b, n, (payload pool i).2.2) else payload pool j := by
  by_cases h : j = i <;> simp [payload, setBlock, h]

theorem setBlock_of_ne {i j : Ptr} (pool : Pool) (b n : Nat) (h : j ≠ i) :
    setBlock pool i b n j = pool j := Function.update_of_ne h _ _

@[simp] theorem prv_setPrevIf (pool : Pool) (q p : Option Ptr) (j : Ptr) :
    prv (setPrevIf pool q p) j = if q = some j then p else prv pool j := by
  cases q with
  | none => simp [setPrevIf]
  | some i => simp [setPrevIf, eq_comm]

@[simp] theorem nxt_setPrevIf (pool : Pool) (q p : Option Ptr) (j : Ptr) :
    nxt (setPrevIf pool q p) j = nxt pool j := by
  cases q <;> simp [setPrevIf]

@[simp] theorem payload_setPrevIf (pool : Pool) (q p : Option Ptr) (j : Ptr) :
    payload (setPrevIf pool q p) j = payload pool j := by
  cases q <;> simp [setPrevIf]

@[simp] theorem prv_setNextIf (pool : Pool) (q p : Option Ptr) (j : Ptr) :
    prv (setNextIf pool q p) j = prv pool j := by
  cases q <;> simp [setNextIf]

@[simp] theorem nxt_setNextIf (pool : Pool) (q p : Option Ptr) (j : Ptr) :
    nxt (setNextIf pool q p) j = if q = some j then p else nxt pool j := by
  cases q with
  | none => simp [setNextIf]
  | some i => simp [setNextIf, eq_comm]

@[simp] theorem payload_setNextIf (pool : Pool) (q p : Option Ptr) (j : Ptr) :
    payload (setNextIf pool q p) j = payload pool j := by
  cases q <;> simp [setNextIf]

theorem linked_congr {pool pool' : Pool} {l : List Ptr} (h : Linked pool l)
    (hl : ∀ i ∈ l, prv pool' i = prv pool i ∧ nxt pool' i = nxt pool i) : Linked pool' l :=
  segment_congr (fun i hi => (hl i hi).1) (fun i hi => (hl i hi).2) none none h

variable {l m : List Ptr} {pool : Pool} {p : Option Ptr}

theorem linked_at {a : Ptr} (h : Linked pool (l ++ a :: m)) :
    (pool a).prev = l.getLast? ∧ (pool a).next = m.head? := by
  simpa [prv, nxt] using segment_at h

theorem walk_eq {test : Ptr → Prop} [DecidablePred test]
    {walk : Nat → Option Ptr → Except Fault (Option Ptr)}
    (hnone : ∀ fuel, walk fuel none = .ok none)
    (hsome : ∀ fuel i, walk (fuel + 1) (some i) =
      if test i then .ok (some i) else walk fuel (pool i).next) {fuel : Nat} {l : List Ptr}
    (h : Segment (prv pool) (nxt pool) p l none) (hf : l.length < fuel) :
    walk fuel l.head? = .ok (l.find? (test ·)) := by
  induction l generalizing p fuel with
  | nil => exact hnone fuel
  | cons a l ih =>
    cases fuel with
    | zero => simp at hf
    | succ fuel =>
      obtain ⟨-, hn, ht⟩ := h
      have hr : walk fuel l.head? = _ := ih ht (by simpa using hf)
      have hna : (pool a).next = l.head? := by simpa [nxt] using hn
      rw [List.head?_cons, hsome, hna, hr, List.find?_cons]
      by_cases hs : test a <;> simp [hs]

theorem findFit_eq {n fuel : Nat} {l : List Ptr} (h : Segment (prv pool) (nxt pool) p l none)
    (hf : l.length < fuel) :
    findFit pool n fuel l.head? = .ok (l.find? (fun i => n ≤ (pool i).size)) :=
  walk_eq (fun fuel => by cases fuel <;> rfl) (fun _ _ => rfl) h hf

theorem findBase_eq {addr fuel : Nat} {l : List Ptr} (h : Segment (prv pool) (nxt pool) p l none)
    (hf : l.length < fuel) :
    findBase pool addr fuel l.head? = .ok (l.find? (fun i => (pool i).base = addr)) :=
  walk_eq (fun fuel => by cases fuel <;> rfl) (fun _ _ => rfl) h hf

theorem findPlace_eq {b fuel : Nat} {h : Ptr} (hs : Segment (prv pool) (nxt pool) p (l ++ m) none)
    (hh : (l ++ m).head? = some h) (hl : ∀ i ∈ l, (pool i).base < b)
    (hm : ∀ i ∈ m, ¬ (pool i).base < b) (hf : (l ++ m).length < fuel) (c : Ptr)
    (hc : m.head?.or l.getLast? = some c) : findPlace pool b fuel h = .ok c := by
  induction l generalizing p h fuel with
  | nil =>
    cases fuel with
    | zero => simp at hf
    | succ fuel =>
      cases m with
      | nil => simp at hh
      | cons a m =>
        simp only [List.nil_append, List.head?_cons, Option.some.injEq, Option.some_or] at hh hc
        subst hh hc
        simp [findPlace, hm a (by simp)]
  | cons a l ih =>
    cases fuel with
    | zero => simp at hf
    | succ fuel =>
      simp only [List.cons_append, List.head?_cons, Option.some.injEq] at hh
      subst hh
      obtain ⟨-, hn, ht⟩ := hs
      have hna : (pool a).next = (l ++ m).head? := by simpa [nxt] using hn
      have hla := hl a (by simp)
      cases hlm : (l ++ m).head? with
      | none =>
        obtain ⟨rfl, rfl⟩ : l = [] ∧ m = [] := by simpa using hlm
        simp only [List.head?_nil, List.getLast?_singleton, Option.none_or, Option.some.injEq] at hc
        subst hc
        simp [findPlace, hla, hna]
      | some q =>
        have hc' : m.head?.or l.getLast? = some c := by
          cases m with
          | cons d m => simpa using hc
          | nil =>
            cases l with
            | nil => simp at hlm
            | cons e l => simpa [List.getLast?_cons_cons] using hc
        have hr : findPlace pool b fuel q = .ok c :=
          ih ht hlm (fun i hi => hl i (by simp [hi])) (by simpa using hf) hc'
        simp [findPlace, hla, hna, hlm, hr]

theorem unlink_spec {p : Ptr} (h : Linked pool (l ++ p :: m)) (hnd : (l ++ p :: m).Nodup) :
    ∃ pool', unlink pool (l ++ p :: m).head? p = .ok ((l ++ m).head?, pool') ∧
      Linked pool' (l ++ m) ∧ payload pool' = payload pool ∧
      ∀ i, i ∉ l ++ m → pool' i = pool i := by
  obtain ⟨hp, hn⟩ := linked_at h
  let pool' := setPrevIf (setNextIf pool l.getLast? m.head?) m.head? l.getLast?
  have hplm : p ∉ l ++ m := (List.nodup_cons.mp (List.nodup_middle.mp hnd)).1
  obtain ⟨hpl, hpm⟩ : p ∉ l ∧ p ∉ m := by simpa using hplm
  have hpay : payload pool' = payload pool := by
    funext j
    simp [pool']
  have hrest : ∀ i, i ∉ l ++ m → pool' i = pool i := by
    intro i hi
    have h1 : m.head? ≠ some i := fun he => hi (by simp [List.mem_of_head? he])
    have h2 : l.getLast? ≠ some i := fun he => hi (by simp [List.mem_of_getLast? he])
    exact node_ext (by simp [pool', h1]) (by simp [pool', h2]) (congrFun hpay i)
  have hlink : Linked pool' (l ++ m) := by
    refine segment_unlink h hnd ?_ ?_
    · intro x _
      simp [pool']
    · intro x _
      simp [pool']
  refine ⟨pool', ?_, hlink, hpay, hrest⟩
  cases l with
  | nil =>
    cases m with
    | nil =>
      simp only [List.getLast?_nil, List.head?_nil] at hp hn
      simp [unlink, hp, hn, pool', setPrevIf, setNextIf]
    | cons c m =>
      have hcp : c ≠ p := fun he => hpm (by simp [he])
      simp only [List.getLast?_nil, List.head?_cons] at hp hn
      have hp' : (setPrev pool c none p).prev = none := by
        have := prv_setPrev pool c none p
        simpa [prv, Ne.symm hcp, hp] using this
      have hn' : (setPrev pool c none p).next = some c := by
        have := nxt_setPrev pool c none p
        simpa [nxt, hn] using this
      have hdup : setPrev (setPrev pool c none) c none = setPrev pool c none := by
        simp [setPrev]
      simp [unlink, hp, hn, hp', hn', deref, pool', setPrevIf, setNextIf, hdup, pure, Except.pure, bind,
        Except.bind]
  | cons d l =>
    have hne : (d :: l).head? ≠ some p := fun he => hpl (List.mem_of_head? he)
    have hdp : d ≠ p := fun he => hpl (by simp [he])
    obtain ⟨e, he⟩ : ∃ e, (d :: l).getLast? = some e := by
      cases hl : (d :: l).getLast? with
      | none => simp at hl
      | some e => exact ⟨e, rfl⟩
    have hep : e ≠ p := fun h => hpl (h ▸ List.mem_of_getLast? he)
    have hp' : (setNext pool e m.head? p).prev = (d :: l).getLast? := by
      have := prv_setNext pool e m.head? p
      simpa [prv, hp] using this
    have hn' : (setNext pool e m.head? p).next = m.head? := by
      have := nxt_setNext pool e m.head? p
      simpa [nxt, Ne.symm hep, hn] using this
    rw [he] at hp hp'
    simp [unlink, hp, hn, hp', hn', he, hdp, pool', setNextIf, pure, Except.pure, bind, Except.bind]

theorem link_spec {p c : Ptr} (h : Linked pool (l ++ c :: m)) (hnd : (l ++ p :: c :: m).Nodup) :
    let pool' := setPrev (setNext (setNextIf (setPrev pool p l.getLast?) l.getLast? (some p))
      p (some c)) c (some p)
    Linked pool' (l ++ p :: c :: m) ∧ payload pool' = payload pool ∧
      ∀ i, i ∉ l ++ p :: c :: m → pool' i = pool i := by
  intro pool'
  have hp : p ∉ l ++ c :: m := (List.nodup_cons.mp (List.nodup_middle.mp hnd)).1
  have hpc : p ≠ c := fun he => hp (by simp [he])
  have hpay : payload pool' = payload pool := by
    funext j
    simp [pool']
  refine ⟨?_, hpay, ?_⟩
  · refine segment_link h hnd ?_ ?_ ?_ ?_
    · intro x hx
      have hxp : x ≠ p := ne_of_mem_of_not_mem hx hp
      simp [pool', hxp]
    · intro x hx
      have hxp : x ≠ p := ne_of_mem_of_not_mem hx hp
      simp [pool', hxp, eq_comm]
    · simp [pool']
    · simp [pool', hpc]
  · intro i hi
    simp only [List.mem_append, List.mem_cons, not_or] at hi
    have hil : l.getLast? ≠ some i := fun he => hi.1 (List.mem_of_getLast? he)
    exact node_ext (by simp [pool', hi]) (by simp [pool', hi, hil]) (congrFun hpay i)

end SynaBoot.MmgrLists
