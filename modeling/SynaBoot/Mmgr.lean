import Mathlib.Tactic

namespace SynaBoot.Mmgr

def reserveMemSize : Nat := 8 * 1024
def maxnumPool : Nat := 200
def page : Nat := 4096

/-- A pointer to a node of the pool; `NULL` is `none`. -/
abbrev Ptr := Fin maxnumPool

inductive NodeState where
  | free
  | used
  deriving DecidableEq, Repr

/-- The base is an `unsigned long` and the size an `unsigned int`. -/
structure Mnode where
  prev : Option Ptr
  next : Option Ptr
  base : Nat
  size : Nat
  isused : NodeState
  deriving DecidableEq, Repr

def Mnode.zero : Mnode := ⟨none, none, 0, 0, .free⟩

abbrev Pool := Ptr → Mnode

structure Memmgr where
  membase : Nat
  totalsize : Nat
  num : Nat
  pFree : Option Ptr
  pAlloc : Option Ptr
  pool : Pool

inductive MemType where
  | common
  | ionCacheable
  | ionNoncacheable
  deriving DecidableEq, Repr

/-- It follows a `NULL` node pointer, or walks a list that never ends. -/
inductive Fault where
  | nullDeref
  | diverge
  deriving DecidableEq, Repr

def deref (p : Option Ptr) : Except Fault Ptr :=
  match p with
  | some i => .ok i
  | none => .error .nullDeref

def setPrev (pool : Pool) (i : Ptr) (p : Option Ptr) : Pool :=
  Function.update pool i { pool i with prev := p }

def setNext (pool : Pool) (i : Ptr) (p : Option Ptr) : Pool :=
  Function.update pool i { pool i with next := p }

def setBlock (pool : Pool) (i : Ptr) (base size : Nat) : Pool :=
  Function.update pool i { pool i with base := base, size := size }

def setPrevIf (pool : Pool) (q : Option Ptr) (p : Option Ptr) : Pool :=
  match q with
  | some i => setPrev pool i p
  | none => pool

def setNextIf (pool : Pool) (q : Option Ptr) (p : Option Ptr) : Pool :=
  match q with
  | some i => setNext pool i p
  | none => pool

def findValidNodeFromPool (m : Memmgr) : Option Ptr × Memmgr :=
  match (List.finRange maxnumPool).find? (fun i => (m.pool i).isused = .free) with
  | some i =>
    (some i, { m with
      pool := Function.update m.pool i { m.pool i with isused := .used }
      num := (m.num + 1) % 2 ^ 32 })
  | none => (none, m)

def returnNode2Pool (m : Memmgr) (i : Ptr) : Memmgr :=
  { m with pool := Function.update m.pool i Mnode.zero, num := (m.num + 2 ^ 32 - 1) % 2 ^ 32 }

/-- `init_mmgr_by_type` on a region that holds no manager yet. -/
def initMmgr (mstart size : Nat) : Except Fault Memmgr := do
  let m : Memmgr :=
    { membase := (mstart + reserveMemSize) % 2 ^ 64
      totalsize := (size + 2 ^ 32 - reserveMemSize) % 2 ^ 32
      num := 0
      pFree := none
      pAlloc := none
      pool := fun _ => Mnode.zero }
  let (p, m) := findValidNodeFromPool m
  let i ← deref p
  let pool := setBlock m.pool i m.membase m.totalsize
  let pool := setNext (setPrev pool i none) i none
  return { m with pFree := p, pAlloc := none, pool := pool }

/-- 4 KB pages for the ION heaps, 64 bytes for the common heap. -/
def allocSize (type : MemType) (size : Nat) : Nat :=
  match type with
  | .common => if size &&& 0x3f ≠ 0 then (size - (size &&& 0x3f)) + 64 else size
  | .ionCacheable | .ionNoncacheable =>
    if size &&& (page - 1) ≠ 0 then (size - (size &&& (page - 1))) + page else size

/-- The first node that is large enough. -/
def findFit (pool : Pool) (n : Nat) : Nat → Option Ptr → Except Fault (Option Ptr)
  | _, none => .ok none
  | 0, some _ => .error .diverge
  | fuel + 1, some p =>
    if n ≤ (pool p).size then .ok (some p) else findFit pool n fuel (pool p).next

/-- Take a node out of the list that starts at `head`. -/
def unlink (pool : Pool) (head : Option Ptr) (p : Ptr) : Except Fault (Option Ptr × Pool) :=
  if (pool p).prev = none ∧ (pool p).next = none then .ok (none, pool)
  else do
    let (head, pool) ←
      if head = some p then do
        let h ← deref (pool p).next
        pure (some h, setPrev pool h none)
      else pure (head, pool)
    let pool := setNextIf pool (pool p).prev (pool p).next
    let pool := setPrevIf pool (pool p).next (pool p).prev
    return (head, pool)

/-- The new node becomes the head of the allocated list. -/
def addAllocated (m : Memmgr) (new p : Ptr) (n : Nat) : Memmgr :=
  let pool := setNext (setBlock m.pool new (m.pool p).base n) new m.pAlloc
  { m with pool := setPrevIf pool (pool new).next (some new), pAlloc := some new }

def takeFromFree (m : Memmgr) (p : Ptr) (n : Nat) : Except Fault Memmgr :=
  if (m.pool p).size = n then do
    let (head, pool) ← unlink m.pool m.pFree p
    return returnNode2Pool { m with pFree := head, pool := pool } p
  else
    return { m with
      pool := setBlock m.pool p (((m.pool p).base + n) % 2 ^ 64) ((m.pool p).size - n) }

def mmgrAlloc (type : MemType) (size : Int) (m : Memmgr) : Except Fault (Option Nat × Memmgr) :=
  if size ≤ 0 then .ok (none, m)
  else if maxnumPool < m.num then .ok (none, m)
  else do
    let n := allocSize type size.toNat
    match ← findFit m.pool n (maxnumPool + 1) m.pFree with
    | none => return (none, m)
    | some p =>
      let (new, m) := findValidNodeFromPool m
      let new ← deref new
      let m ← takeFromFree (addAllocated m new p n) p n
      let a ← deref m.pAlloc
      return (some (m.pool a).base, m)

def checkPrevnodeAndMerge (m : Memmgr) (p : Option Ptr) : Except Fault (Ptr × Memmgr) := do
  let p ← deref p
  match (m.pool p).prev with
  | some q =>
    if ((m.pool q).base + (m.pool q).size) % 2 ^ 64 = (m.pool p).base then
      let pool := setBlock m.pool q (m.pool q).base (((m.pool q).size + (m.pool p).size) % 2 ^ 32)
      let pool := setNext pool q (pool p).next
      let pool := setPrevIf pool (pool p).next (pool p).prev
      return (q, returnNode2Pool { m with pool := pool } p)
    else return (p, m)
  | none => return (p, m)

/-- The first free node not below the new one, or the last one. -/
def findPlace (pool : Pool) (base : Nat) : Nat → Ptr → Except Fault Ptr
  | 0, _ => .error .diverge
  | fuel + 1, pf =>
    if (pool pf).base < base then
      match (pool pf).next with
      | some q => findPlace pool base fuel q
      | none => .ok pf
    else .ok pf

def insertNode2Free (m : Memmgr) (p : Ptr) : Except Fault Memmgr :=
  match m.pFree with
  | none => .ok { m with pFree := some p, pool := setNext (setPrev m.pool p none) p none }
  | some h => do
    let pf ← findPlace m.pool (m.pool p).base (maxnumPool + 1) h
    let m :=
      if (m.pool pf).base < (m.pool p).base then
        let pool := setNext m.pool pf (some p)
        { m with pool := setNext (setPrev pool p (some pf)) p none }
      else
        let before := (m.pool pf).prev
        let pool := setPrev m.pool p before
        let pool := setNextIf pool before (some p)
        let pool := setNext pool p (some pf)
        { m with
          pFree := if before = none then some p else m.pFree
          pool := setPrev pool pf (some p) }
    let (q, m) ← checkPrevnodeAndMerge m (some p)
    let (_, m) ← checkPrevnodeAndMerge m (m.pool q).next
    return m

def findBase (pool : Pool) (addr : Nat) : Nat → Option Ptr → Except Fault (Option Ptr)
  | _, none => .ok none
  | 0, some _ => .error .diverge
  | fuel + 1, some p =>
    if (pool p).base = addr then .ok (some p) else findBase pool addr fuel (pool p).next

def mmgrFree (addr : Nat) (m : Memmgr) : Except Fault Memmgr := do
  match ← findBase m.pool addr (maxnumPool + 1) m.pAlloc with
  | none => return m
  | some p =>
    let (head, pool) ← unlink m.pool m.pAlloc p
    insertNode2Free { m with pAlloc := head, pool := pool } p

/-- `none` before its init. -/
abbrev Managers := MemType → Option Memmgr

inductive Call where
  | init (type : MemType) (mstart size : Nat)
  | alloc (type : MemType) (size : Int)
  | free (type : MemType) (addr : Nat)

def step (g : Managers) : Call → Except Fault Managers
  | .init type mstart size =>
    match g type with
    | some _ => .ok g
    | none => do return Function.update g type (some (← initMmgr mstart size))
  | .alloc type size =>
    match g type with
    | none => .ok g
    | some m => do return Function.update g type (some (← mmgrAlloc type size m).2)
  | .free type addr =>
    match g type with
    | none => .ok g
    | some m => do return Function.update g type (some (← mmgrFree addr m))

def run (g : Managers) : List Call → Except Fault Managers
  | [] => .ok g
  | c :: cs => do run (← step g c) cs

end SynaBoot.Mmgr
