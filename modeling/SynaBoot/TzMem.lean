import SynaBoot.BoundedArray
import SynaBoot.MemRegions

namespace SynaBoot.TzMem

open SynaBoot.BoundedArray SynaBoot.MemRegions
open SynaBoot.FlashRecord (le32)

def maxSystemSlot : ℕ := maxSystemPoolNum + 1
def regNamesSize : ℕ := maxRegionCount * 16

inductive Property where
  | memoryReg
  | poolNum
  | reg
  | regNames
  | attrNumPerPool
  | poolAttributes
  deriving DecidableEq, Repr

structure IonNode where
  poolNum : UInt32
  reg : List UInt32
  regNames : List UInt8
  attrNumPerPool : UInt32
  poolAttributes : List UInt32
  deriving DecidableEq, Repr

/-- `reg` of `/memory`, the ION node, and the reserved regions. -/
structure Tree where
  memory : Option (List UInt32)
  ion : Option IonNode
  reserved : List Span
  deriving DecidableEq, Repr

/-- Which of the `fdt_open_into` and `fdt_setprop` calls succeed. -/
structure Libfdt where
  openSystem : Bool
  openIon : Bool
  sets : Property → Bool

def Libfdt.set {α : Type} (fdt : Libfdt) (p : Property) (new old : α) : α :=
  if fdt.sets p then new else old

def MemRegion.toBytes (r : MemRegion) : List UInt8 :=
  r.name.1 ++ le32 r.base ++ le32 r.size ++ le32 r.attr ++ le32 r.reserved ++ le32 r.userdata0 ++
    le32 r.userdata1 ++ le32 r.userdata2 ++ le32 r.userdata3

def regionArray (rs : List MemRegion) : List UInt8 :=
  rs.flatMap MemRegion.toBytes ++ List.replicate (64 * (maxRegionCount - rs.length)) 0

def cstring (bytes : List UInt8) : Option (List UInt8) :=
  if 0 ∈ bytes then some (bytes.takeWhile (· ≠ 0)) else none

/-- A name without a terminator goes on in the fields behind it. -/
def nameStrings (rs : List MemRegion) : Option (List (List UInt8)) :=
  (List.range rs.length).mapM fun i => cstring ((regionArray rs).drop (64 * i))

def cells (rs : List MemRegion) : List UInt32 := rs.flatMap fun r => [0, r.base, 0, r.size]

def attributes (rs : List MemRegion) : List UInt32 :=
  rs.flatMap fun r => [r.userdata0 &&& 0x00ffffff, r.userdata1]

section Setup

variable (fdt : Libfdt)

/-- `none` is a write outside of an array. -/
def setupSystemMem (tree : Tree) (systemMem : List MemRegion) : Option Tree :=
  if maxSystemSlot < systemMem.length ∨ systemMem.length = 0 then some tree
  else if fdt.openSystem then do
    let reg ← pushAll (4 * maxSystemSlot) [] (cells systemMem)
    return { tree with memory := tree.memory.map (fdt.set .memoryReg reg) }
  else some tree

/-- `none` is an access outside of an array. -/
def setupIonMem (tree : Tree) (ionMem : List MemRegion) : Option Tree :=
  if ionMem.length = 0 then some tree
  else if fdt.openIon then
    match tree.ion with
    | none => some tree
    | some node => do
      let reg ← pushAll (4 * maxRegionCount) [] (cells ionMem)
      let names ← nameStrings ionMem
      let regNames ← pushAll regNamesSize [] (names.flatMap (· ++ [0]))
      let attrs ← pushAll (4 * maxRegionCount) [] (attributes ionMem)
      return { tree with ion := some {
        poolNum := fdt.set .poolNum (UInt32.ofNat ionMem.length) node.poolNum
        reg := fdt.set .reg reg node.reg
        regNames := fdt.set .regNames regNames node.regNames
        attrNumPerPool := fdt.set .attrNumPerPool 2 node.attrNumPerPool
        poolAttributes := fdt.set .poolAttributes attrs node.poolAttributes } }
  else some tree

/-- It goes behind the system regions, in an array of fixed size. -/
def addBlMem (systemMem blMem : List MemRegion) : Option (List MemRegion) :=
  match blMem with
  | [bl] =>
    if systemMem.length < maxSystemSlot then push maxSystemPoolNum systemMem bl
    else some systemMem
  | _ => some systemMem

def setupTzMem (tree : Tree) (mem : List MemRegion) : Option Tree := do
  let systemMem ← pushAll maxSystemPoolNum [] (getSystemMem mem)
  let blMem ← pushAll 1 [] (getBlMem mem)
  let systemMem ← addBlMem systemMem blMem
  let tree ← (if systemMem.length ≠ 0 then setupSystemMem fdt tree systemMem else some tree)
  let ionMem ← pushAll maxRegionCount [] (getIonMem mem)
  let tree ← (if ionMem.length ≠ 0 then setupIonMem fdt tree ionMem else some tree)
  let reserved ← pushAll maxRegionCount [] (getReservedMem mem)
  return { tree with reserved := reserved }

end Setup

section Bounds

variable {fdt : Libfdt} {tree : Tree} {mem : List MemRegion}

def selected (mem : List MemRegion) : List MemRegion := getSystemMem mem ++ getBlMem mem

def SetUp (fdt : Libfdt) (tree : Tree) (mem : List MemRegion) : Prop :=
  ∃ t, setupTzMem fdt tree mem = some t ∧
    (selected mem ≠ [] → t.memory = some (cells (selected mem)))

def NamesFit (ionMem : List MemRegion) : Prop :=
  ∃ names, nameStrings ionMem = some names ∧
    (names.flatMap (· ++ [0])).length ≤ regNamesSize

def IonReached (fdt : Libfdt) (tree : Tree) : Prop := fdt.openIon = true ∧ tree.ion ≠ none

def MemoryReached (fdt : Libfdt) (tree : Tree) : Prop :=
  fdt.openSystem = true ∧ fdt.sets .memoryReg = true ∧ tree.memory ≠ none

theorem length_getSystemMem : (getSystemMem mem).length ≤ maxSystemPoolNum :=
  List.length_take_le _ _

theorem length_getBlMem : (getBlMem mem).length ≤ 1 := List.length_take_le _ _

theorem length_getIonMem : (getIonMem mem).length ≤ mem.length := List.length_filter_le _ _

theorem length_getReservedMem : (getReservedMem mem).length ≤ mem.length := by
  unfold getReservedMem
  split
  · exact Nat.zero_le _
  · exact List.length_filterMap_le _ _

theorem length_flatMap_const {α : Type} {f : MemRegion → List α} {k : ℕ}
    (h : ∀ r, (f r).length = k) (rs : List MemRegion) :
    (rs.flatMap f).length = rs.length * k := by
  have hconst : (fun r => (f r).length) = fun _ => k := funext h
  rw [List.length_flatMap, hconst, List.map_const', List.sum_replicate, smul_eq_mul]

variable {rs : List MemRegion}

theorem length_cells_le {n : ℕ} (h : rs.length ≤ n) : (cells rs).length ≤ 4 * n := by
  rw [cells, length_flatMap_const (k := 4) fun _ => rfl]
  omega

theorem length_attributes_le {n : ℕ} (h : rs.length ≤ n) : (attributes rs).length ≤ 4 * n := by
  rw [attributes, length_flatMap_const (k := 2) fun _ => rfl]
  omega

theorem pushAll_nil {α : Type} {cap : ℕ} {xs : List α} (h : xs.length ≤ cap) :
    pushAll cap [] xs = some xs := pushAll_room (by rwa [List.length_nil, Nat.zero_add])

theorem addBlMem_room {sys bl : List MemRegion} (hbl : bl.length ≤ 1)
    (h : sys.length + bl.length ≤ maxSystemPoolNum) : addBlMem sys bl = some (sys ++ bl) := by
  match bl, hbl with
  | [], _ => exact congrArg some (List.append_nil sys).symm
  | [b], _ =>
    have hlt : sys.length < maxSystemPoolNum := h
    have hslot : sys.length < maxSystemSlot := hlt.trans (Nat.lt_succ_self _)
    rw [addBlMem, if_pos hslot, push_room hlt]

theorem addBlMem_full {sys bl : List MemRegion} (hsys : sys.length ≤ maxSystemPoolNum)
    (hbl : bl.length ≤ 1) (h : maxSystemPoolNum < sys.length + bl.length) :
    addBlMem sys bl = none := by
  match bl, hbl with
  | [], _ => exact absurd h (Nat.not_lt.mpr hsys)
  | [b], _ =>
    have hslot : sys.length < maxSystemSlot := Nat.lt_succ_of_le hsys
    rw [addBlMem, if_pos hslot, push_full (Nat.le_of_lt_succ h)]

theorem setupIonMem_some_iff (hle : rs.length ≤ maxRegionCount) :
    (∃ t, setupIonMem fdt tree rs = some t) ↔ (IonReached fdt tree → NamesFit rs) := by
  by_cases hnil : rs.length = 0
  · obtain rfl := List.eq_nil_of_length_eq_zero hnil
    exact iff_of_true ⟨tree, rfl⟩ fun _ => ⟨[], rfl, Nat.zero_le _⟩
  rw [setupIonMem, if_neg hnil]
  cases hopen : fdt.openIon with
  | false => exact iff_of_true ⟨_, rfl⟩ fun h => absurd (hopen.symm.trans h.1) Bool.false_ne_true
  | true =>
    rw [if_pos rfl]
    cases hnode : tree.ion with
    | none => exact iff_of_true ⟨_, rfl⟩ fun h => absurd hnode h.2
    | some node =>
      have hreach : IonReached fdt tree := ⟨hopen, by rw [hnode]; exact Option.some_ne_none _⟩
      dsimp only
      rw [pushAll_nil (length_cells_le hle), pushAll_nil (length_attributes_le hle),
        Option.bind_eq_bind, Option.bind_some]
      constructor
      · rintro ⟨t, ht⟩ -
        obtain ⟨names, hnames, ht⟩ := Option.bind_eq_some_iff.mp ht
        obtain ⟨bytes, hbytes, -⟩ := Option.bind_eq_some_iff.mp ht
        obtain ⟨-, hfit⟩ := (pushAll_eq_some_iff (Nat.zero_le _)).mp hbytes
        exact ⟨names, hnames, by rwa [List.length_nil, Nat.zero_add] at hfit⟩
      · intro h
        obtain ⟨names, hnames, hfit⟩ := h hreach
        rw [hnames, Option.bind_eq_bind, Option.bind_some, pushAll_nil hfit]
        exact ⟨_, rfl⟩

theorem setupIonMem_memory {t : Tree} (h : setupIonMem fdt tree rs = some t) :
    t.memory = tree.memory := by
  unfold setupIonMem at h
  split at h
  · exact congrArg Tree.memory (Option.some.inj h).symm
  · split at h
    · split at h
      · exact congrArg Tree.memory (Option.some.inj h).symm
      · obtain ⟨reg, -, h⟩ := Option.bind_eq_some_iff.mp h
        obtain ⟨names, -, h⟩ := Option.bind_eq_some_iff.mp h
        obtain ⟨regNames, -, h⟩ := Option.bind_eq_some_iff.mp h
        obtain ⟨attrs, -, h⟩ := Option.bind_eq_some_iff.mp h
        obtain rfl := Option.some.inj h
        rfl
    · exact congrArg Tree.memory (Option.some.inj h).symm

def listed (fdt : Libfdt) (tree : Tree) (rs : List MemRegion) : Tree :=
  { tree with memory :=
      if fdt.openSystem ∧ rs ≠ [] then tree.memory.map (fdt.set .memoryReg (cells rs))
      else tree.memory }

theorem setupSystemMem_listed (hle : rs.length ≤ maxSystemSlot) :
    (if rs.length ≠ 0 then setupSystemMem fdt tree rs else some tree) =
      some (listed fdt tree rs) := by
  by_cases hnil : rs.length = 0
  · obtain rfl := List.eq_nil_of_length_eq_zero hnil
    rw [if_neg (not_not.mpr hnil), listed, if_neg fun h => h.2 rfl]
  · have hne : rs ≠ [] := fun h => hnil (congrArg List.length h)
    rw [if_pos hnil, setupSystemMem, if_neg fun h => h.elim (Nat.not_lt.mpr hle) hnil, listed]
    cases fdt.openSystem with
    | false => rfl
    | true =>
      rw [if_pos rfl, if_pos ⟨rfl, hne⟩, pushAll_nil (length_cells_le hle)]
      rfl

theorem listed_memory_iff (hne : rs ≠ []) :
    (listed fdt tree rs).memory = some (cells rs) ↔
      MemoryReached fdt tree ∨ tree.memory = some (cells rs) := by
  unfold listed MemoryReached Libfdt.set
  dsimp only
  cases fdt.openSystem <;> cases fdt.sets .memoryReg <;> cases tree.memory <;> simp [hne]

theorem setupIonMem_skip :
    (if rs.length ≠ 0 then setupIonMem fdt tree rs else some tree) = setupIonMem fdt tree rs := by
  by_cases hnil : rs.length = 0
  · rw [if_neg (not_not.mpr hnil), setupIonMem, if_pos hnil]
  · rw [if_pos hnil]

theorem setupTzMem_room (hmem : mem.length ≤ maxRegionCount)
    (h : (selected mem).length ≤ maxSystemPoolNum) : setupTzMem fdt tree mem =
      (setupIonMem fdt (listed fdt tree (selected mem)) (getIonMem mem)).map fun t =>
        { t with reserved := getReservedMem mem } := by
  have hslot : (selected mem).length ≤ maxSystemSlot := h.trans (Nat.le_succ _)
  rw [setupTzMem, pushAll_nil length_getSystemMem, pushAll_nil length_getBlMem,
    pushAll_nil (length_getIonMem.trans hmem), pushAll_nil (length_getReservedMem.trans hmem)]
  simp only [Option.bind_eq_bind, Option.bind_some]
  rw [addBlMem_room length_getBlMem (by rwa [selected, List.length_append] at h), Option.bind_some]
  change (if (selected mem).length ≠ 0 then setupSystemMem fdt tree (selected mem) else
    some tree).bind _ = _
  rw [setupSystemMem_listed hslot, Option.bind_some, setupIonMem_skip, Option.map_eq_bind]
  rfl

theorem setupTzMem_full (h : maxSystemPoolNum < (selected mem).length) :
    setupTzMem fdt tree mem = none := by
  rw [setupTzMem, pushAll_nil length_getSystemMem, pushAll_nil length_getBlMem]
  simp only [Option.bind_eq_bind, Option.bind_some]
  rw [addBlMem_full length_getSystemMem length_getBlMem (by rwa [selected, List.length_append] at h)]
  rfl

/-- The arrays hold what is put into them exactly if one system region comes and the names fit. -/
theorem setup_in_bounds_iff (fdt : Libfdt) (tree : Tree) (mem : List MemRegion)
    (hmem : mem.length ≤ maxRegionCount) : SetUp fdt tree mem ↔
      (selected mem).length ≤ maxSystemPoolNum ∧
      (IonReached fdt tree → NamesFit (getIonMem mem)) ∧
      (selected mem ≠ [] → MemoryReached fdt tree ∨ tree.memory = some (cells (selected mem))) := by
  by_cases hroom : (selected mem).length ≤ maxSystemPoolNum
  · have hion : (∃ t, setupIonMem fdt (listed fdt tree (selected mem)) (getIonMem mem) = some t) ↔
        _ := setupIonMem_some_iff (length_getIonMem.trans hmem)
    unfold SetUp
    rw [setupTzMem_room hmem hroom]
    constructor
    · rintro ⟨t, ht, hlist⟩
      obtain ⟨t, hset, rfl⟩ := Option.map_eq_some_iff.mp ht
      refine ⟨hroom, hion.mp ⟨t, hset⟩, fun hne => (listed_memory_iff hne).mp ?_⟩
      rw [← setupIonMem_memory hset]
      exact hlist hne
    · rintro ⟨-, hnames, hlist⟩
      obtain ⟨t, hset⟩ := hion.mpr hnames
      refine ⟨_, Option.map_eq_some_iff.mpr ⟨t, hset, rfl⟩, fun hne => ?_⟩
      exact (setupIonMem_memory hset).trans ((listed_memory_iff hne).mpr (hlist hne))
  · refine iff_of_false ?_ fun h => hroom h.1
    rintro ⟨t, ht, -⟩
    rw [setupTzMem_full (Nat.not_le.mp hroom)] at ht
    cases ht

end Bounds

def blMem (base size : UInt32) : MemRegion := ⟨noName, base, size, 0, 0, 0x04000000, 0, 0, 0⟩

def roomy : Libfdt := ⟨true, true, fun _ => true⟩

def emptyTree : Tree := ⟨some [], some ⟨0, [], [], 0, []⟩, []⟩

theorem setup_in_bounds_three : SetUp roomy emptyTree
    [blMem 0x1000000 0x1000000, systemMem 0x2000000 0x20000000, ionMem 0x22000000 0x8000000] := by
  refine (setup_in_bounds_iff _ _ _ (by decide)).mpr ⟨by decide, fun _ => ?_, fun _ => .inl ?_⟩
  · exact ⟨[[]], by decide, by decide⟩
  · exact ⟨rfl, rfl, by decide⟩

theorem length_longName : (List.replicate 31 (0x61 : UInt8) ++ [0]).length = 32 := by
  rw [List.length_append, List.length_replicate, List.length_singleton]

def namedIonMem (i : ℕ) : MemRegion :=
  ⟨⟨_, length_longName⟩, 0x10000000 + 0x100000 * UInt32.ofNat i, 0x100000, 0, 0, 0x06000002, 0x2,
    0, 0⟩

theorem arrays_left :
    setupTzMem roomy emptyTree [blMem 0x1000000 0x1000000, systemMem 0x2000000 0x20000000,
      systemMem 0x40000000 0x20000000] = none ∧
    setupTzMem roomy emptyTree ((List.range 9).map namedIonMem) = none := by
  refine ⟨by decide, ?_⟩
  decide +kernel

end SynaBoot.TzMem
