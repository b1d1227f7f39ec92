import SynaBoot.FlashRecord

namespace SynaBoot.MemRegions

open SynaBoot.FlashRecord (Bytes)

def maxRegionCount : ℕ := 16
def maxSystemPoolNum : ℕ := 2

structure MemRegion where
  name : Bytes 32
  base : UInt32
  size : UInt32
  attr : UInt32
  reserved : UInt32
  userdata0 : UInt32
  userdata1 : UInt32
  userdata2 : UInt32
  userdata3 : UInt32
  deriving DecidableEq

namespace MemRegion

variable (r : MemRegion)

def user : UInt32 := r.userdata0 &&& 0xff000000
def isBl : Bool := r.user = 0x04000000
def isSystem : Bool := r.user = 0x05000000
def isIon : Bool := r.user = 0x06000000

def ionType : UInt32 := r.userdata0 &&& 0xff
def isCma : Bool := r.ionType = 4

def forNonsecure : Bool := r.userdata1 &&& 0x2 ≠ 0
def forCacheable : Bool := r.userdata1 &&& 0x4 ≠ 0
def forNoncacheable : Bool := r.userdata1 &&& 0x8 ≠ 0

def first : ℕ := r.base.toNat
def afterLast : ℕ := r.base.toNat + r.size.toNat

end MemRegion

structure Span where
  base : UInt32
  size : UInt32
  deriving DecidableEq, Repr

def Within (a : ℕ) (base size : UInt32) : Prop := base.toNat ≤ a ∧ a < base.toNat + size.toNat

instance (a : ℕ) (base size : UInt32) : Decidable (Within a base size) :=
  inferInstanceAs (Decidable (_ ∧ _))

section Collect

variable (mem : List MemRegion)

def getSystemMem : List MemRegion := (mem.filter MemRegion.isSystem).take maxSystemPoolNum

def getBlMem : List MemRegion := (mem.filter MemRegion.isBl).take 1

def getIonMem : List MemRegion := mem.filter fun r => r.isIon && !r.isCma

/-- The check of one region; the ends are kept in 32 bits. -/
def reservedOf (sys r : MemRegion) : Option Span :=
  let sysStart := sys.base
  let sysEnd := sys.base + sys.size
  if r.isCma && r.isIon then none
  else if r.isIon then
    if sysStart ≤ r.base ∧ r.base < sysEnd then
      if r.size ≤ sysEnd - r.base then some ⟨r.base, r.size⟩ else none
    else none
  else none

def getReservedMem : List Span :=
  match (getSystemMem mem).head? with
  | none => []
  | some sys => mem.filterMap (reservedOf sys)

end Collect

def Apart (r s : MemRegion) : Prop := ∀ a, ¬ (Within a r.base r.size ∧ Within a s.base s.size)

def Carveout (r : MemRegion) : Prop := r.isIon = true ∧ r.isCma = false

instance (r : MemRegion) : Decidable (Carveout r) := inferInstanceAs (Decidable (_ ∧ _))

def Covered (mem : List MemRegion) : Prop :=
  ∀ sys, (getSystemMem mem).head? = some sys → ∀ r ∈ mem, Carveout r →
    ∀ a, Within a sys.base sys.size → Within a r.base r.size →
      ∃ p ∈ getReservedMem mem, Within a p.base p.size

def Nested (mem : List MemRegion) : Prop :=
  ∀ sys, (getSystemMem mem).head? = some sys → ∀ r ∈ mem, Carveout r → ¬ Apart sys r →
    sys.afterLast < 2 ^ 32 ∧ sys.first ≤ r.first ∧ r.afterLast ≤ sys.afterLast

instance : Std.Symm Apart := ⟨fun _ _ h a ha => h a ha.symm⟩

variable {sys r : MemRegion}

theorem reservedOf_carveout (h : Carveout r) : reservedOf sys r =
    if sys.base ≤ r.base ∧ r.base < sys.base + sys.size ∧ r.size ≤ sys.base + sys.size - r.base then
      some ⟨r.base, r.size⟩
    else none := by
  obtain ⟨hion, hcma⟩ := h
  unfold reservedOf
  dsimp only
  rw [if_neg (by rw [hcma]; exact Bool.false_ne_true), if_pos hion]
  by_cases hin : sys.base ≤ r.base ∧ r.base < sys.base + sys.size
  · rw [if_pos hin]
    by_cases hsize : r.size ≤ sys.base + sys.size - r.base
    · rw [if_pos hsize, if_pos ⟨hin.1, hin.2, hsize⟩]
    · rw [if_neg hsize, if_neg fun h => hsize h.2.2]
  · rw [if_neg hin, if_neg fun h => hin ⟨h.1, h.2.1⟩]

theorem carveout_of_reserved {p : Span} (h : reservedOf sys r = some p) : Carveout r := by
  unfold reservedOf at h
  dsimp only at h
  split at h
  · cases h
  · next hcma =>
    split at h
    · next hion =>
      refine ⟨hion, Bool.eq_false_iff.mpr fun hc => hcma ?_⟩
      rw [hc, hion]
      rfl
    · cases h

theorem fits_iff (hsys : sys.afterLast ≤ 2 ^ 32) :
    (sys.base ≤ r.base ∧ r.base < sys.base + sys.size ∧
        r.size ≤ sys.base + sys.size - r.base) ↔
      sys.afterLast < 2 ^ 32 ∧ sys.first ≤ r.first ∧ r.first < sys.afterLast ∧
        r.afterLast ≤ sys.afterLast := by
  have hend : (sys.base + sys.size).toNat = sys.afterLast % 2 ^ 32 := UInt32.toNat_add _ _
  rw [UInt32.le_iff_toNat_le, UInt32.lt_iff_toNat_lt, UInt32.le_iff_toNat_le, hend]
  change sys.first ≤ r.first ∧ r.first < _ ∧ _ ↔ _
  obtain hlt | heq := hsys.lt_or_eq
  · rw [Nat.mod_eq_of_lt hlt] at hend ⊢
    constructor
    · rintro ⟨hbase, hin, hsize⟩
      rw [UInt32.toNat_sub_of_le _ _ (UInt32.le_iff_toNat_le.mpr (by rw [hend]; exact hin.le)),
        hend] at hsize
      refine ⟨hlt, hbase, hin, ?_⟩
      unfold MemRegion.first at hin
      unfold MemRegion.afterLast at hin hsize ⊢
      omega
    · rintro ⟨-, hbase, hin, hsize⟩
      refine ⟨hbase, hin, ?_⟩
      rw [UInt32.toNat_sub_of_le _ _ (UInt32.le_iff_toNat_le.mpr (by rw [hend]; exact hin.le)),
        hend]
      unfold MemRegion.afterLast at hsize ⊢
      omega
  · rw [heq, Nat.mod_self]
    exact iff_of_false (fun h => Nat.not_lt_zero _ h.2.1) fun h => lt_irrefl _ h.1

theorem mem_getReservedMem {mem : List MemRegion} {sys : MemRegion} {p : Span}
    (h : (getSystemMem mem).head? = some sys) :
    p ∈ getReservedMem mem ↔ ∃ r ∈ mem, reservedOf sys r = some p := by
  unfold getReservedMem
  rw [h]
  exact List.mem_filterMap

/-- The carveouts are reserved exactly if none crosses the region's ends and it ends below 4 GiB. -/
theorem reserved_covers_iff (mem : List MemRegion)
    (hends : ∀ r ∈ mem, r.afterLast ≤ 2 ^ 32)
    (hion : (mem.filter MemRegion.isIon).Pairwise Apart) : Covered mem ↔ Nested mem := by
  have hmem : ∀ sys, (getSystemMem mem).head? = some sys → sys.afterLast ≤ 2 ^ 32 := by
    intro sys h
    have hin := List.mem_of_mem_take (List.mem_of_head? h)
    exact hends sys (List.mem_filter.mp hin).1
  constructor
  · intro hcov sys hsys r hr hc hmeet
    obtain ⟨a, ha⟩ := not_forall.mp hmeet
    obtain ⟨has, har⟩ := not_not.mp ha
    obtain ⟨p, hp, hap⟩ := hcov sys hsys r hr hc a has har
    obtain ⟨s, hs, hres⟩ := (mem_getReservedMem hsys).mp hp
    have hcs := carveout_of_reserved hres
    rw [reservedOf_carveout hcs] at hres
    split at hres
    · next hfit =>
      obtain rfl := Option.some.inj hres
      -- the regions are disjoint, so the one that covers the address is the region itself
      have hsame : s = r := by
        by_contra hne
        exact hion.forall (List.mem_filter.mpr ⟨hs, hcs.1⟩) (List.mem_filter.mpr ⟨hr, hc.1⟩) hne a
          ⟨hap, har⟩
      subst hsame
      obtain ⟨hlt, hbase, -, hlast⟩ := (fits_iff (hmem sys hsys)).mp hfit
      exact ⟨hlt, hbase, hlast⟩
    · cases hres
  · intro hnest sys hsys r hr hc a has har
    obtain ⟨hlt, hbase, hlast⟩ := hnest sys hsys r hr hc fun h => h a ⟨has, har⟩
    have hin : r.first < sys.afterLast := har.1.trans_lt has.2
    refine ⟨⟨r.base, r.size⟩, (mem_getReservedMem hsys).mpr ⟨r, hr, ?_⟩, har⟩
    rw [reservedOf_carveout hc, if_pos ((fits_iff (hmem sys hsys)).mpr ⟨hlt, hbase, hin, hlast⟩)]

theorem length_noName : (List.replicate 32 (0 : UInt8)).length = 32 := List.length_replicate

def noName : Bytes 32 := ⟨List.replicate 32 0, length_noName⟩

def systemMem (base size : UInt32) : MemRegion :=
  ⟨noName, base, size, 0, 0, 0x05000000, 0, 0, 0⟩

def ionMem (base size : UInt32) : MemRegion :=
  ⟨noName, base, size, 0, 0, 0x06000002, 0x2, 0, 0⟩

theorem apart_of_le {r s : MemRegion} (h : r.afterLast ≤ s.first) : Apart r s :=
  fun _ ⟨hr, hs⟩ => absurd (hr.2.trans_le h) (Nat.not_lt.mpr hs.1)

theorem reserved_covers_two : Covered [systemMem 0x1000000 0x3000000, ionMem 0x2000000 0x100000,
    ionMem 0x8000000 0x1000000] := by
  refine (reserved_covers_iff _ (by decide) ?_).mpr ?_
  · exact .cons (fun r hr => apart_of_le (by
      obtain rfl := List.mem_singleton.mp hr
      decide)) (List.pairwise_singleton _ _)
  · intro sys hsys r hr hc hmeet
    obtain rfl := Option.some.inj hsys
    simp only [List.mem_cons, List.not_mem_nil, or_false] at hr
    obtain rfl | rfl | rfl := hr
    · exact absurd hc.1 (by decide)
    · decide
    · exact absurd (apart_of_le (by decide)) hmeet

theorem not_covered {mem : List MemRegion} {a : ℕ} (hsys : (getSystemMem mem).head? = some sys)
    (hr : r ∈ mem) (hc : Carveout r) (has : Within a sys.base sys.size)
    (har : Within a r.base r.size) (hnil : getReservedMem mem = []) : ¬ Covered mem := by
  intro hcov
  obtain ⟨p, hp, -⟩ := hcov sys hsys r hr hc a has har
  rw [hnil] at hp
  cases hp

theorem carveouts_left_usable :
    ¬ Covered [systemMem 0x1000000 0x1000000, ionMem 0xf00000 0x200000] ∧
    ¬ Covered [systemMem 0x1000000 0x1000000, ionMem 0x1f00000 0x200000] ∧
    ¬ Covered [systemMem 0xf0000000 0x10000000, ionMem 0xf8000000 0x100000] := by
  refine ⟨?_, ?_, ?_⟩
  · exact not_covered (a := 0x1000000) rfl (.tail _ (.head _)) (by decide) (by decide) (by decide)
      (by decide)
  · exact not_covered (a := 0x1f00000) rfl (.tail _ (.head _)) (by decide) (by decide) (by decide)
      (by decide)
  · exact not_covered (a := 0xf8000000) rfl (.tail _ (.head _)) (by decide) (by decide) (by decide)
      (by decide)

end SynaBoot.MemRegions
