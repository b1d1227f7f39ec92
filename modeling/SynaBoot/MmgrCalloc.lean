import SynaBoot.CText
import SynaBoot.MmgrFirstFit
import SynaBoot.StringLib

namespace SynaBoot.MmgrCalloc

open SynaBoot.AddressSpace SynaBoot.AddressSpace.Memory SynaBoot.StringLib SynaBoot.CText
open SynaBoot.Mmgr SynaBoot.MmgrHeap SynaBoot.MmgrAlloc SynaBoot.MmgrRuns SynaBoot.MmgrFirstFit

variable {limit : ℕ} {memory : Memory limit UInt8} {g : Managers} {m : Memmgr}

def mmgrAllocByType (type : MemType) (size : Int) (g : Managers) :
    Except Fault (Option ℕ × Managers) :=
  match g type with
  | none => .ok (none, g)
  | some m => do
    let (ptr, m) ← mmgrAlloc type size m
    return (ptr, Function.update g type (some m))

/-- The memory is `none` if `memset` writes where there is none. -/
def mmgrCalloc (n size : Int) (g : Managers) (memory : Memory limit UInt8) :
    Except Fault (Option ℕ × Managers × Option (Memory limit UInt8)) := do
  let (ptr, g) ← mmgrAllocByType .common (int32 (n * size)) g
  let filled := memset (ptr.getD 0) 0 (uint64 (int32 (n * size))) memory
  return (ptr, g, filled.map Prod.snd)

theorem mmgrCalloc_step (n size : Int) (g : Managers) (memory : Memory limit UInt8) :
    (mmgrCalloc n size g memory).map (fun r => r.2.1) =
      step g (.alloc .common (int32 (n * size))) := by
  cases hg : g .common with
  | none =>
    simp only [mmgrCalloc, mmgrAllocByType, step, hg]
    rfl
  | some m =>
    simp only [mmgrCalloc, mmgrAllocByType, step, hg]
    cases mmgrAlloc .common (int32 (n * size)) m <;> rfl

def Fits (m : Memmgr) (size : Int) : Prop :=
  0 < size ∧ ∃ b ∈ freeBlocks m, rounded .common size.toNat ≤ b.2

theorem le_rounded (type : MemType) (size : ℕ) : size ≤ rounded type size := by
  cases type <;> simp only [rounded, granule] <;> omega

structure Served (m m' : Memmgr) (size : Int) (base : ℕ) : Prop where
  fits : Fits m size
  lower : m.membase ≤ base
  upper : base + rounded .common size.toNat ≤ m.membase + m.totalsize
  nonzero : base ≠ 0
  allocated : (base, rounded .common size.toNat) ∈ allocBlocks m'
  small : ∀ b ∈ allocBlocks m', b.2 < 2 ^ 32

theorem allocBlocks_small (hwf : WellFormed m) : ∀ b ∈ allocBlocks m, b.2 < 2 ^ 32 := by
  obtain ⟨fl, al, hheap, -⟩ := hwf
  rw [allocBlocks, allocNodes_eq hheap, List.forall_mem_map]
  intro i hi
  have hwithin := hheap.nodes.within (List.mem_append_right fl hi)
  have hsmall := hheap.small
  dsimp only [block]
  omega

theorem mmgrAlloc_outcome (hwf : WellFormed m) (hb : Based .common m) (size : Int) :
    (¬ Fits m size ∧ mmgrAlloc .common size m = .ok (none, m)) ∨
      (∃ base m', mmgrAlloc .common size m = .ok (some base, m') ∧ Served m m' size base) ∨
      mmgrAlloc .common size m = .error .nullDeref := by
  obtain ⟨fl, al, hheap, hsorted⟩ := hwf
  have hcases := mmgrAlloc_cases hheap hsorted .common size
  rw [allocSize_eq] at hcases
  obtain ⟨hnone, heq⟩ | ⟨l₁, p, l₂, m', rfl, -, hfit, heq, hcarved⟩ | hout := hcases
  · refine .inl ⟨?_, heq⟩
    rintro ⟨hpos, b, hb, hfit⟩
    rw [freeBlocks, freeNodes_eq hheap, List.mem_map] at hb
    obtain ⟨i, hi, rfl⟩ := hb
    exact absurd hfit (not_le.mpr (hnone hpos i hi))
  · have hpos : 0 < size := by
      by_contra hle
      rw [mmgrAlloc, if_pos (not_lt.mp hle)] at heq
      cases heq
    have hwithin := hheap.nodes.within (i := p) (by simp)
    have hbase := hb.membase
    have hres : reserveMemSize = 8192 := rfl
    obtain ⟨k₁, k₂, n, hn, hfree, -, halloc⟩ := Carved.taken hheap hcarved hfit
    obtain ⟨fl', new, hheap', hsorted', -⟩ := hcarved.heap
    refine .inr (.inl ⟨_, m', heq, ?_⟩)
    exact
      { fits := ⟨hpos, _, hfree ▸ List.mem_append_right k₁ List.mem_cons_self, hn⟩
        lower := hwithin.1
        upper := by omega
        nonzero := by omega
        allocated := halloc ▸ List.mem_cons_self
        small := allocBlocks_small ⟨fl', _, hheap', hsorted'⟩ }
  · exact .inr (.inr (mmgrAlloc_error hheap hout))

/-- A `NULL`, or an allocated block whose `n * size` bytes are zero. -/
def Enough (n size : Int) (memory : Memory limit UInt8)
    (r : Except Fault (Option ℕ × Managers × Option (Memory limit UInt8))) : Prop :=
  ∃ ptr g memory' ws, r = .ok (ptr, g, some memory') ∧ memory'.written = ws ++ memory.written ∧
    (ptr = none → ws = []) ∧
    ∀ base, ptr = some base → ∃ m len, g .common = some m ∧ (base, len) ∈ allocBlocks m ∧
      n * size ≤ len ∧ (∀ i : ℕ, i < n * size → memory'.cells (base + i) = some 0) ∧
      ∀ a ∈ ws, base ≤ a ∧ a < base + len

theorem lt_of_int32_pos {x : Int} (hx : x < 2 ^ 32) (hpos : 0 < int32 x) : x < 2 ^ 31 := by
  by_contra hle
  have hsame : int32 (x - 2 ^ 32) = int32 x := Int.sub_bmod_right x (2 ^ 32)
  rw [int32_of_range (by omega)] at hsame
  omega

theorem mmgrCalloc_null {n size : Int} {g' : Managers}
    (h : mmgrAllocByType .common (int32 (n * size)) g = .ok (none, g')) :
    Enough n size memory (mmgrCalloc n size g memory) := by
  have hcall : mmgrCalloc n size g memory = .ok (none, g', some memory) := by
    simp only [mmgrCalloc, h]
    rfl
  exact ⟨none, g', memory, [], hcall, rfl, fun _ => rfl, fun base hbase => by cases hbase⟩

theorem mmgrCalloc_served {n size : Int} (hn : 0 < n * size) {m' : Memmgr} {base : ℕ}
    (h : mmgrAllocByType .common (int32 (n * size)) g =
      .ok (some base, Function.update g .common (some m')))
    (hs : Served m m' (int32 (n * size)) base) (hmem : memory.Area m.membase m.totalsize) :
    Enough n size memory (mmgrCalloc n size g memory) ↔ n * size < 2 ^ 31 := by
  have hpos := hs.fits.1
  have hmax := int32_range (n * size)
  have hlen : uint64 (int32 (n * size)) = (int32 (n * size)).toNat := by
    have := uint64_of_range (x := int32 (n * size)) (by omega)
    omega
  have hround := le_rounded .common (int32 (n * size)).toNat
  have hupper := hs.upper
  obtain ⟨memory', hfill, hwrote⟩ := memset_wrote 0 hs.nonzero (n := (int32 (n * size)).toNat)
    (hmem.mono hs.lower (by omega))
  have hcall : mmgrCalloc n size g memory =
      .ok (some base, Function.update g .common (some m'), some memory') := by
    simp only [mmgrCalloc, h, bind, Except.bind, Option.getD_some, hlen, hfill]
    rfl
  constructor
  · rintro ⟨ptr, g', memory'', ws, heq, -, -, hblock⟩
    rw [hcall] at heq
    obtain ⟨rfl, rfl, -⟩ : some base = ptr ∧ _ = g' ∧ _ := by simpa using heq
    obtain ⟨m'', len, hm'', hmem', hle, -⟩ := hblock base rfl
    rw [Function.update_self, Option.some.injEq] at hm''
    subst hm''
    -- every block is below 4 GiB, where only a product that fits is positive as an `int`
    have hsmall := hs.small _ hmem'
    exact lt_of_int32_pos (by omega) hpos
  · intro hlt
    have hsame : int32 (n * size) = n * size := int32_of_range (by omega)
    obtain ⟨ws, hws, hrange⟩ := hwrote.written
    rw [List.length_replicate] at hrange
    refine ⟨_, _, memory', ws, hcall, hws, fun h => (by cases h), fun b hb => ?_⟩
    obtain rfl := Option.some.inj hb
    refine ⟨m', _, Function.update_self _ _ _, hs.allocated, by omega, fun i hi => ?_, fun a ha => ?_⟩
    · apply hwrote.holds.cell
      rw [List.getElem?_replicate, if_pos (by omega)]
      rfl
    · have := (hrange a).mp ha
      omega

theorem safeCall_alloc_iff (hwf : AllWellFormed g) (hm : g .common = some m) (size : Int) :
    SafeCall g (.alloc .common size) ↔ mmgrAlloc .common size m ≠ .error .nullDeref := by
  obtain ⟨fl, al, hheap, hsorted⟩ := hwf .common m hm
  constructor
  · intro hsafe herr
    obtain ⟨r, m', hok, -⟩ := mmgrAlloc_ok hheap hsorted (freeNodes_eq hheap ▸ hsafe m hm)
    rw [hok] at herr
    cases herr
  · intro hne m₁ hm₁ hout
    rw [hm, Option.some.injEq] at hm₁
    subst hm₁
    rw [freeNodes_eq hheap] at hout
    exact hne (mmgrAlloc_error hheap hout)

/-- A block is too small exactly if the product does not fit in an `int` and there is room
for it. -/
theorem mmgrCalloc_enough_iff {calls : List Call} (hcalls : ∀ c ∈ calls, Admissible c)
    (hrun : run start calls = .ok g) {n size : Int} (hn : 0 < n) (hsize : 0 < size)
    (hmem : ∀ m, g .common = some m → memory.Area m.membase m.totalsize) :
    Enough n size memory (mmgrCalloc n size g memory) ↔
      SafeCall g (.alloc .common (int32 (n * size))) ∧
        ∀ m, g .common = some m → Fits m (int32 (n * size)) → n * size < 2 ^ 31 := by
  obtain ⟨hwf, hbased⟩ := run_start_based hcalls hrun
  cases hg : g .common with
  | none =>
    have hnull : mmgrAllocByType .common (int32 (n * size)) g = .ok (none, g) := by
      simp only [mmgrAllocByType, hg]
    refine iff_of_true (mmgrCalloc_null hnull) ⟨fun m hm => ?_, fun m hm => by cases hm⟩
    rw [hg] at hm
    cases hm
  | some m =>
    rw [safeCall_alloc_iff hwf hg]
    simp only [Option.some.injEq, forall_eq']
    obtain ⟨hfits, halloc⟩ | ⟨base, m', halloc, hserved⟩ | herr :=
      mmgrAlloc_outcome (hwf .common m hg) (hbased .common m hg) (int32 (n * size))
    · have hnull : mmgrAllocByType .common (int32 (n * size)) g =
          .ok (none, Function.update g .common (some m)) := by
        simp only [mmgrAllocByType, hg, halloc]
        rfl
      refine iff_of_true (mmgrCalloc_null hnull) ⟨?_, fun h => absurd h hfits⟩
      rw [halloc]
      simp
    · have hblock : mmgrAllocByType .common (int32 (n * size)) g =
          .ok (some base, Function.update g .common (some m')) := by
        simp only [mmgrAllocByType, hg, halloc]
        rfl
      rw [mmgrCalloc_served (mul_pos hn hsize) hblock hserved (hmem m hg), halloc]
      simp [hserved.fits]
    · have hcall : mmgrCalloc n size g memory = .error .nullDeref := by
        simp only [mmgrCalloc, mmgrAllocByType, hg, herr]
        rfl
      refine iff_of_false ?_ fun h => h.1 herr
      rintro ⟨ptr, g', memory', ws, heq, -⟩
      rw [hcall] at heq
      cases heq

def nines (limit : ℕ) : Memory limit UInt8 where
  cells a := if a < limit then some 9 else none
  bounded _ ha := if_neg (not_lt.mpr ha)
  written := []

theorem nines_area (hwf : WellFormed m) : (nines (2 ^ 64)).Area m.membase m.totalsize := by
  obtain ⟨fl, al, hheap, -⟩ := hwf
  have haddr := hheap.addressable
  intro b hlow hhigh
  exact ⟨9, if_pos (by omega)⟩

theorem mmgrCalloc_enough_splitAndMerge : ∃ g, run start splitAndMerge = .ok g ∧
    Enough 10 10 (nines (2 ^ 64)) (mmgrCalloc 10 10 g (nines (2 ^ 64))) := by
  have hcalls : ∀ c ∈ splitAndMerge, Admissible c := by
    simp [splitAndMerge, Admissible, Region, reserveMemSize]
  have hfree : ((run start splitAndMerge).toOption.bind (· .common)).any
      (fun m => decide ((m.pool ⟨199, by decide⟩).isused = .free)) = true := by decide +kernel
  cases hrun : run start splitAndMerge with
  | error e => simp [hrun, Except.toOption] at hfree
  | ok g =>
    rw [hrun, Except.toOption, Option.bind_some] at hfree
    obtain ⟨hwf, -⟩ := run_start_based hcalls hrun
    refine ⟨g, rfl, (mmgrCalloc_enough_iff hcalls hrun (by decide) (by decide)
      fun m hm => nines_area (hwf .common m hm)).mpr ⟨?_, fun _ _ _ => by decide⟩⟩
    rintro m hm ⟨-, hused, -⟩
    rw [hm, Option.any_some, decide_eq_true_eq, hused] at hfree
    cases hfree

def oneRegion : List Call := [.init .common 0x1000 0x4000]

theorem mmgrCalloc_wraps : ∃ g, run start oneRegion = .ok g ∧
    (mmgrCalloc 641 6700417 g (nines 0x8000)).toOption.map
        (fun r => (r.1, (r.2.1 .common).map allocBlocks, r.2.2.map Memory.written)) =
      some (some 0x3000, some [(0x3000, 64)], some [0x3000]) ∧
    ¬ Enough 641 6700417 (nines 0x8000) (mmgrCalloc 641 6700417 g (nines 0x8000)) := by
  have hresult : ((run start oneRegion).toOption.bind fun g =>
      (mmgrCalloc 641 6700417 g (nines 0x8000)).toOption.map
        (fun r => (r.1, (r.2.1 .common).map allocBlocks, r.2.2.map Memory.written))) =
      some (some 0x3000, some [(0x3000, 64)], some [0x3000]) := by decide +kernel
  cases hrun : run start oneRegion with
  | error e => simp [hrun, Except.toOption] at hresult
  | ok g =>
    rw [hrun, Except.toOption, Option.bind_some] at hresult
    refine ⟨g, rfl, hresult, ?_⟩
    rintro ⟨ptr, g', memory', ws, hcall, -, -, hblock⟩
    rw [hcall, Except.toOption, Option.map_some, Option.some.injEq, Prod.mk.injEq,
      Prod.mk.injEq] at hresult
    obtain ⟨rfl, hblocks, -⟩ := hresult
    obtain ⟨m, len, hm, hmem, hle, -⟩ := hblock 0x3000 rfl
    dsimp only at hblocks
    rw [hm, Option.map_some, Option.some.injEq] at hblocks
    rw [hblocks, List.mem_singleton, Prod.mk.injEq] at hmem
    omega

end SynaBoot.MmgrCalloc
