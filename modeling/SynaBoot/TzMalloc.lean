import SynaBoot.Bump
import SynaBoot.CText
import SynaBoot.Schedules

namespace SynaBoot.TzMalloc

open SynaBoot.Bump SynaBoot.Packing SynaBoot.Schedules
open SynaBoot.CText (toNat_ofInt)

structure Cpu where
  pointerBits : ℕ
  either : pointerBits = 32 ∨ pointerBits = 64

def Cpu.ptr (c : Cpu) (a : ℕ) : ℕ := a % 2 ^ c.pointerBits

/-- `tee_mem`. -/
structure TeeMem where
  pMemStart : ℕ
  pMem : ℕ
  size : UInt32

def tzMeminit (buff : ℕ) (size : UInt32) : TeeMem := ⟨buff, buff, size⟩

/-- `none` is where 0 is returned for a block that is not given. -/
def tzMalloc (c : Cpu) (mem : TeeMem) (size : UInt32) : Option ℕ × TeeMem :=
  if 0 < size ∧ size < mem.size then
    let memAlign := c.ptr (c.ptr (mem.pMem + 7) / 8 * 8)
    if c.ptr (mem.pMemStart + mem.size.toNat) < c.ptr (memAlign + size.toNat) then (none, mem)
    else
      (some memAlign,
        { mem with
          size := mem.size - (size + UInt32.ofInt (memAlign - mem.pMem))
          pMem := c.ptr (memAlign + size.toNat) })
  else (none, mem)

/-- It is not at the null pointer, and there is an address behind it. -/
structure Arena (c : Cpu) where
  buff : ℕ
  size : UInt32
  pos : 0 < buff
  lt : buff + size.toNat < 2 ^ c.pointerBits

variable {c : Cpu}

def Arena.stop (a : Arena c) : ℕ := a.buff + a.size.toNat

structure Trace where
  mem : TeeMem
  blocks : List Block

def Arena.init (a : Arena c) : Trace := ⟨tzMeminit a.buff a.size, []⟩

def malloc (c : Cpu) (size : UInt32) (t : Trace) : Trace :=
  let result := tzMalloc c t.mem size
  ⟨result.2, result.1.toList.map (⟨·, size.toNat⟩) ++ t.blocks⟩

def OnlyIfFull (a : Arena c) (t : Trace) (size : UInt32) : Prop :=
  0 < size → (tzMalloc c t.mem size).1 = none → a.stop < aligned 8 t.mem.pMem + size.toNat

def Arena.allot (a : Arena c) (size : UInt32) (l : Log) : Log := Bump.allot 8 a.stop size.toNat l

structure Roomy (a : Arena c) (l : Log) (size : UInt32) : Prop where
  served : 0 < size → aligned 8 l.next + size.toNat ≤ a.stop →
    l.next + size.toNat < a.stop ∧ aligned 8 l.next + size.toNat + (l.next - a.buff) ≤ a.stop
  ends : 0 < size → l.next + size.toNat < a.stop →
    aligned 8 l.next + size.toNat < 2 ^ c.pointerBits

structure Refines (a : Arena c) (t : Trace) (l : Log) : Prop extends Kept 8 a.buff a.stop l where
  start_eq : t.mem.pMemStart = a.buff
  mem_eq : t.mem.pMem = l.next
  size_eq : l.next + t.mem.size.toNat = a.stop
  blocks_eq : t.blocks = l.blocks

section Steps

variable {a : Arena c} {t : Trace} {l : Log} {size : UInt32}

theorem refines_init (a : Arena c) : Refines a a.init ⟨a.buff, []⟩ where
  toKept := kept_empty (Nat.le_add_right _ _)
  start_eq := rfl
  mem_eq := rfl
  size_eq := rfl
  blocks_eq := rfl

theorem ptr_round (a : ℕ) (ha : a < 2 ^ c.pointerBits) :
    c.ptr (c.ptr (a + 7) / 8 * 8) = aligned 8 a % 2 ^ c.pointerBits := by
  unfold Cpu.ptr aligned
  obtain h | h := c.either
  · rw [h] at ha ⊢
    omega
  · rw [h] at ha ⊢
    omega

inductive Served (a : Arena c) (t : Trace) (l : Log) (size : UInt32) : Option ℕ × TeeMem → Prop
  | refused (h : size = 0 ∨ a.stop ≤ l.next + size.toNat ∨
      aligned 8 l.next + size.toNat < 2 ^ c.pointerBits ∧
        a.stop < aligned 8 l.next + size.toNat + (l.next - a.buff)) : Served a t l size (none, t.mem)
  | given (mem : TeeMem) (hpos : 0 < size) (hless : l.next + size.toNat < a.stop)
      (hroom : aligned 8 l.next + size.toNat + (l.next - a.buff) ≤ a.stop)
      (hstart : mem.pMemStart = a.buff) (hmem : mem.pMem = aligned 8 l.next + size.toNat)
      (hsize : aligned 8 l.next + size.toNat + mem.size.toNat = a.stop) :
      Served a t l size (some (aligned 8 l.next), mem)
  | outside (p : ℕ) (mem : TeeMem) (hpos : 0 < size) (hend : l.next + size.toNat < a.stop)
      (hwrap : 2 ^ c.pointerBits ≤ aligned 8 l.next + size.toNat)
      (hout : p < a.buff ∨ a.stop < p + size.toNat) : Served a t l size (some p, mem)

theorem toNat_left {left size : UInt32} {p q : ℕ} (hle : p ≤ q) (hroom : size.toNat + (q - p) ≤ left.toNat) :
    (left - (size + UInt32.ofInt (q - p))).toNat = left.toNat - (size.toNat + (q - p)) := by
  have hdiff : ((q : ℤ) - p) = ((q - p : ℕ) : ℤ) := (Nat.cast_sub hle).symm
  have hlt := left.toNat_lt
  rw [UInt32.toNat_sub, UInt32.toNat_add, hdiff, toNat_ofInt]
  omega

theorem ptr_wraps {q n : ℕ} (hdvd : 8 ∣ q) (hq : q < 2 ^ c.pointerBits + 8) (hn : n < 2 ^ c.pointerBits)
    (hwrap : 2 ^ c.pointerBits ≤ q + n) :
    c.ptr (q % 2 ^ c.pointerBits + n) ≤ n ∧ (q % 2 ^ c.pointerBits = 0 ∨ q % 2 ^ c.pointerBits = q) := by
  unfold Cpu.ptr
  obtain h | h := c.either
  · rw [h] at hq hn hwrap ⊢
    omega
  · rw [h] at hq hn hwrap ⊢
    omega

theorem tzMalloc_served (h : Refines a t l) (size : UInt32) :
    Served a t l size (tzMalloc c t.mem size) := by
  have hstop : a.stop < 2 ^ c.pointerBits := a.lt
  have hpos := a.pos
  have hnext := le_aligned (by decide : 0 < 8) l.next
  have hround := aligned_lt (by decide : 0 < 8) l.next
  have hlow := h.le_next
  have hhigh := h.next_le
  have hsize := h.size_eq
  rw [tzMalloc, h.start_eq, h.mem_eq, ptr_round _ (hhigh.trans_lt hstop)]
  by_cases hask : 0 < size ∧ size < t.mem.size
  · have hless : size.toNat < t.mem.size.toNat := hask.2
    have hend : c.ptr (a.buff + t.mem.size.toNat) = a.buff + t.mem.size.toNat :=
      Nat.mod_eq_of_lt (by omega)
    rw [if_pos hask]
    dsimp only
    rw [hend]
    by_cases hwrap : 2 ^ c.pointerBits ≤ aligned 8 l.next + size.toNat
    · obtain ⟨hptr, hstart⟩ := ptr_wraps (dvd_aligned 8 l.next) (by omega) (by omega) hwrap
      rw [if_neg (by omega)]
      refine .outside _ _ hask.1 (by omega) hwrap ?_
      omega
    · have hfits := not_le.mp hwrap
      have hat : aligned 8 l.next % 2 ^ c.pointerBits = aligned 8 l.next := Nat.mod_eq_of_lt (by omega)
      have hblock : c.ptr (aligned 8 l.next + size.toNat) = aligned 8 l.next + size.toNat :=
        Nat.mod_eq_of_lt hfits
      rw [hat, hblock]
      by_cases hover : a.buff + t.mem.size.toNat < aligned 8 l.next + size.toNat
      · rw [if_pos hover]
        exact .refused (.inr (.inr ⟨hfits, by omega⟩))
      · rw [if_neg hover]
        refine .given _ hask.1 (by omega) (by omega) rfl rfl ?_
        dsimp only
        rw [toNat_left hnext (by omega)]
        omega
  · rw [if_neg hask]
    refine .refused ?_
    rw [not_and_or, UInt32.not_lt, UInt32.not_lt] at hask
    refine hask.imp (fun hzero => ?_) fun hleft => ?_
    · exact UInt32.le_zero_iff.mp hzero
    · have hleft : t.mem.size.toNat ≤ size.toNat := hleft
      exact .inl (by omega)

theorem Refines.given (h : Refines a t l) {mem : TeeMem} (hpos : 0 < size)
    (hfits : aligned 8 l.next + size.toNat ≤ a.stop) (hstart : mem.pMemStart = a.buff)
    (hmem : mem.pMem = aligned 8 l.next + size.toNat)
    (hsize : aligned 8 l.next + size.toNat + mem.size.toNat = a.stop) :
    Refines a ⟨mem, ⟨aligned 8 l.next, size.toNat⟩ :: t.blocks⟩ (a.allot size l) := by
  have hkept : Kept 8 a.buff a.stop (a.allot size l) := h.toKept.allot (by decide) size.toNat
  rw [Arena.allot, Bump.allot, if_pos ⟨UInt32.lt_iff_toNat_lt.mp hpos, hfits⟩] at hkept ⊢
  exact ⟨hkept, hstart, hmem, hsize, congrArg (_ :: ·) h.blocks_eq⟩

theorem Refines.malloc (h : Refines a t l) (hroomy : Roomy a l size) :
    Refines a (malloc c size t) (a.allot size l) := by
  have hserved := tzMalloc_served h size
  rw [TzMalloc.malloc]
  generalize tzMalloc c t.mem size = result at *
  cases hserved with
  | refused hfull =>
    have hnone : ¬ (0 < size.toNat ∧ aligned 8 l.next + size.toNat ≤ a.stop) := by
      rintro ⟨hpos, hroom⟩
      have hserved := hroomy.served (UInt32.lt_iff_toNat_lt.mpr hpos) hroom
      obtain rfl | hfull | ⟨-, hfull⟩ := hfull
      · exact absurd hpos (by decide)
      · omega
      · omega
    rw [Arena.allot, Bump.allot, if_neg hnone]
    exact h
  | given mem hpos hless hroom hstart hmem hsize =>
    exact h.given hpos ((Nat.le_add_right _ _).trans hroom) hstart hmem hsize
  | outside p mem hpos hend hwrap hout => exact absurd hwrap (not_le.mpr (hroomy.ends hpos hend))

theorem blocks_sound (hfar : a.stop + 8 ≤ 2 ^ c.pointerBits) (requests : List UInt32) :
    Sound 8 a.buff a.stop (run (TzMalloc.malloc c) a.init requests).blocks := by
  have hok : Meets (TzMalloc.malloc c) (fun _ _ => True) a.init requests :=
    Meets.of_forall (fun _ _ => trivial) _ _
  have hrun : ∃ l, Refines a (run (TzMalloc.malloc c) a.init requests) l := by
    refine run_invariant (I := fun t => ∃ l, Refines a t l) ?_ ⟨_, refines_init a⟩ hok
    rintro t size ⟨l, h⟩ -
    have hserved := tzMalloc_served h size
    have hround := aligned_lt (by decide : 0 < 8) l.next
    rw [TzMalloc.malloc]
    generalize tzMalloc c t.mem size = result at *
    cases hserved with
    | refused hfull => exact ⟨l, h⟩
    | given mem hpos hless hroom hstart hmem hsize =>
      exact ⟨_, h.given hpos ((Nat.le_add_right _ _).trans hroom) hstart hmem hsize⟩
    | outside p mem hpos hend hwrap hout => omega
  obtain ⟨l, h⟩ := hrun
  rw [h.blocks_eq]
  exact h.toSound

theorem Refines.onlyIfFull (h : Refines a t l) (hroomy : Roomy a l size) : OnlyIfFull a t size := by
  intro hpos hnone
  have hserved := tzMalloc_served h size
  rw [h.mem_eq]
  by_contra hroom
  have hroom := hroomy.served hpos (not_lt.mp hroom)
  generalize tzMalloc c t.mem size = result at *
  cases hserved with
  | refused hfull =>
    obtain rfl | hfull | ⟨-, hfull⟩ := hfull
    · exact absurd hpos (by decide)
    · omega
    · omega
  | given mem => cases hnone
  | outside p mem => cases hnone

theorem Refines.outside (h : Refines a t l) (hroomy : ¬ Roomy a l size) (hfull : OnlyIfFull a t size) :
    ∃ b ∈ (TzMalloc.malloc c size t).blocks, ¬ (a.buff ≤ b.start ∧ b.stop ≤ a.stop) := by
  have hserved := tzMalloc_served h size
  rw [OnlyIfFull, h.mem_eq] at hfull
  rw [TzMalloc.malloc]
  generalize tzMalloc c t.mem size = result at *
  cases hserved with
  | refused hwhy =>
    refine absurd ⟨fun hpos hfits => ?_, fun hpos hless => ?_⟩ hroomy
    · exact absurd hfits (not_le.mpr (hfull hpos rfl))
    · obtain rfl | hwhy | ⟨hends, -⟩ := hwhy
      · exact absurd hpos (by decide)
      · exact absurd hless (not_lt.mpr hwhy)
      · exact hends
  | given mem hpos hless hroom =>
    refine absurd ⟨fun _ _ => ⟨hless, hroom⟩, fun _ _ => ?_⟩ hroomy
    exact ((Nat.le_add_right _ _).trans hroom).trans_lt a.lt
  | outside p mem hpos hless hwrap hout =>
    refine ⟨⟨p, size.toNat⟩, List.mem_cons_self, ?_⟩
    rw [Block.stop]
    dsimp only
    omega

theorem mem_run {b : Block} (hb : b ∈ t.blocks) (requests : List UInt32) :
    b ∈ (run (malloc c) t requests).blocks := by
  induction requests generalizing t with
  | nil => exact hb
  | cons size requests ih => exact ih (List.mem_append_right _ hb)

theorem sound_iff (h : Refines a t l) (requests : List UInt32) :
    Sound 8 a.buff a.stop (run (malloc c) t requests).blocks ∧
        Meets (malloc c) (OnlyIfFull a) t requests ↔
      Meets a.allot (Roomy a) l requests := by
  induction requests generalizing t l with
  | nil =>
    refine iff_of_true ⟨?_, trivial⟩ trivial
    change Sound 8 a.buff a.stop t.blocks
    rw [h.blocks_eq]
    exact h.toSound
  | cons size requests ih =>
    by_cases hroomy : Roomy a l size
    · have hrest := ih (h.malloc hroomy)
      constructor
      · rintro ⟨hsound, -, hmeets⟩
        exact ⟨hroomy, hrest.mp ⟨hsound, hmeets⟩⟩
      · rintro ⟨-, hmeets⟩
        obtain ⟨hsound, hmeets⟩ := hrest.mpr hmeets
        exact ⟨hsound, h.onlyIfFull hroomy, hmeets⟩
    · refine iff_of_false ?_ fun hmeets => hroomy hmeets.1
      rintro ⟨hsound, hfull, -⟩
      obtain ⟨b, hb, hout⟩ := h.outside hroomy hfull
      exact hout (hsound.inside b (mem_run hb requests))

end Steps

/-- `tz_malloc` is the bump allocator exactly as long as there is room for every request twice. -/
theorem whole_arena_iff (c : Cpu) (a : Arena c) (requests : List UInt32) :
    Sound 8 a.buff a.stop (run (malloc c) a.init requests).blocks ∧
        Meets (malloc c) (OnlyIfFull a) a.init requests ↔
      Meets a.allot (Roomy a) ⟨a.buff, []⟩ requests :=
  sound_iff (refines_init a) requests

def arm64 : Cpu := ⟨64, .inr rfl⟩

def arena (size : UInt32) : Arena arm64 where
  buff := 0x1000
  size := size
  pos := by decide
  lt := (Nat.add_lt_add_left size.toNat_lt 0x1000).trans (by decide)

theorem blocks_sound_arena :
    Sound 8 0x1000 (arena 100).stop (run (malloc arm64) (arena 100).init [48, 20, 48]).blocks :=
  blocks_sound (c := arm64) (a := arena 100) (by decide) [48, 20, 48]

theorem room_refused :
    ¬ OnlyIfFull (arena 64) (arena 64).init 64 ∧
      ¬ OnlyIfFull (arena 100) (run (malloc arm64) (arena 100).init [48]) 48 := by
  refine ⟨fun h => ?_, fun h => ?_⟩
  · exact absurd (h (by decide) (by decide)) (by decide)
  · exact absurd (h (by decide) (by decide)) (by decide)

end SynaBoot.TzMalloc
