import SynaBoot.AddressSpace
import SynaBoot.TsArea

namespace SynaBoot.StringLib

open SynaBoot.AddressSpace SynaBoot.AddressSpace.Memory

variable {limit : ℕ} {m m₁ m' : Memory limit UInt8} {cs d s : List UInt8} {dest src : ℕ}

/-- `while (size--) *pstrDest++ = *pstrSrc++`. -/
def copyUp : ℕ → ℕ → ℕ → Memory limit UInt8 → Option (Memory limit UInt8)
  | 0, _, _, m => some m
  | size + 1, pstrDest, pstrSrc, m => do
    let c ← m.cells pstrSrc
    let m ← m.store pstrDest c
    copyUp size (pstrDest + 1) (pstrSrc + 1) m

def copyDown : ℕ → ℕ → ℕ → Memory limit UInt8 → Option (Memory limit UInt8)
  | 0, _, _, m => some m
  | size + 1, pstrDest, pstrSrc, m => do
    let c ← m.cells (pstrSrc - 1)
    let m ← m.store (pstrDest - 1) c
    copyDown size (pstrDest - 1) (pstrSrc - 1) m

def memmove (strDest strSrc size : ℕ) (m : Memory limit UInt8) :
    Option (ℕ × Memory limit UInt8) := do
  if strDest ≠ 0 ∧ strSrc ≠ 0 then
    if strDest ≤ strSrc then
      let m ← copyUp size strDest strSrc m
      return (strDest, m)
    else
      let m ← copyDown size (strDest + size) (strSrc + size) m
      return (strDest, m)
  else return (strDest, m)

def fill (c : UInt8) : ℕ → ℕ → Memory limit UInt8 → Option (Memory limit UInt8)
  | 0, _, m => some m
  | size + 1, address, m => do
    let m ← m.store address c
    fill c size (address + 1) m

def memset (str : ℕ) (c : Int) (size : ℕ) (m : Memory limit UInt8) :
    Option (ℕ × Memory limit UInt8) := do
  if str ≠ 0 then
    let m ← fill (UInt8.ofInt c) size str m
    return (str, m)
  else return (str, m)

def strEnd (m : Memory limit UInt8) : ℕ → ℕ → Option ℕ
  | 0, _ => none
  | fuel + 1, strDest => do
    let c ← m.cells strDest
    if c ≠ 0 then strEnd m fuel (strDest + 1) else return strDest

/-- `while (size--) if (!(*strDest++ = *strSrc++)) break`. -/
def copyString : ℕ → ℕ → ℕ → Memory limit UInt8 → Option (ℕ × Memory limit UInt8)
  | 0, strDest, _, m => some (strDest, m)
  | size + 1, strDest, strSrc, m => do
    let c ← m.cells strSrc
    let m ← m.store strDest c
    if c = 0 then return (strDest + 1, m) else copyString size (strDest + 1) (strSrc + 1) m

/-- The walk to the end looks at every address at most once. -/
def strncat (strDest strSrc size : ℕ) (m : Memory limit UInt8) :
    Option (ℕ × Memory limit UInt8) := do
  if strDest ≠ 0 ∧ strSrc ≠ 0 then
    let last ← strEnd m limit strDest
    let (last, m) ← copyString size last strSrc m
    let m ← m.store last 0
    return (strDest, m)
  else return (0, m)

def Ascending (dest src n : ℕ) : Prop := dest ≤ src ∨ src + n ≤ dest

theorem Ascending.tail {n : ℕ} (h : Ascending dest src (n + 1)) :
    Ascending (dest + 1) (src + 1) n := by
  unfold Ascending at *
  omega

theorem ascending_step {c : UInt8} (hs : m.Holds src (c :: cs))
    (hd : m.Area dest (cs.length + 1)) (h : Ascending dest src (cs.length + 1)) :
    ∃ m₁, m.store dest c = some m₁ ∧ m₁.Holds (src + 1) cs ∧ m₁.Area (dest + 1) cs.length := by
  obtain ⟨y, hy⟩ := hd dest le_rfl (by omega)
  obtain ⟨m₁, hm₁⟩ := exists_store hy c
  have harea : m.Area (dest + 1) cs.length := hd.mono (by omega) (by omega)
  refine ⟨m₁, hm₁, ?_, harea.store hm₁⟩
  apply hs.2.congr
  intro b hlow hhigh
  apply store_of_ne hm₁
  unfold Ascending at h
  omega

theorem copyUp_wrote (hs : m.Holds src cs) (hd : m.Area dest cs.length)
    (h : Ascending dest src cs.length) :
    ∃ m', copyUp cs.length dest src m = some m' ∧ Wrote m m' dest cs := by
  induction cs generalizing dest src m with
  | nil => exact ⟨m, rfl, Wrote.nil m dest⟩
  | cons c cs ih =>
    obtain ⟨m₁, hm₁, hs₁, hd₁⟩ := ascending_step hs hd h
    obtain ⟨m', hm', hwrote⟩ := ih hs₁ hd₁ h.tail
    refine ⟨m', ?_, (Wrote.single hm₁).append hwrote⟩
    simp [copyUp, hs.1, hm₁, hm']

theorem copyDown_wrote (hs : m.Holds src cs) (hd : m.Area dest cs.length)
    (h : src ≤ dest) :
    ∃ m', copyDown cs.length (dest + cs.length) (src + cs.length) m = some m' ∧
      Wrote m m' dest cs := by
  -- the last byte is copied first
  induction cs using List.reverseRecOn generalizing m with
  | nil => exact ⟨m, rfl, Wrote.nil m dest⟩
  | append_singleton cs c ih =>
    obtain ⟨hcs, hc, -⟩ := holds_append.mp hs
    rw [List.length_append, List.length_singleton] at hd ⊢
    obtain ⟨y, hy⟩ := hd (dest + cs.length) (by omega) (by omega)
    obtain ⟨m₁, hm₁⟩ := exists_store hy c
    have hs₁ : m₁.Holds src cs := by
      apply hcs.congr
      intro b hlow hhigh
      exact store_of_ne hm₁ (by omega)
    have hd₁ : m₁.Area dest cs.length := (hd.mono le_rfl (by omega)).store hm₁
    obtain ⟨m', hm', hwrote⟩ := ih hs₁ hd₁
    refine ⟨m', ?_, (Wrote.single hm₁).prepend hwrote⟩
    simp [copyDown, ← Nat.add_assoc, hc, hm₁, hm']

theorem memmove_wrote (hdest : dest ≠ 0) (hsrc : src ≠ 0) (hs : m.Holds src cs)
    (hd : m.Area dest cs.length) :
    ∃ m', memmove dest src cs.length m = some (dest, m') ∧ Wrote m m' dest cs := by
  by_cases hle : dest ≤ src
  · obtain ⟨m', hm', hwrote⟩ := copyUp_wrote hs hd (.inl hle)
    refine ⟨m', ?_, hwrote⟩
    simp [memmove, hdest, hsrc, hle, hm']
  · obtain ⟨m', hm', hwrote⟩ := copyDown_wrote hs hd (by omega)
    refine ⟨m', ?_, hwrote⟩
    simp [memmove, hdest, hsrc, hle, hm']

/-- The areas may overlap: the destination gets the bytes that the source had before the call. -/
theorem memmove_overlapping (m : Memory limit UInt8) {strDest strSrc : ℕ} (size : ℕ)
    (hdest : strDest ≠ 0) (hsrc : strSrc ≠ 0) (hd : m.Area strDest size)
    (hs : m.Area strSrc size) :
    ∃ m', memmove strDest strSrc size m = some (strDest, m') ∧
      (∀ i < size, m'.cells (strDest + i) = m.cells (strSrc + i)) ∧
      ∀ a, a < strDest ∨ strDest + size ≤ a → m'.cells a = m.cells a := by
  obtain ⟨cs, rfl, hcs⟩ := hs.exists_holds
  obtain ⟨m', hm', hwrote⟩ := memmove_wrote hdest hsrc hcs hd
  refine ⟨m', hm', fun i hi => ?_, hwrote.frame⟩
  have hget : cs[i]? = some cs[i] := List.getElem?_eq_getElem hi
  rw [hwrote.holds.cell hget, hcs.cell hget]

theorem memmove_overlapping_up : ∃ m', memmove 257 256 3 (loaded 256 [1, 2, 3, 4]) = some (257, m') ∧
    (∀ i < 3, m'.cells (257 + i) = (loaded 256 [1, 2, 3, 4]).cells (256 + i)) ∧
    ∀ a, a < 257 ∨ 257 + 3 ≤ a → m'.cells a = (loaded 256 [1, 2, 3, 4]).cells a := by
  have hholds : (loaded 256 [1, 2, 3, 4]).Holds 256 ([1, 2, 3, 4] : List UInt8) :=
    ⟨rfl, rfl, rfl, rfl, trivial⟩
  exact memmove_overlapping _ 3 (by decide) (by decide) (hholds.area.mono (by decide) (by decide))
    (hholds.area.mono (by decide) (by decide))

theorem memmove_refines {n a p q k : ℕ} (data : FlashRecord.Bytes n) (ha : a ≠ 0)
    (h : m.Holds a data.1) (hp : p + k ≤ n) (hq : q + k ≤ n) :
    ∃ rest data' m', TsArea.load data p k = some rest ∧ TsArea.store data q rest = some data' ∧
      memmove (a + q) (a + p) k m = some (a + q, m') ∧ m'.Holds a data'.1 := by
  have hlen := data.2
  have hk : ((data.1.drop p).take k).length = k := by
    rw [List.length_take, List.length_drop]
    omega
  have hsrc : m.Holds (a + p) ((data.1.drop p).take k) := (h.drop (by omega)).take k
  have hdest : m.Area (a + q) ((data.1.drop p).take k).length := h.area.mono (by omega) (by omega)
  obtain ⟨m', hm', hwrote⟩ := memmove_wrote (by omega) (by omega) hsrc hdest
  rw [hk] at hm'
  refine ⟨_, _, m', TsArea.load_of_le hp, TsArea.store_of_le (by omega), hm', ?_⟩
  have htake : (data.1.take q).length = q := List.length_take_of_le (by omega)
  rw [FlashRecord.overwrite_eq _ _ _ (by omega), holds_append, holds_append, htake, hk]
  refine ⟨(h.take q).congr fun b _ hb => ?_, hwrote.holds, ?_⟩
  · exact hwrote.frame b (.inl (by omega))
  · rw [Nat.add_assoc]
    refine (h.drop (by omega)).congr fun b hb _ => ?_
    exact hwrote.frame b (.inr (by omega))

theorem memmove_refines_up : ∃ rest data' m',
    TsArea.load (⟨[1, 2, 3, 4], rfl⟩ : FlashRecord.Bytes 4) 0 3 = some rest ∧
      TsArea.store (⟨[1, 2, 3, 4], rfl⟩ : FlashRecord.Bytes 4) 1 rest = some data' ∧
      memmove (256 + 1) (256 + 0) 3 (loaded 256 [1, 2, 3, 4]) = some (256 + 1, m') ∧
      m'.Holds 256 data'.1 :=
  memmove_refines ⟨[1, 2, 3, 4], rfl⟩ (by decide) ⟨rfl, rfl, rfl, rfl, trivial⟩ (by decide) (by decide)

theorem fill_wrote {c : UInt8} {n address : ℕ} (h : m.Area address n) :
    ∃ m', fill c n address m = some m' ∧ Wrote m m' address (List.replicate n c) := by
  induction n generalizing address m with
  | zero => exact ⟨m, rfl, Wrote.nil m address⟩
  | succ n ih =>
    obtain ⟨y, hy⟩ := h address le_rfl (by omega)
    obtain ⟨m₁, hm₁⟩ := exists_store hy c
    have hrest : m.Area (address + 1) n := h.mono (by omega) (by omega)
    obtain ⟨m', hm', hwrote⟩ := ih (hrest.store hm₁)
    refine ⟨m', ?_, (Wrote.single hm₁).append hwrote⟩
    simp [fill, hm₁, hm']

theorem memset_wrote {str n : ℕ} (c : Int) (hstr : str ≠ 0) (h : m.Area str n) :
    ∃ m', memset str c n m = some (str, m') ∧
      Wrote m m' str (List.replicate n (UInt8.ofInt c)) := by
  obtain ⟨m', hm', hwrote⟩ := fill_wrote (c := UInt8.ofInt c) h
  refine ⟨m', ?_, hwrote⟩
  simp [memset, hstr, hm']

structure Terminated (m : Memory limit UInt8) (a : ℕ) (s : List UInt8) : Prop where
  holds : m.Holds a (s ++ [0])
  chars : 0 ∉ s

theorem Terminated.chars_held {a : ℕ} (h : Terminated m a s) : m.Holds a s :=
  (holds_append.mp h.holds).1

theorem Terminated.nul {a : ℕ} (h : Terminated m a s) : m.cells (a + s.length) = some 0 :=
  (holds_append.mp h.holds).2.1

theorem strEnd_eq {a fuel : ℕ} (h : Terminated m a s) (hfuel : s.length < fuel) :
    strEnd m fuel a = some (a + s.length) := by
  induction s generalizing a fuel with
  | nil =>
    obtain ⟨fuel, rfl⟩ := Nat.exists_eq_add_one.mpr hfuel
    have hnul : m.cells a = some 0 := h.nul
    simp [strEnd, hnul]
  | cons c s ih =>
    obtain ⟨fuel, rfl⟩ := Nat.exists_eq_add_one.mpr (Nat.zero_lt_of_lt hfuel)
    have hne : c ≠ 0 := (List.ne_of_not_mem_cons h.chars).symm
    have hrest := ih ⟨h.holds.2, List.not_mem_of_not_mem_cons h.chars⟩ (Nat.lt_of_succ_lt_succ hfuel)
    simp [strEnd, h.holds.1, hne, hrest, Nat.add_assoc, Nat.add_comm 1]

theorem copyString_chars (hs : m.Holds src cs) (hchars : 0 ∉ cs)
    (hd : m.Area dest cs.length) (h : Ascending dest src cs.length) :
    ∃ m', Wrote m m' dest cs ∧ ∀ k, copyString (cs.length + k) dest src m =
      copyString k (dest + cs.length) (src + cs.length) m' := by
  induction cs generalizing dest src m with
  | nil =>
    refine ⟨m, Wrote.nil m dest, fun k => ?_⟩
    simp
  | cons c cs ih =>
    have hne : c ≠ 0 := (List.ne_of_not_mem_cons hchars).symm
    obtain ⟨m₁, hm₁, hs₁, hd₁⟩ := ascending_step hs hd h
    obtain ⟨m', hwrote, hcopy⟩ := ih hs₁ (List.not_mem_of_not_mem_cons hchars) hd₁ h.tail
    refine ⟨m', (Wrote.single hm₁).append hwrote, fun k => ?_⟩
    rw [List.length_cons, Nat.add_right_comm]
    simp [copyString, hs.1, hm₁, hne, hcopy, Nat.add_assoc, Nat.add_comm 1]

theorem ascending_end {k : ℕ} (hend : m.cells dest = some 0) (hs : m.Holds src s)
    (hchars : 0 ∉ s) (hk : k ≤ s.length) : Ascending dest src k := by
  by_contra h
  unfold Ascending at h
  obtain ⟨i, rfl⟩ : ∃ i, dest = src + i := ⟨dest - src, by omega⟩
  have hi : i < s.length := by omega
  rw [hs.cell (List.getElem?_eq_getElem hi), Option.some.injEq] at hend
  exact hchars (hend ▸ List.getElem_mem hi)

theorem copyString_succ {size last : ℕ} (h : copyString (size + 1) dest src m = some (last, m₁)) :
    ∃ c m₂ k, m.store dest c = some m₂ ∧ k ≤ size ∧
      copyString k (dest + 1) (src + 1) m₂ = some (last, m₁) := by
  simp only [copyString, Option.bind_eq_bind, Option.bind_eq_some_iff] at h
  obtain ⟨c, -, m₂, hm₂, h⟩ := h
  split at h
  · exact ⟨c, m₂, 0, hm₂, Nat.zero_le size, h⟩
  · exact ⟨c, m₂, size, hm₂, le_rfl, h⟩

theorem copyString_written {size last : ℕ} (h : copyString size dest src m = some (last, m₁))
    (hnul : m₁.store last 0 = some m') :
    ∃ ws, m'.written = ws ++ m.written ∧ dest ∈ ws := by
  induction size using Nat.strong_induction_on generalizing dest src m with
  | _ size ih =>
    cases size with
    | zero =>
      simp only [copyString, Option.some.injEq, Prod.mk.injEq] at h
      obtain ⟨rfl, rfl⟩ := h
      exact ⟨[dest], store_written hnul, List.mem_singleton_self dest⟩
    | succ size =>
      obtain ⟨c, m₂, k, hm₂, hk, h⟩ := copyString_succ h
      obtain ⟨ws, hws, -⟩ := ih k (Nat.lt_succ_of_le hk) h
      refine ⟨ws ++ [dest], ?_, by simp⟩
      rw [hws, store_written hm₂, List.append_assoc]
      rfl

def Appends (m : Memory limit UInt8) (strDest strSrc size : ℕ) (d s : List UInt8) : Prop :=
  ∃ m', strncat strDest strSrc size m = some (strDest, m') ∧
    m'.Holds strDest (d ++ s.take size ++ [0]) ∧
    ∃ ws, m'.written = ws ++ m.written ∧
      ∀ a ∈ ws, strDest + d.length ≤ a ∧ a ≤ strDest + d.length + min s.length size

section

variable {strDest strSrc size : ℕ} (hdest : strDest ≠ 0) (hsrc : strSrc ≠ 0)
  (hd : Terminated m strDest d)

include hdest hsrc hd

theorem strncat_some_iff : strncat strDest strSrc size m = some (strDest, m') ↔
    ∃ last m₁, copyString size (strDest + d.length) strSrc m = some (last, m₁) ∧
      m₁.store last 0 = some m' := by
  have hlen : d.length < limit := by
    have hlt := lt_limit hd.nul
    omega
  simp [strncat, hdest, hsrc, strEnd_eq hd hlen, Option.bind_eq_some_iff]

variable (hs : Terminated m strSrc s)

include hs

theorem strncat_appends (hroom : m.Area (strDest + d.length) (size + 1)) (hsize : size ≤ s.length) :
    ∃ m', strncat strDest strSrc size m = some (strDest, m') ∧
      Wrote m m' (strDest + d.length) (s.take size ++ [0]) := by
  have hlen : (s.take size).length = size := List.length_take_of_le hsize
  have hasc := ascending_end hd.nul hs.chars_held hs.chars hsize
  have hchars : 0 ∉ s.take size := fun h => hs.chars (List.mem_of_mem_take h)
  obtain ⟨m₁, hwrote, hcopy⟩ := copyString_chars (hs.chars_held.take size) hchars
    (hlen.symm ▸ hroom.mono le_rfl (by omega)) (hlen.symm ▸ hasc)
  have hend : m₁.cells (strDest + d.length + (s.take size).length) =
      m.cells (strDest + d.length + (s.take size).length) := hwrote.frame _ (.inr le_rfl)
  obtain ⟨y, hy⟩ := hroom (strDest + d.length + (s.take size).length) (by omega) (by omega)
  obtain ⟨m', hm'⟩ := exists_store (hend.trans hy) 0
  refine ⟨m', ?_, hwrote.append (Wrote.single hm')⟩
  rw [strncat_some_iff hdest hsrc hd]
  refine ⟨_, m₁, ?_, hm'⟩
  have hcopy₀ := hcopy 0
  rw [Nat.add_zero, hlen] at hcopy₀
  rw [hcopy₀, hlen]
  rfl

theorem strncat_past (hroom : m.Area (strDest + d.length) s.length) (hsize : s.length < size)
    (h : strncat strDest strSrc size m = some (strDest, m')) :
    ∃ ws, m'.written = ws ++ m.written ∧ strDest + d.length + s.length + 1 ∈ ws := by
  obtain ⟨last, m₂, hcopy, hnul⟩ := (strncat_some_iff hdest hsrc hd).mp h
  have hasc := ascending_end hd.nul hs.chars_held hs.chars le_rfl
  obtain ⟨m₁, hwrote, hchars⟩ := copyString_chars hs.chars_held hs.chars hroom hasc
  obtain ⟨k, rfl⟩ : ∃ k, size = s.length + (k + 1) := ⟨size - s.length - 1, by omega⟩
  rw [hchars] at hcopy
  -- whatever the next byte is now, it is copied, and the address behind it is written as well
  obtain ⟨c, m₃, j, hm₃, -, hrest⟩ := copyString_succ hcopy
  obtain ⟨ws₁, hws₁, -⟩ := hwrote.written
  obtain ⟨ws₂, hws₂, hmem⟩ := copyString_written hrest hnul
  refine ⟨ws₂ ++ (strDest + d.length + s.length) :: ws₁, ?_, List.mem_append_left _ hmem⟩
  rw [hws₂, store_written hm₃, hws₁, List.append_assoc]
  rfl

/-- With a limit above the length of the source a second NUL is written behind the first. -/
theorem strncat_appends_iff (hroom : m.Area (strDest + d.length) (min s.length size + 1)) :
    Appends m strDest strSrc size d s ↔ size ≤ s.length := by
  constructor
  · rintro ⟨m', hcall, -, ws, hws, hmem⟩
    by_contra hsize
    rw [not_le] at hsize
    rw [min_eq_left hsize.le] at hroom hmem
    obtain ⟨ws', hws', hpast⟩ :=
      strncat_past hdest hsrc hd hs (hroom.mono le_rfl (by omega)) hsize hcall
    obtain rfl : ws = ws' := List.append_cancel_right (hws.symm.trans hws')
    have hrange := hmem _ hpast
    omega
  · intro hsize
    rw [min_eq_right hsize] at hroom
    obtain ⟨m', hcall, hwrote⟩ := strncat_appends hdest hsrc hd hs hroom hsize
    obtain ⟨ws, hws, hmem⟩ := hwrote.written
    refine ⟨m', hcall, ?_, ws, hws, fun a ha => ?_⟩
    · rw [List.append_assoc, holds_append]
      refine ⟨hd.chars_held.congr fun b _ hb => ?_, hwrote.holds⟩
      exact hwrote.frame b (.inl hb)
    · have hrange := (hmem a).mp ha
      rw [List.length_append, List.length_take_of_le hsize, List.length_singleton] at hrange
      rw [min_eq_right hsize]
      omega

end

theorem strncat_appends_whole :
    Appends (loaded 256 [97, 98, 0, 9, 7, 99, 0]) 256 261 1 [97, 98] [99] := by
  have hd : Terminated (loaded 256 [97, 98, 0, 9, 7, 99, 0]) 256 [97, 98] :=
    ⟨⟨rfl, rfl, rfl, trivial⟩, by decide⟩
  have hs : Terminated (loaded 256 [97, 98, 0, 9, 7, 99, 0]) 261 [99] :=
    ⟨⟨rfl, rfl, trivial⟩, by decide⟩
  have hroom : (loaded 256 [97, 98, 0, 9, 7, 99, 0]).Holds 258 ([0, 9] : List UInt8) :=
    ⟨rfl, rfl, trivial⟩
  exact (strncat_appends_iff (by decide) (by decide) hd hs hroom.area).mpr le_rfl

theorem strncat_second_nul :
    (strncat 256 261 5 (loaded 256 [97, 98, 0, 9, 7, 99, 0])).map (fun r => r.2.written) =
        some [260, 259, 258] ∧
      ¬ Appends (loaded 256 [97, 98, 0, 9, 7, 99, 0]) 256 261 5 [97, 98] [99] := by
  have hwritten : (strncat 256 261 5 (loaded 256 [97, 98, 0, 9, 7, 99, 0])).map
      (fun r => r.2.written) = some [260, 259, 258] := by decide +kernel
  refine ⟨hwritten, ?_⟩
  rintro ⟨m', hcall, -, ws, hws, hmem⟩
  rw [hcall, Option.map_some, Option.some.injEq] at hwritten
  have hlast : 260 ∈ ws := by
    rw [hwritten] at hws
    simpa [loaded] using congrArg (260 ∈ ·) hws
  have hrange := hmem 260 hlast
  simp at hrange

end SynaBoot.StringLib
