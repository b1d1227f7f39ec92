import SynaBoot.FlashTs

namespace SynaBoot.FlashSlots

open SynaBoot.PowerCut SynaBoot.FlashDevice SynaBoot.FlashRecord SynaBoot.FlashTs

structure Usable (g : Geometry) : Prop where
  page : ∃ w, 9 ≤ w ∧ w ≤ 13 ∧ g.pageSize = 2 ^ w
  block : ∃ e, 14 ≤ e ∧ g.blockSize = 2 ^ e

def pages (g : Geometry) : Nat := flashTsMaxSize / g.pageSize

def perBlock (g : Geometry) : Nat := g.blockSize / flashTsMaxSize

def slots (g : Geometry) : Nat := g.blocks * perBlock g

theorem maxSize_eq : flashTsMaxSize = 2 ^ 14 := rfl

theorem maxSize_pos : 0 < flashTsMaxSize := by decide

section

variable {g : Geometry} (hg : Usable g)
include hg

theorem pageSize_pos : 0 < g.pageSize := by
  obtain ⟨w, -, -, hw⟩ := hg.page
  rw [hw]
  exact Nat.two_pow_pos w

theorem pages_mul : pages g * g.pageSize = flashTsMaxSize := by
  obtain ⟨w, h1, h2, hw⟩ := hg.page
  rw [pages, hw, maxSize_eq]
  exact Nat.div_mul_cancel (Nat.pow_dvd_pow 2 (by omega))

theorem pages_pos : 0 < pages g := by
  refine Nat.pos_of_ne_zero fun h => ?_
  have hm := pages_mul hg
  rw [h, Nat.zero_mul] at hm
  exact absurd hm (by decide)

theorem perBlock_mul : perBlock g * flashTsMaxSize = g.blockSize := by
  obtain ⟨e, he, hb⟩ := hg.block
  rw [perBlock, hb, maxSize_eq]
  exact Nat.div_mul_cancel (Nat.pow_dvd_pow 2 he)

theorem perBlock_pos : 0 < perBlock g := by
  refine Nat.pos_of_ne_zero fun h => ?_
  have hm := perBlock_mul hg
  obtain ⟨e, -, hb⟩ := hg.block
  have hpos := Nat.two_pow_pos e
  rw [h, hb] at hm
  omega

theorem chunk_eq : chunk g = flashTsMaxSize := by
  obtain ⟨w, h1, h2, hw⟩ := hg.page
  rw [chunk, hw]
  interval_cases w <;> decide

theorem transferable_eq : transferable g = true := by
  obtain ⟨w, h1, h2, hw⟩ := hg.page
  rw [transferable, hw]
  interval_cases w <;> decide

theorem partitionSize_eq : partitionSize g = slots g * flashTsMaxSize := by
  rw [partitionSize, slots, Nat.mul_assoc, perBlock_mul hg]

theorem and_blockSize (x : Nat) : x &&& (g.blockSize - 1) = x % g.blockSize := by
  obtain ⟨e, -, hb⟩ := hg.block
  rw [hb, Nat.and_two_pow_sub_one_eq_mod]

theorem slot_mod (s : Nat) :
    s * flashTsMaxSize % g.blockSize = s % perBlock g * flashTsMaxSize := by
  rw [← perBlock_mul hg, Nat.mul_mod_mul_right]

theorem isNewBlock_slot (s : Nat) : isNewBlock g (s * flashTsMaxSize) = decide (s % perBlock g = 0) := by
  rw [isNewBlock, and_blockSize hg, slot_mod hg, ← Bool.beq_eq_decide_eq, beq_eq_beq,
    Nat.mul_eq_zero, or_iff_left maxSize_pos.ne']

theorem alignDown_slot (s : Nat) :
    alignDown (s * flashTsMaxSize) g.blockSize = s / perBlock g * g.blockSize := by
  rw [alignDown, and_blockSize hg, slot_mod hg, ← Nat.sub_mul, ← perBlock_mul hg, ← Nat.mul_assoc]
  congr 1
  have h := Nat.div_add_mod s (perBlock g)
  rw [Nat.mul_comm] at h
  omega

theorem slot_add_block (s : Nat) :
    s * flashTsMaxSize + g.blockSize = (s + perBlock g) * flashTsMaxSize := by
  rw [Nat.add_mul, perBlock_mul hg]

theorem alignDown_next (s : Nat) :
    alignDown (s * flashTsMaxSize + g.blockSize) g.blockSize = (s / perBlock g + 1) * g.blockSize := by
  rw [slot_add_block hg, alignDown_slot hg, Nat.add_div_right _ (perBlock_pos hg)]

theorem block_eq_slot (b : Nat) : b * g.blockSize = b * perBlock g * flashTsMaxSize := by
  rw [Nat.mul_assoc, perBlock_mul hg]

theorem alignDown_chunk (n : Nat) (h1 : 0 < n) (h2 : n ≤ flashTsMaxSize) :
    alignDown (n + chunk g - 1) (chunk g) = flashTsMaxSize := by
  rw [alignDown, chunk_eq hg, maxSize_eq, Nat.and_two_pow_sub_one_eq_mod]
  rw [maxSize_eq] at h2
  omega

end

def slotAddr (g : Geometry) (s : Nat) : Nat := base g + s * flashTsMaxSize

def chunkAt (g : Geometry) (f : Flash) (s : Nat) : List UInt8 := load f (slotAddr g s) flashTsMaxSize

theorem length_load (f : Flash) (a n : Nat) : (load f a n).length = n := by
  simp [load]

theorem getElem_load (f : Flash) (a n i : Nat) (h : i < (load f a n).length) :
    (load f a n)[i] = f (a + i) := by
  simp [load]

theorem length_chunkAt (g : Geometry) (f : Flash) (s : Nat) :
    (chunkAt g f s).length = flashTsMaxSize := length_load _ _ _

theorem load_congr {f f' : Flash} {a n : Nat} (h : ∀ i < n, f' (a + i) = f (a + i)) :
    load f' a n = load f a n := by
  apply List.map_congr_left
  intro i hi
  exact h i (List.mem_range.mp hi)

theorem load_append (f : Flash) (a m n : Nat) :
    load f a (m + n) = load f a m ++ load f (a + m) n := by
  apply List.ext_getElem
  · simp [length_load]
  · intro i h1 h2
    rw [getElem_load]
    by_cases hi : i < m
    · rw [List.getElem_append_left (by rwa [length_load]), getElem_load]
    · rw [List.getElem_append_right (by rw [length_load]; omega), getElem_load, length_load]
      congr 1
      omega

theorem store_nil (f : Flash) (a : Nat) : store f a [] = f := by
  funext x
  rw [store, if_neg]
  simp only [List.length_nil]
  omega

theorem store_append (f : Flash) (a : Nat) (xs ys : List UInt8) :
    store (store f a xs) (a + xs.length) ys = store f a (xs ++ ys) := by
  funext x
  simp only [store, List.length_append]
  by_cases h1 : a ≤ x ∧ x < a + xs.length
  · rw [if_neg (by omega), if_pos h1, if_pos (by omega), List.getD_eq_getElem?_getD,
      List.getD_eq_getElem?_getD, List.getElem?_append_left (by omega)]
  · by_cases h2 : a + xs.length ≤ x ∧ x < a + xs.length + ys.length
    · rw [if_pos h2, if_pos (by omega), List.getD_eq_getElem?_getD, List.getD_eq_getElem?_getD,
        List.getElem?_append_right (by omega)]
      congr 2
      omega
    · rw [if_neg h2, if_neg h1, if_neg (by omega)]

variable {xs : List UInt8}

theorem load_store_disjoint (f : Flash) {a b n : Nat} (h : b + n ≤ a ∨ a + xs.length ≤ b) :
    load (store f a xs) b n = load f b n := by
  apply load_congr
  intro i hi
  rw [store, if_neg]
  omega

theorem load_store (f : Flash) {a n : Nat} (h : xs.length ≤ n) :
    load (store f a xs) a n = xs ++ (load f a n).drop xs.length := by
  apply List.ext_getElem
  · simp only [length_load, List.length_append, List.length_drop]
    omega
  · intro i h1 h2
    rw [getElem_load, store]
    by_cases hi : i < xs.length
    · rw [if_pos (by omega), List.getElem_append_left hi, Nat.add_sub_cancel_left,
        List.getD_eq_getElem _ _ hi]
    · rw [if_neg (by omega), List.getElem_append_right (by omega), List.getElem_drop, getElem_load]
      congr 1
      omega

theorem slot_disjoint {s s' : Nat} (h : s ≠ s') {n : Nat} (hn : n ≤ flashTsMaxSize) (g : Geometry) :
    slotAddr g s' + flashTsMaxSize ≤ slotAddr g s ∨ slotAddr g s + n ≤ slotAddr g s' := by
  rcases Nat.lt_or_gt_of_ne h with hlt | hlt
  · right
    have hm := Nat.mul_le_mul_right flashTsMaxSize (Nat.succ_le_of_lt hlt)
    rw [Nat.succ_mul] at hm
    simp only [slotAddr]
    omega
  · left
    have hm := Nat.mul_le_mul_right flashTsMaxSize (Nat.succ_le_of_lt hlt)
    rw [Nat.succ_mul] at hm
    simp only [slotAddr]
    omega

theorem chunkAt_store_ne (g : Geometry) (f : Flash) {s s' : Nat} (h : s' ≠ s)
    (hx : xs.length ≤ flashTsMaxSize) : chunkAt g (store f (slotAddr g s) xs) s' = chunkAt g f s' :=
  load_store_disjoint f (slot_disjoint h.symm hx g)

theorem chunkAt_store (g : Geometry) (f : Flash) (s : Nat) (hx : xs.length ≤ flashTsMaxSize) :
    chunkAt g (store f (slotAddr g s) xs) s = xs ++ (chunkAt g f s).drop xs.length :=
  load_store f hx

def SamePage (g : Geometry) (p : Nat) (c d : List UInt8) : Prop :=
  ∀ i < g.pageSize, c.getD (p * g.pageSize + i) 0 = d.getD (p * g.pageSize + i) 0

def erasedChunk (g : Geometry) : List UInt8 := List.replicate flashTsMaxSize g.erased

theorem length_erasedChunk (g : Geometry) : (erasedChunk g).length = flashTsMaxSize := by
  simp [erasedChunk]

variable {g : Geometry}

theorem SamePage.rfl {p : Nat} {c : List UInt8} : SamePage g p c c :=
  fun _ _ => Eq.refl _

theorem SamePage.symm {p : Nat} {c d : List UInt8} (h : SamePage g p c d) : SamePage g p d c :=
  fun i hi => (h i hi).symm

theorem SamePage.trans {p : Nat} {c d e : List UInt8} (h : SamePage g p c d) (h' : SamePage g p d e) :
    SamePage g p c e :=
  fun i hi => (h i hi).trans (h' i hi)

theorem getD_chunkAt (g : Geometry) (f : Flash) (s : Nat) {i : Nat} (hi : i < flashTsMaxSize) :
    (chunkAt g f s).getD i 0 = f (slotAddr g s + i) := by
  have hlt : i < (load f (slotAddr g s) flashTsMaxSize).length := by rwa [length_load]
  rw [chunkAt, List.getD_eq_getElem _ _ hlt, getElem_load]

theorem getD_erasedChunk (g : Geometry) {i : Nat} (hi : i < flashTsMaxSize) :
    (erasedChunk g).getD i 0 = g.erased := by
  rw [erasedChunk, List.getD_eq_getElem?_getD, List.getElem?_replicate, if_pos hi, Option.getD_some]

section

variable {g : Geometry} (hg : Usable g)
include hg

theorem page_lt {p i : Nat} (hp : p < pages g) (hi : i < g.pageSize) :
    p * g.pageSize + i < flashTsMaxSize := by
  have h := Nat.mul_le_mul_right g.pageSize (Nat.succ_le_of_lt hp)
  rw [pages_mul hg, Nat.succ_mul] at h
  omega

variable {i : Nat}

theorem getD_of_samePage {c d : List UInt8} (h : SamePage g (i / g.pageSize) c d) :
    c.getD i 0 = d.getD i 0 := by
  have hm := h (i % g.pageSize) (Nat.mod_lt _ (pageSize_pos hg))
  rwa [Nat.mul_comm, Nat.div_add_mod] at hm

theorem page_index_lt (hi : i < flashTsMaxSize) : i / g.pageSize < pages g := by
  rw [Nat.div_lt_iff_lt_mul (pageSize_pos hg), pages_mul hg]
  exact hi

theorem eq_of_samePages {c d : List UInt8} (hc : c.length = flashTsMaxSize)
    (hd : d.length = flashTsMaxSize) (h : ∀ p < pages g, SamePage g p c d) : c = d := by
  apply List.ext_getElem (hc.trans hd.symm)
  intro i h1 h2
  have hi := getD_of_samePage hg (h _ (page_index_lt hg (hc ▸ h1)))
  rwa [List.getD_eq_getElem _ _ h1, List.getD_eq_getElem _ _ h2] at hi

theorem slot_div (s : Nat) (hi : i < flashTsMaxSize) :
    (s * flashTsMaxSize + i) / g.blockSize = s / perBlock g := by
  rw [← perBlock_mul hg, Nat.mul_comm (perBlock g), ← Nat.div_div_eq_div_mul,
    Nat.add_comm, Nat.add_mul_div_right _ _ maxSize_pos, Nat.div_eq_of_lt hi, Nat.zero_add]

theorem mem_block_iff (s b : Nat) (hi : i < flashTsMaxSize) :
    (base g + b * g.blockSize ≤ slotAddr g s + i ∧
      slotAddr g s + i < base g + b * g.blockSize + g.blockSize) ↔ s / perBlock g = b := by
  obtain ⟨e, -, he⟩ := hg.block
  have hpos : 0 < g.blockSize := by
    rw [he]
    exact Nat.two_pow_pos e
  rw [← slot_div hg s hi, Nat.div_eq_iff hpos]
  simp only [slotAddr]
  omega

theorem chunkAt_erase_ne (f : Flash) (mask : Nat → Bool) {s b : Nat} (h : s / perBlock g ≠ b) :
    chunkAt g (eraseWhere g mask f (base g + b * g.blockSize)) s = chunkAt g f s := by
  apply load_congr
  intro i hi
  have hm := mem_block_iff hg s b hi
  rw [eraseWhere, if_neg]
  exact fun hc => h (hm.mp ⟨hc.1, hc.2.1⟩)

theorem page_in_block (s : Nat) {p i : Nat} (hi : i < g.pageSize) :
    (slotAddr g s + (p * g.pageSize + i) - (base g + s / perBlock g * g.blockSize)) / g.pageSize =
      s % perBlock g * pages g + p := by
  have hs : slotAddr g s + (p * g.pageSize + i) - (base g + s / perBlock g * g.blockSize) =
      i + (s % perBlock g * pages g + p) * g.pageSize := by
    have hd := Nat.div_add_mod s (perBlock g)
    have hm : s * flashTsMaxSize =
        s / perBlock g * g.blockSize + s % perBlock g * pages g * g.pageSize := by
      rw [Nat.mul_assoc (s % perBlock g), pages_mul hg, ← perBlock_mul hg, ← Nat.mul_assoc,
        ← Nat.add_mul, Nat.mul_comm _ (perBlock g), hd]
    rw [Nat.add_mul, slotAddr, hm]
    omega
  rw [hs, Nat.add_mul_div_right _ _ (pageSize_pos hg), Nat.div_eq_of_lt hi, Nat.zero_add]

theorem samePage_erase (f : Flash) (mask : Nat → Bool) (s : Nat) {p : Nat} (hp : p < pages g) :
    SamePage g p (chunkAt g (eraseWhere g mask f (base g + s / perBlock g * g.blockSize)) s)
      (if mask (s % perBlock g * pages g + p) then erasedChunk g else chunkAt g f s) := by
  intro i hi
  have hlt := page_lt hg hp hi
  obtain ⟨h1, h2⟩ := (mem_block_iff hg s _ hlt).mpr rfl
  rw [getD_chunkAt g _ s hlt, eraseWhere, page_in_block hg s hi]
  by_cases hm : mask (s % perBlock g * pages g + p) = true
  · rw [if_pos ⟨h1, h2, hm⟩, if_pos hm, getD_erasedChunk g hlt]
  · rw [if_neg (fun hc => hm hc.2.2), if_neg hm, getD_chunkAt g f s hlt]

theorem chunkAt_erase (f : Flash) (s : Nat) :
    chunkAt g (eraseWhere g (fun _ => true) f (base g + s / perBlock g * g.blockSize)) s =
      erasedChunk g := by
  refine eq_of_samePages hg (length_chunkAt g _ s) (length_erasedChunk g) ?_
  intro p hp
  exact samePage_erase hg f _ s hp

end

end SynaBoot.FlashSlots
