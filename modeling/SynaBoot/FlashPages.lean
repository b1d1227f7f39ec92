import SynaBoot.FlashCommit

namespace SynaBoot.FlashPages

open SynaBoot.PowerCut SynaBoot.FlashDevice SynaBoot.FlashRecord SynaBoot.FlashTs
open SynaBoot.FlashSlots SynaBoot.FlashDriver SynaBoot.FlashScan SynaBoot.FlashCommit

structure Mixture (g : Geometry) (S : Set FlashTs) (c : List UInt8) : Prop where
  length : c.length = flashTsMaxSize
  page : ∀ p < pages g, SamePage g p c (erasedChunk g) ∨ ∃ r ∈ S, SamePage g p c (toBytes r)

/-- A mixture that passes the check agrees with its first page's record. -/
def CrcRejectsMixtures (g : Geometry) (S : Set FlashTs) : Prop :=
  ∀ c, Mixture g S c → ∀ r ∈ S, SamePage g 0 c (toBytes r) →
    flashTsCheckHeader (ofBytes c) ≠ 0 → Agrees c r

def Wiped (g : Geometry) (c c' : List UInt8) : Prop :=
  ∀ p < pages g, SamePage g p c' (erasedChunk g) ∨ SamePage g p c' c

def Provenance (g : Geometry) (S : Set FlashTs) (f : Flash) : Prop :=
  ∀ s, Good g s → Mixture g S (chunkAt g f s)

theorem Mixture.wiped {g : Geometry} {S : Set FlashTs} {c c' : List UInt8} (h : Mixture g S c)
    (hw : Wiped g c c') (hl : c'.length = flashTsMaxSize) : Mixture g S c' := by
  refine ⟨hl, fun p hp => ?_⟩
  rcases hw p hp with he | hs
  · exact .inl he
  · rcases h.page p hp with he | ⟨r, hr, hrp⟩
    · exact .inl (hs.trans he)
    · exact .inr ⟨r, hr, hs.trans hrp⟩

theorem Provenance.mono {g : Geometry} {S T : Set FlashTs} (hST : S ⊆ T) {f : Flash}
    (h : Provenance g S f) : Provenance g T f := by
  refine fun s hs => ⟨(h s hs).length, fun p hp => ?_⟩
  rcases (h s hs).page p hp with he | ⟨r, hr, hrp⟩
  · exact .inl he
  · exact .inr ⟨r, hST hr, hrp⟩

section

variable {g : Geometry} (hg : Usable g)
include hg

theorem header_in_page : flashTsHdrSize ≤ g.pageSize := by
  obtain ⟨w, h1, -, hw⟩ := hg.page
  rw [hw]
  exact le_trans (by decide : flashTsHdrSize ≤ 2 ^ 9) (Nat.pow_le_pow_right (by decide) h1)

variable {c d : List UInt8}

theorem getD_head (h : SamePage g 0 c d) {i : Nat} (hi : i < flashTsHdrSize) :
    c.getD i 0 = d.getD i 0 := by
  have hm := h i (lt_of_lt_of_le hi (header_in_page hg))
  rwa [Nat.zero_mul, Nat.zero_add] at hm

theorem word_head (h : SamePage g 0 c d) {i : Nat} (hi : i + 4 ≤ flashTsHdrSize) :
    word c i = word d i :=
  word_congr fun _ _ hj => getD_head hg h (by omega)

theorem version_head (h : SamePage g 0 c d) :
    (ofBytes c).version = (ofBytes d).version := word_head hg h (by decide)

theorem magic_head (h : SamePage g 0 c d) :
    (ofBytes c).magic = (ofBytes d).magic := word_head hg h (by decide)

omit hg in
theorem magic_erasedChunk (g : Geometry) : (ofBytes (erasedChunk g)).magic ≠ flashTsMagic := by
  have h : ∀ i < 4, (erasedChunk g).getD i 0 = g.erased :=
    fun i hi => getD_erasedChunk g (lt_trans hi (by decide))
  have hw : (ofBytes (erasedChunk g)).magic = word (erasedChunk g) 0 := rfl
  rw [hw, word, h 0 (by decide), h (0 + 1) (by decide), h (0 + 2) (by decide), h (0 + 3) (by decide)]
  rcases g.erased_blank with he | he <;> rw [he] <;> decide

theorem check_of_erased_head {c : List UInt8} (h : SamePage g 0 c (erasedChunk g)) :
    flashTsCheckHeader (ofBytes c) = 0 := by
  refine if_neg fun hc => magic_erasedChunk g ?_
  rw [← magic_head hg h]
  exact hc.1

theorem wiped_erasedBlock (mask : Nat → Bool) (f : Flash) (s₀ s : Nat) :
    Wiped g (chunkAt g f s) (chunkAt g (erasedBlock g mask f s₀) s) := by
  intro p hp
  by_cases hb : s / perBlock g = s₀ / perBlock g
  · have h := samePage_erase hg f mask s hp
    rw [hb] at h
    split at h
    · exact .inl h
    · exact .inr h
  · right
    rw [erasedBlock, chunkAt_erase_ne hg f mask hb]
    exact SamePage.rfl

theorem chunkAt_erasedBlock_ne (mask : Nat → Bool) (f : Flash) {s₀ s : Nat}
    (h : s / perBlock g ≠ s₀ / perBlock g) :
    chunkAt g (erasedBlock g mask f s₀) s = chunkAt g f s :=
  chunkAt_erase_ne hg f mask h

theorem chunkAt_erasedBlock (f : Flash) {s₀ s : Nat} (h : s / perBlock g = s₀ / perBlock g) :
    chunkAt g (erasedBlock g (fun _ => true) f s₀) s = erasedChunk g := by
  rw [erasedBlock, ← h]
  exact chunkAt_erase hg f s

theorem samePage_take_append (hd : d.length = flashTsMaxSize) {j : Nat} (hj : j ≤ pages g) {p : Nat} :
    SamePage g p (d.take (j * g.pageSize) ++ c.drop (j * g.pageSize)) (if p < j then d else c) := by
  have hlen : (d.take (j * g.pageSize)).length = j * g.pageSize := by
    rw [List.length_take, hd, ← pages_mul hg]
    exact min_eq_left (Nat.mul_le_mul_right _ hj)
  intro i hi
  rw [List.getD_eq_getElem?_getD, List.getD_eq_getElem?_getD]
  split
  · next hp =>
    have hlt : p * g.pageSize + i < j * g.pageSize := by
      have := Nat.mul_le_mul_right g.pageSize (Nat.succ_le_of_lt hp)
      rw [Nat.succ_mul] at this
      omega
    rw [List.getElem?_append_left (by omega), List.getElem?_take, if_pos hlt]
  · next hp =>
    have hge : j * g.pageSize ≤ p * g.pageSize := Nat.mul_le_mul_right _ (Nat.le_of_not_lt hp)
    rw [List.getElem?_append_right (by omega), hlen, List.getElem?_drop]
    congr 2
    omega

theorem samePage_written (r : FlashTs) (wr : Nat → Outcome) (f : Flash) (s p : Nat) :
    SamePage g p (chunkAt g (written g r wr f s) s)
      (if p < stored wr (pages g) 0 then toBytes r else chunkAt g f s) := by
  have hle := stored_le wr (pages g) 0
  have hlen : ((toBytes r).take (stored wr (pages g) 0 * g.pageSize)).length =
      stored wr (pages g) 0 * g.pageSize := by
    rw [List.length_take, length_toBytes, ← pages_mul hg]
    exact min_eq_left (Nat.mul_le_mul_right _ hle)
  rw [written, chunkAt_store g f s (length_take_stored r _), hlen]
  exact samePage_take_append hg (length_toBytes r) hle

omit hg in
theorem chunkAt_written_ne (r : FlashTs) (wr : Nat → Outcome) (f : Flash) {s s' : Nat}
    (h : s' ≠ s) : chunkAt g (written g r wr f s) s' = chunkAt g f s' :=
  chunkAt_store_ne g f h (length_take_stored r _)

variable {S : Set FlashTs} {f : Flash}

theorem Provenance.erasedBlock (h : Provenance g S f) (mask : Nat → Bool) (s₀ : Nat) :
    Provenance g S (erasedBlock g mask f s₀) :=
  fun s hs => (h s hs).wiped (wiped_erasedBlock hg mask f s₀ s) (length_chunkAt g _ s)

theorem Provenance.entered (h : Provenance g S f) (s₀ : Nat) : Provenance g S (entered g f s₀) := by
  unfold FlashCommit.entered
  split
  · exact h.erasedBlock hg _ s₀
  · exact h

theorem Provenance.written (h : Provenance g S f) {r : FlashTs} (hr : r ∈ S) (wr : Nat → Outcome)
    (s₀ : Nat) : Provenance g S (written g r wr f s₀) := by
  intro s hs
  by_cases hne : s = s₀
  · subst hne
    refine ⟨length_chunkAt g _ s, fun p hp => ?_⟩
    have hw := samePage_written hg r wr f s p
    split at hw
    · exact .inr ⟨r, hr, hw⟩
    · rcases (h s hs).page p hp with he | ⟨r', hr', hp'⟩
      · exact .inl (hw.trans he)
      · exact .inr ⟨r', hr', hw.trans hp'⟩
  · rw [chunkAt_written_ne r wr f hne]
    exact h s hs

theorem crcRejectsMixtures_of_small (h : ∀ r ∈ S, flashTsHdrSize + r.len.toNat ≤ g.pageSize) :
    CrcRejectsMixtures g S := by
  intro c _ r hr hp _ i hi
  refine getD_of_samePage hg ?_
  rwa [Nat.div_eq_of_lt (lt_of_lt_of_le hi (h r hr))]

omit hg in
theorem isBlank_erasedChunk : isBlank (erasedChunk g) = true := by
  have hget : ∀ i < flashTsMaxSize, (erasedChunk g).getD i 0 = g.erased :=
    fun i hi => getD_erasedChunk g hi
  have hword : ∀ i, i + 4 ≤ flashTsMaxSize → word (erasedChunk g) i = word (erasedChunk g) 0 := by
    intro i hi
    simp only [word, hget i (by omega), hget (i + 1) (by omega), hget (i + 2) (by omega),
      hget (i + 3) (by omega), hget 0 (by omega), hget (0 + 1) (by omega), hget (0 + 2) (by omega),
      hget (0 + 3) (by omega)]
  have hfirst : (word (erasedChunk g) 0 == 0x00000000 || word (erasedChunk g) 0 == 0xffffffff) =
      true := by
    rw [word, hget 0 (by decide), hget (0 + 1) (by decide), hget (0 + 2) (by decide),
      hget (0 + 3) (by decide)]
    rcases g.erased_blank with he | he <;> rw [he] <;> decide
  simp only [isBlank]
  rw [hfirst, Bool.true_and, List.all_eq_true]
  intro i hi
  rw [List.mem_range, length_erasedChunk] at hi
  rw [beq_iff_eq]
  exact hword (4 * i) (by omega)

theorem not_passed_erasedChunk : ¬ Passed (erasedChunk g) :=
  fun h => h ⟨check_of_erased_head hg SamePage.rfl, isBlank_erasedChunk⟩

end

end SynaBoot.FlashPages
