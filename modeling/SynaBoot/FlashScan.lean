import SynaBoot.FlashDriver

namespace SynaBoot.FlashScan

open SynaBoot.PowerCut SynaBoot.FlashDevice SynaBoot.FlashRecord SynaBoot.FlashTs
open SynaBoot.FlashSlots SynaBoot.FlashDriver

def Good (g : Geometry) (s : Nat) : Prop :=
  s < slots g ∧ flashBlockIsbad g (s / perBlock g * g.blockSize) = false

def versionAt (g : Geometry) (f : Flash) (s : Nat) : UInt32 :=
  flashTsCheckHeader (ofBytes (chunkAt g f s))

def Passed (c : List UInt8) : Prop := ¬ (flashTsCheckHeader (ofBytes c) = 0 ∧ isBlank c = true)

def Visible (g : Geometry) (f : Flash) (s : Nat) : Prop :=
  Good g s ∧ ∀ s' < s, s' / perBlock g = s / perBlock g → Passed (chunkAt g f s')

def recordAt (g : Geometry) (f : Flash) (s : Nat) : Priv :=
  { offset := s * flashTsMaxSize, cache := ofBytes (chunkAt g f s) }

variable {g : Geometry} {s : Nat}

theorem version_recordAt {f : Flash} (h : versionAt g f s ≠ 0) :
    (recordAt g f s).cache.version = versionAt g f s :=
  (check_ne_zero h).2.1.symm

structure Scanned (g : Geometry) (f : Flash) (s : Nat) (ts ts' : Priv) : Prop where
  le : ts.cache.version ≤ ts'.cache.version
  newest : ∀ s', s ≤ s' → Visible g f s' → versionAt g f s' ≤ ts'.cache.version
  source : ts' = ts ∨
    ∃ s', Visible g f s' ∧ ts.cache.version < versionAt g f s' ∧ ts' = recordAt g f s'

variable {ts : Priv}

theorem Scanned.done {f : Flash} (h : ∀ s', s ≤ s' → ¬ Visible g f s') : Scanned g f s ts ts :=
  ⟨UInt32.le_refl _, fun s' hs hv => absurd hv (h s' hs), .inl rfl⟩

theorem Scanned.skip {f : Flash} {s n : Nat} {ts ts' : Priv} (h : Scanned g f n ts ts')
    (hskip : ∀ s', s ≤ s' → s' < n → ¬ Visible g f s') : Scanned g f s ts ts' := by
  refine ⟨h.le, fun s' hs hv => ?_, h.source⟩
  rcases Nat.lt_or_ge s' n with hlt | hge
  · exact absurd hv (hskip s' hs hlt)
  · exact h.newest s' hge hv

def keep (g : Geometry) (f : Flash) (s : Nat) (ts : Priv) : Priv :=
  if ts.cache.version < versionAt g f s then recordAt g f s else ts

theorem Scanned.keep {f : Flash} {ts ts' : Priv} (hv : Visible g f s)
    (h : Scanned g f (s + 1) (FlashScan.keep g f s ts) ts') : Scanned g f s ts ts' := by
  unfold FlashScan.keep at h
  split at h
  · next hlt =>
    have hne : versionAt g f s ≠ 0 := by
      intro h0
      rw [h0] at hlt
      exact absurd hlt (by simp)
    have hle := h.le
    rw [version_recordAt hne] at hle
    refine ⟨UInt32.le_trans (UInt32.le_of_lt hlt) hle, ?_, .inr ?_⟩
    · intro s' hs hv'
      rcases Nat.eq_or_lt_of_le hs with rfl | hlt'
      · exact hle
      · exact h.newest s' hlt' hv'
    · rcases h.source with rfl | ⟨s', hv', hlt', rfl⟩
      · exact ⟨s, hv, hlt, rfl⟩
      · rw [version_recordAt hne] at hlt'
        exact ⟨s', hv', UInt32.lt_trans hlt hlt', rfl⟩
  · next hle =>
    refine ⟨h.le, ?_, h.source⟩
    intro s' hs hv'
    rcases Nat.eq_or_lt_of_le hs with rfl | hlt'
    · exact UInt32.le_trans (UInt32.not_lt.mp hle) h.le
    · exact h.newest s' hlt' hv'

theorem succ_same_block (h : (s + 1) % perBlock g ≠ 0) : (s + 1) / perBlock g = s / perBlock g := by
  rw [Nat.succ_div, if_neg, Nat.add_zero]
  exact fun hd => h (Nat.mod_eq_zero_of_dvd hd)

def nextSlot (g : Geometry) (f : Flash) (s : Nat) : Nat :=
  if flashTsCheckHeader (ofBytes (chunkAt g f s)) = 0 ∧ isBlank (chunkAt g f s) = true then
    (s / perBlock g + 1) * perBlock g
  else s + 1

def Reached (g : Geometry) (f : Flash) (s : Nat) : Prop :=
  s % perBlock g ≠ 0 → flashBlockIsbad g (s / perBlock g * g.blockSize) = false ∧
    ∀ s' < s, s' / perBlock g = s / perBlock g → Passed (chunkAt g f s')

theorem reached_of_start {f : Flash} (h : s % perBlock g = 0) : Reached g f s :=
  fun hn => absurd h hn

theorem visible_of_reached {f : Flash} (hs : s < slots g) (h : Reached g f s)
    (hgood : s % perBlock g = 0 → flashBlockIsbad g (s / perBlock g * g.blockSize) = false) :
    Visible g f s := by
  by_cases h0 : s % perBlock g = 0
  · refine ⟨⟨hs, hgood h0⟩, fun s' hlt hb => ?_⟩
    have hd := Nat.div_mul_cancel (Nat.dvd_of_mod_eq_zero h0)
    have hle := Nat.div_mul_le_self s' (perBlock g)
    rw [hb, hd] at hle
    omega
  · exact ⟨⟨hs, (h h0).1⟩, (h h0).2⟩

theorem reached_next {f : Flash} (hv : Visible g f s) : Reached g f (nextSlot g f s) := by
  unfold nextSlot
  split
  · exact reached_of_start (Nat.mul_mod_left _ _)
  · next hp =>
    intro hne
    have hb := succ_same_block hne
    rw [hb]
    refine ⟨hv.1.2, fun s' hlt hb' => ?_⟩
    rcases Nat.lt_succ_iff_lt_or_eq.mp hlt with hlt | rfl
    · exact hv.2 s' hlt hb'
    · exact hp

section

variable {g : Geometry} (hg : Usable g)
include hg

theorem same_block {s s' : Nat} (h : s ≤ s') (h' : s' < (s / perBlock g + 1) * perBlock g) :
    s' / perBlock g = s / perBlock g := by
  apply le_antisymm
  · exact Nat.lt_succ_iff.mp ((Nat.div_lt_iff_lt_mul (perBlock_pos hg)).mpr h')
  · exact Nat.div_le_div_right h

theorem block_start_le {s : Nat} : s < (s / perBlock g + 1) * perBlock g := by
  have h := Nat.lt_div_mul_add (a := s) (perBlock_pos hg)
  rw [Nat.succ_mul]
  exact h

theorem start_ge {s s' : Nat} (h : s < s') (h' : s' % perBlock g = 0) :
    (s / perBlock g + 1) * perBlock g ≤ s' := by
  rw [← Nat.div_mul_cancel (Nat.dvd_of_mod_eq_zero h')] at h ⊢
  exact Nat.mul_le_mul_right _ ((Nat.div_lt_iff_lt_mul (perBlock_pos hg)).mpr h)

theorem nextSlot_le (f : Flash) (s : Nat) : nextSlot g f s ≤ (s / perBlock g + 1) * perBlock g := by
  unfold nextSlot
  split
  · exact le_rfl
  · exact block_start_le hg

theorem slot_lt_partition (s : Nat) : s * flashTsMaxSize < partitionSize g ↔ s < slots g := by
  rw [partitionSize_eq hg]
  exact Nat.mul_lt_mul_right maxSize_pos

theorem flashBlockIsbad_start {s : Nat} (h : s % perBlock g = 0) :
    flashBlockIsbad g (s * flashTsMaxSize) = flashBlockIsbad g (s / perBlock g * g.blockSize) := by
  congr 1
  rw [block_eq_slot hg, Nat.div_mul_cancel (Nat.dvd_of_mod_eq_zero h)]

theorem scanLoop_bad (rd : Nat → Nat → Outcome) (fuel gb : Nat) (ts : Priv) (f : Flash) {s : Nat}
    (hs : s % perBlock g = 0) (hbad : flashBlockIsbad g (s / perBlock g * g.blockSize) = true) :
    scanLoop g rd (fuel + 1) (s * flashTsMaxSize) gb ts f =
      if s + perBlock g < slots g then
        scanLoop g rd fuel ((s + perBlock g) * flashTsMaxSize) gb ts f
      else .ret (gb, ts) f := by
  rw [scanLoop, isNewBlock_slot hg, flashBlockIsbad_start hg hs, hbad, hs]
  simp only [decide_true, Bool.and_self, if_true, slot_add_block hg, slot_lt_partition hg]
  split <;> rfl

theorem lt_nextSlot (f : Flash) (s : Nat) : s < nextSlot g f s := by
  unfold nextSlot
  split
  · exact block_start_le hg
  · exact Nat.lt_succ_self s

variable {rd : Nat → Nat → Outcome}

theorem scanLoop_read (hrd : ∀ off i, rd off i = .ok) (fuel gb : Nat) (ts : Priv) (f : Flash)
    {s : Nat} (hs : s % perBlock g = 0 → flashBlockIsbad g (s / perBlock g * g.blockSize) = false) :
    scanLoop g rd (fuel + 1) (s * flashTsMaxSize) gb ts f =
      if nextSlot g f s < slots g then
        scanLoop g rd fuel (nextSlot g f s * flashTsMaxSize)
          (if s % perBlock g = 0 then gb + 1 else gb) (keep g f s ts) f
      else .ret (if s % perBlock g = 0 then gb + 1 else gb, keep g f s ts) f := by
  have hnew : (isNewBlock g (s * flashTsMaxSize) && flashBlockIsbad g (s * flashTsMaxSize)) = false := by
    rw [isNewBlock_slot hg]
    by_cases h0 : s % perBlock g = 0
    · rw [flashBlockIsbad_start hg h0, hs h0, Bool.and_false]
    · simp [h0]
  have hnext : (if flashTsCheckHeader (ofBytes (chunkAt g f s)) = 0 ∧
      isBlank (chunkAt g f s) = true then
        alignDown (s * flashTsMaxSize + g.blockSize) g.blockSize
      else s * flashTsMaxSize + chunk g) = nextSlot g f s * flashTsMaxSize := by
    unfold nextSlot
    split
    · rw [alignDown_next hg, block_eq_slot hg]
    · rw [chunk_eq hg, Nat.succ_mul]
  rw [scanLoop, hnew, if_neg Bool.false_ne_true]
  rw [bind_ret (flashRead_ok hg (hrd _) s f)]
  simp only [true_and, hnext, slot_lt_partition hg, isNewBlock_slot hg, decide_eq_true_eq]
  split <;> rfl

theorem not_visible_between {f : Flash} {s s' : Nat} (h : s < s') (h' : s' < nextSlot g f s) :
    ¬ Visible g f s' := by
  intro hv
  unfold nextSlot at h'
  split at h'
  · next hp => exact hv.2 s h (same_block hg h.le h').symm hp
  · omega

theorem scanLoop_spec (hrd : ∀ off i, rd off i = .ok) (f : Flash) (fuel s gb : Nat) (ts : Priv)
    (hs : s < slots g) (hfuel : slots g - s < fuel) (hr : Reached g f s) :
    ∃ gb' ts', scanLoop g rd fuel (s * flashTsMaxSize) gb ts f = .ret (gb', ts') f ∧ gb ≤ gb' ∧
      (∀ s', s ≤ s' → s' % perBlock g = 0 → Good g s' → gb < gb') ∧ Scanned g f s ts ts' := by
  have hpos := perBlock_pos hg
  induction fuel generalizing s gb ts with
  | zero => omega
  | succ fuel ih =>
    by_cases hbad : s % perBlock g = 0 ∧
        flashBlockIsbad g (s / perBlock g * g.blockSize) = true
    · obtain ⟨h0, hbad⟩ := hbad
      have hskip : ∀ s', s ≤ s' → s' < s + perBlock g → ¬ Good g s' := by
        intro s' hle hlt hgood
        have hd := Nat.div_mul_cancel (Nat.dvd_of_mod_eq_zero h0)
        have hb := same_block hg hle (by rw [Nat.succ_mul, hd]; exact hlt)
        have hgb := hgood.2
        rw [hb, hbad] at hgb
        cases hgb
      rw [scanLoop_bad hg rd fuel gb ts f h0 hbad]
      split
      · next hlt =>
        obtain ⟨gb', ts', hret, hle, hcount, hscan⟩ := ih (s + perBlock g) gb ts hlt (by omega)
          (reached_of_start (by rw [Nat.add_mod_right, h0]))
        refine ⟨gb', ts', hret, hle, ?_, hscan.skip fun s' h1 h2 hv => hskip s' h1 h2 hv.1⟩
        intro s' hs' hm hgood
        rcases Nat.lt_or_ge s' (s + perBlock g) with hlt' | hge
        · exact absurd hgood (hskip s' hs' hlt')
        · exact hcount s' hge hm hgood
      · next hge =>
        refine ⟨gb, ts, rfl, le_rfl, ?_, Scanned.done fun s' hle hv => ?_⟩
        · intro s' hle _ hgood
          exact absurd hgood (hskip s' hle (by have := hgood.1; omega))
        · exact hskip s' hle (by have := hv.1.1; omega) hv.1
    · have hgood : s % perBlock g = 0 →
          flashBlockIsbad g (s / perBlock g * g.blockSize) = false := by
        intro h0
        by_contra hb
        exact hbad ⟨h0, by simpa using hb⟩
      have hv := visible_of_reached hs hr hgood
      have hlt := lt_nextSlot hg f s
      have hbetween : ∀ s', s + 1 ≤ s' → s' < nextSlot g f s → ¬ Visible g f s' :=
        fun s' h1 h2 => not_visible_between hg h1 h2
      rw [scanLoop_read hg hrd fuel gb ts f hgood]
      split
      · next hnext =>
        obtain ⟨gb', ts', hret, hle, hcount, hscan⟩ := ih (nextSlot g f s)
          (if s % perBlock g = 0 then gb + 1 else gb) (keep g f s ts) hnext (by omega)
          (reached_next hv)
        refine ⟨gb', ts', hret, ?_, ?_, (hscan.skip hbetween).keep hv⟩
        · split at hle <;> omega
        · intro s' hs' hm hgood'
          by_cases h0 : s % perBlock g = 0
          · rw [if_pos h0] at hle
            omega
          · rw [if_neg h0] at hcount
            have hne : s ≠ s' := fun he => h0 (he ▸ hm)
            exact hcount s' (le_trans (nextSlot_le hg f s) (start_ge hg (by omega) hm)) hm hgood'
      · next hge =>
        refine ⟨_, _, rfl, ?_, ?_, (Scanned.done fun s' hle hv' => ?_).keep hv⟩
        · split <;> omega
        · intro s' hs' hm hgood'
          by_cases h0 : s % perBlock g = 0
          · rw [if_pos h0]
            omega
          · have hne : s ≠ s' := fun he => h0 (he ▸ hm)
            have hnext := le_trans (nextSlot_le hg f s) (start_ge hg (by omega) hm)
            have := hgood'.1
            omega
        · exact hbetween s' hle (by have := hv'.1.1; omega) hv'

def emptyPriv (g : Geometry) (old : Bytes flashTsMaxDataSize) : Priv :=
  { offset := partitionSize g - chunk g, cache := emptyCache old }

omit hg in
theorem isPowerOf2_iff (n : Nat) : isPowerOf2 n = true ↔ ∃ k, n = 2 ^ k := by
  rw [isPowerOf2, Bool.and_eq_true, decide_eq_true_eq, beq_iff_eq, Nat.pos_iff_ne_zero]
  exact Nat.ne_zero_and_sub_one_eq_zero_iff_isPowerOfTwo

theorem init_of_scan {old : Bytes flashTsMaxDataSize} {f f' : Flash} {gb : Nat} {ts : Priv}
    (hgb : gb ≠ 0)
    (h : scanLoop g rd (partitionSize g + 1) 0 0 (emptyPriv g old) f = .ret (gb, ts) f') :
    flashTsInit g rd old f = .ret (0, some ts) f' := by
  have hpage : isPowerOf2 g.pageSize = true := by
    obtain ⟨w, -, -, hw⟩ := hg.page
    exact (isPowerOf2_iff _).mpr ⟨w, hw⟩
  have hblock : isPowerOf2 g.blockSize = true := by
    obtain ⟨e, -, he⟩ := hg.block
    exact (isPowerOf2_iff _).mpr ⟨e, he⟩
  have hchunk : ¬ g.blockSize < chunk g := by
    rw [chunk_eq hg, ← perBlock_mul hg]
    exact not_lt.mpr (Nat.le_mul_of_pos_left _ (perBlock_pos hg))
  have hscan : flashTsScan g rd (emptyPriv g old) f = .ret (0, ts) f' := by
    refine (bind_ret h).trans ?_
    simp only [hgb, if_false]
    rfl
  rw [flashTsInit, hpage, hblock, if_neg (by simp), if_neg hchunk]
  exact bind_ret hscan

theorem flashTsInit_spec (hrd : ∀ off i, rd off i = .ok) (hgood : ∃ s, Good g s)
    (old : Bytes flashTsMaxDataSize) (f : Flash) :
    ∃ ts, flashTsInit g rd old f = .ret (0, some ts) f ∧ Scanned g f 0 (emptyPriv g old) ts := by
  obtain ⟨s, hs, hb⟩ := hgood
  have hpos := perBlock_pos hg
  have hfuel : slots g - 0 < partitionSize g + 1 := by
    rw [partitionSize_eq hg, Nat.sub_zero]
    exact Nat.lt_succ_of_le (Nat.le_mul_of_pos_right _ maxSize_pos)
  obtain ⟨gb, ts, hret, -, hcount, hscan⟩ := scanLoop_spec hg hrd f (partitionSize g + 1) 0 0
    (emptyPriv g old) (by omega) hfuel (reached_of_start (Nat.zero_mod _))
  have hgb : gb ≠ 0 := by
    have hstart : Good g (s / perBlock g * perBlock g) := by
      refine ⟨lt_of_le_of_lt (Nat.div_mul_le_self s _) hs, ?_⟩
      rwa [Nat.mul_div_cancel _ hpos]
    have := hcount _ (Nat.zero_le _) (Nat.mul_mod_left _ _) hstart
    omega
  rw [Nat.zero_mul] at hret
  exact ⟨ts, init_of_scan hg hgb hret, hscan⟩

theorem init_newest (hrd : ∀ off i, rd off i = .ok) (old : Bytes flashTsMaxDataSize) {f : Flash}
    {q : Nat} (hq : Visible g f q) (hne : versionAt g f q ≠ 0)
    (hmax : ∀ s, Visible g f s → versionAt g f s ≤ versionAt g f q) :
    ∃ s, flashTsInit g rd old f = .ret (0, some (recordAt g f s)) f ∧ Visible g f s ∧
      versionAt g f s = versionAt g f q := by
  obtain ⟨ts, hret, hscan⟩ := flashTsInit_spec hg hrd ⟨q, hq.1⟩ old f
  have hle := hscan.newest q (Nat.zero_le _) hq
  rcases hscan.source with rfl | ⟨s, hs, hlt, rfl⟩
  · have h0 : (emptyPriv g old).cache.version = 0 := rfl
    rw [h0] at hle
    exact absurd (UInt32.le_antisymm hle (by simp)) hne
  · have hs0 : versionAt g f s ≠ 0 := by
      intro h0
      rw [h0] at hlt
      exact absurd hlt (by simp)
    rw [version_recordAt hs0] at hle
    exact ⟨s, hret, hs, UInt32.le_antisymm (hmax s hs) hle⟩

theorem init_empty (hrd : ∀ off i, rd off i = .ok) (hgood : ∃ s, Good g s)
    (old : Bytes flashTsMaxDataSize) {f : Flash} (h : ∀ s, Visible g f s → versionAt g f s = 0) :
    flashTsInit g rd old f = .ret (0, some (emptyPriv g old)) f := by
  obtain ⟨ts, hret, hscan⟩ := flashTsInit_spec hg hrd hgood old f
  rcases hscan.source with rfl | ⟨s, hs, hlt, rfl⟩
  · exact hret
  · rw [h s hs] at hlt
    exact absurd hlt (by simp)

end

theorem flashRead_fault (ht : transferable g = false) (rd : Nat → Outcome) (off : Nat) (f : Flash) :
    flashRead g rd off flashTsMaxSize f = .fault := by
  have hn : flashTsMaxSize = 16383 + 1 := rfl
  rw [flashRead]
  conv_lhs => enter [3]; rw [hn]
  rw [flashReadLoop, if_neg maxSize_pos.ne']
  have hpage : nandReadPage g (rd 0) ((base g + off) / g.pageSize)
      (min flashTsMaxSize g.pageSize) f = .fault := by
    rw [nandReadPage, if_neg (not_lt.mpr (Nat.min_le_right _ _))]
    simp only [nFlashPageRead, ht, Bool.false_eq_true, if_false]
    rfl
  change Prog.bind _ _ f = _
  rw [Prog.bind, hpage]

variable {f f' : Flash} {old : Bytes flashTsMaxDataSize} {rd : Nat → Nat → Outcome} {res : Int}

theorem scanLoop_untransferable (ht : transferable g = false) (rd : Nat → Nat → Outcome)
    (fuel off gb : Nat) (ts : Priv) {r : Nat × Priv}
    (h : scanLoop g rd fuel off gb ts f = .ret r f') : r.1 = gb := by
  induction fuel generalizing off with
  | zero =>
    cases h
    rfl
  | succ fuel ih =>
    rw [scanLoop] at h
    split at h
    · simp only at h
      split at h
      · exact ih _ h
      · cases h
        rfl
    · obtain ⟨a, s', ha, -⟩ := bind_eq_ret h
      rw [flashRead_fault ht] at ha
      cases ha

theorem scan_of_init (h : flashTsInit g rd old f = .ret (res, some ts) f') :
    (∃ w, g.pageSize = 2 ^ w) ∧ (∃ e, g.blockSize = 2 ^ e) ∧ chunk g ≤ g.blockSize ∧
      ∃ gb ≠ 0, scanLoop g rd (partitionSize g + 1) 0 0 (emptyPriv g old) f = .ret (gb, ts) f' := by
  rw [flashTsInit] at h
  split at h
  · cases h
  · next hpow =>
    split at h
    · cases h
    · next hchunk =>
      simp only [Bool.or_eq_true, Bool.not_eq_true', not_or, Bool.not_eq_false] at hpow
      refine ⟨(isPowerOf2_iff _).mp hpow.1, (isPowerOf2_iff _).mp hpow.2, not_lt.mp hchunk, ?_⟩
      obtain ⟨⟨res', ts'⟩, s', hscan, hret⟩ := bind_eq_ret h
      rw [flashTsScan] at hscan
      obtain ⟨⟨gb, ts''⟩, s'', hloop, hend⟩ := bind_eq_ret hscan
      by_cases hgb : gb = 0
      · subst hgb
        cases hend
        cases hret
      · simp only [hgb, if_false] at hend
        cases hend
        cases hret
        exact ⟨gb, hgb, hloop⟩

theorem usable_of_init (h : flashTsInit g rd old f = .ret (res, some ts) f') : Usable g := by
  obtain ⟨⟨w, hw⟩, ⟨e, he⟩, hchunk, gb, hgb, hloop⟩ := scan_of_init h
  have ht : transferable g = true := by
    by_contra hf
    rw [Bool.not_eq_true] at hf
    exact hgb (scanLoop_untransferable hf rd _ _ _ _ hloop)
  rw [transferable, hw, Bool.and_eq_true, decide_eq_true_eq, decide_eq_true_eq] at ht
  have hw1 : 9 ≤ w := by
    by_contra hlt
    have hpow := Nat.pow_lt_pow_right (show 1 < 2 by decide) (show w < 9 by omega)
    exact ht.1 (Nat.div_eq_of_lt hpow)
  have hw2 : w ≤ 13 := by
    by_contra hlt
    have hpow := Nat.pow_le_pow_right (show 0 < 2 by decide) (show 14 ≤ w by omega)
    have h2 := ht.2
    simp only [pageBuffSize] at h2
    omega
  refine ⟨⟨w, hw1, hw2, hw⟩, e, ?_, he⟩
  have hc : chunk g = 2 ^ 14 := by
    rw [chunk, hw]
    interval_cases w <;> decide
  rw [hc, he] at hchunk
  by_contra hlt
  exact absurd hchunk (not_le.mpr (Nat.pow_lt_pow_right (by decide) (by omega)))

theorem scanLoop_no_good (hg : Usable g) (hno : ∀ s, ¬ Good g s) (rd : Nat → Nat → Outcome)
    (fuel gb : Nat) (ts : Priv) {r : Nat × Priv} (h0 : s % perBlock g = 0) (hs : s < slots g)
    (h : scanLoop g rd fuel (s * flashTsMaxSize) gb ts f = .ret r f') : r.1 = gb := by
  induction fuel generalizing s with
  | zero =>
    cases h
    rfl
  | succ fuel ih =>
    have hbad : flashBlockIsbad g (s / perBlock g * g.blockSize) = true := by
      by_contra hb
      exact hno s ⟨hs, by simpa using hb⟩
    rw [scanLoop_bad hg rd fuel gb ts f h0 hbad] at h
    split at h
    · next hlt => exact ih (by rw [Nat.add_mod_right, h0]) hlt h
    · cases h
      rfl

theorem good_of_init (h : flashTsInit g rd old f = .ret (res, some ts) f') (hb : 0 < g.blocks) :
    ∃ s, Good g s := by
  by_contra hno
  push Not at hno
  have hg := usable_of_init h
  obtain ⟨-, -, -, gb, hgb, hloop⟩ := scan_of_init h
  rw [← Nat.zero_mul flashTsMaxSize] at hloop
  exact hgb (scanLoop_no_good hg hno rd _ _ _ (Nat.zero_mod _)
    (Nat.mul_pos hb (perBlock_pos hg)) hloop)

theorem init_no_blocks (hb : g.blocks = 0) {rd rd' : Nat → Nat → Outcome}
    (hrd : ∀ off i, rd off i = .ok) (hrd' : ∀ off i, rd' off i = .ok)
    (old' : Bytes flashTsMaxDataSize) (hret : flashTsInit g rd old f = .ret (0, some ts) f') :
    ts = keep g f 0 (emptyPriv g old) ∧
      flashTsInit g rd' old' f = .ret (0, some (keep g f 0 (emptyPriv g old'))) f := by
  have hg := usable_of_init hret
  obtain ⟨-, -, -, gb, hgb, hloop⟩ := scan_of_init hret
  have hslots : slots g = 0 := by rw [slots, hb, Nat.zero_mul]
  have hsize : partitionSize g + 1 = 0 + 1 := by rw [partitionSize, hb, Nat.zero_mul]
  have hmod : 0 % perBlock g = 0 := Nat.zero_mod _
  have hstart : ∀ rd ts, scanLoop g rd (partitionSize g + 1) 0 0 ts f =
      scanLoop g rd (0 + 1) (0 * flashTsMaxSize) 0 ts f := by
    intro rd ts
    rw [hsize, Nat.zero_mul]
  rw [hstart] at hloop
  by_cases hbad : flashBlockIsbad g (0 / perBlock g * g.blockSize) = true
  · rw [scanLoop_bad hg rd 0 0 _ f hmod hbad, hslots, if_neg (Nat.not_lt_zero _)] at hloop
    cases hloop
    exact absurd rfl hgb
  · have hgood := fun (_ : 0 % perBlock g = 0) => Bool.eq_false_iff.mpr hbad
    have hread : ∀ (rd : Nat → Nat → Outcome) (hrd : ∀ off i, rd off i = .ok) (ts : Priv),
        scanLoop g rd (0 + 1) (0 * flashTsMaxSize) 0 ts f = .ret (1, keep g f 0 ts) f := by
      intro rd hrd ts
      rw [scanLoop_read hg hrd 0 0 ts f hgood, hslots, if_neg (Nat.not_lt_zero _), if_pos hmod]
    rw [hread rd hrd] at hloop
    cases hloop
    refine ⟨rfl, init_of_scan hg Nat.one_ne_zero ?_⟩
    rw [hstart, hread rd' hrd']

end SynaBoot.FlashScan
