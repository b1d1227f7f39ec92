import SynaBoot.FlashDurable

namespace SynaBoot.FlashRest

open SynaBoot.PowerCut SynaBoot.FlashDevice SynaBoot.FlashRecord SynaBoot.FlashTs
open SynaBoot.FlashSlots SynaBoot.FlashDriver SynaBoot.FlashScan SynaBoot.FlashStrings
open SynaBoot.FlashCommit SynaBoot.FlashPages SynaBoot.FlashRounds SynaBoot.FlashDurable
open SynaBoot.StringArea

def Target (g : Geometry) (o t : Nat) : Prop :=
  ∃ i, visited g o i = t ∧ Good g t ∧ ∀ j < i, ¬ Good g (visited g o j)

theorem Target.unique {g : Geometry} {o t t' : Nat} (h : Target g o t) (h' : Target g o t') :
    t = t' := by
  obtain ⟨i, rfl, hgood, hfirst⟩ := h
  obtain ⟨i', rfl, hgood', hfirst'⟩ := h'
  rcases Nat.lt_trichotomy i i' with hlt | rfl | hlt
  · exact absurd hgood (hfirst' i hlt)
  · rfl
  · exact absurd hgood' (hfirst i' hlt)

def TwoGoodBlocks (g : Geometry) : Prop :=
  ∃ s s', Good g s ∧ Good g s' ∧ s / perBlock g ≠ s' / perBlock g

theorem TwoGoodBlocks.good {g : Geometry} (h : TwoGoodBlocks g) : ∃ s, Good g s := by
  obtain ⟨s, -, hs, -, -⟩ := h
  exact ⟨s, hs⟩

section

variable {g : Geometry} (hg : Usable g)
include hg

theorem block_lt {s : Nat} (h : s < slots g) : s / perBlock g < g.blocks :=
  (Nat.div_lt_iff_lt_mul (perBlock_pos hg)).mpr h

theorem block_wrap (b : Nat) (hb : b < g.blocks) :
    wrap g ((b + 1) * perBlock g) / perBlock g = (b + 1) % g.blocks := by
  have hpos := perBlock_pos hg
  rw [wrap, slots]
  split
  · next hle =>
    have hle' := Nat.le_of_mul_le_mul_right hle hpos
    have heq : b + 1 = g.blocks := by omega
    rw [heq, Nat.mod_self, Nat.zero_div]
  · next hlt =>
    have hlt' := Nat.lt_of_mul_lt_mul_right (not_le.mp hlt)
    rw [Nat.mul_div_cancel _ hpos, Nat.mod_eq_of_lt hlt']

theorem block_visited {o : Nat} (ho : o < slots g) (h0 : (o + 1) % perBlock g = 0) (i : Nat) :
    visited g o i / perBlock g = (o / perBlock g + 1 + i) % g.blocks := by
  have hpos : 0 < slots g := by omega
  have hb := block_lt hg ho
  induction i with
  | zero =>
    have hstart : o + 1 = (o / perBlock g + 1) * perBlock g := by
      have hd := Nat.div_mul_cancel (Nat.dvd_of_mod_eq_zero h0)
      rw [Nat.succ_div_of_dvd (Nat.dvd_of_mod_eq_zero h0)] at hd
      exact hd.symm
    rw [visited, hstart, block_wrap hg _ hb, Nat.add_zero]
  | succ i ih =>
    have hlt := block_lt hg (visited_lt hpos o i)
    rw [visited, blockAfter, block_wrap hg _ hlt, ih, Nat.mod_add_mod]
    rfl

omit hg in
theorem rotate_ne {N b i : Nat} (hb : b < N) (hi : i + 1 < N) : (b + 1 + i) % N ≠ b := by
  rcases Nat.lt_or_ge (b + 1 + i) N with hlt | hge
  · rw [Nat.mod_eq_of_lt hlt]
    omega
  · rw [Nat.mod_eq_sub_mod hge, Nat.mod_eq_of_lt (by omega)]
    omega

omit hg in
theorem rotate_reaches {N b b' : Nat} (hb : b < N) (hb' : b' < N) (hne : b' ≠ b) :
    ∃ j, j + 1 < N ∧ (b + 1 + j) % N = b' := by
  rcases Nat.lt_or_gt_of_ne hne with hlt | hlt
  · refine ⟨N - b - 1 + b', by omega, ?_⟩
    have he : b + 1 + (N - b - 1 + b') = b' + N := by omega
    rw [he, Nat.add_mod_right, Nat.mod_eq_of_lt hb']
  · refine ⟨b' - b - 1, by omega, ?_⟩
    have he : b + 1 + (b' - b - 1) = b' := by omega
    rw [he, Nat.mod_eq_of_lt hb']

omit hg in
theorem good_of_block {s s' : Nat} (h : Good g s) (hs' : s' < slots g)
    (hb : s' / perBlock g = s / perBlock g) : Good g s' :=
  ⟨hs', hb ▸ h.2⟩

omit hg in
theorem target_inside {o t : Nat} (hgood : Good g o) (h0 : (o + 1) % perBlock g ≠ 0)
    (ht : Target g o t) : t = o + 1 := by
  have hlt : o + 1 < slots g := by
    have hle := hgood.1
    rcases Nat.lt_or_eq_of_le (Nat.succ_le_of_lt hle) with hlt | heq
    · exact hlt
    · rw [Nat.succ_eq_add_one] at heq
      rw [heq, slots] at h0
      exact absurd (Nat.mul_mod_left _ _) h0
  have hv : visited g o 0 = o + 1 := by
    rw [visited, wrap, if_neg (by omega)]
  have hnext : Good g (o + 1) := good_of_block hgood hlt (succ_same_block h0)
  exact ht.unique ⟨0, hv, hnext, fun j hj => absurd hj (Nat.not_lt_zero j)⟩

theorem target_block_ne (htwo : TwoGoodBlocks g) {o t : Nat} (hgood : Good g o)
    (ht : Target g o t) (h0 : t % perBlock g = 0) : t / perBlock g ≠ o / perBlock g := by
  intro heq
  by_cases hend : (o + 1) % perBlock g = 0
  · obtain ⟨i, rfl, -, hfirst⟩ := ht
    have hb := block_lt hg hgood.1
    obtain ⟨x, hx, hxb⟩ : ∃ x, Good g x ∧ x / perBlock g ≠ o / perBlock g := by
      obtain ⟨s, s', hs, hs', hne⟩ := htwo
      by_cases h : s / perBlock g = o / perBlock g
      · exact ⟨s', hs', fun h' => hne (h.trans h'.symm)⟩
      · exact ⟨s, hs, h⟩
    obtain ⟨j, hj, hjb⟩ := rotate_reaches hb (block_lt hg hx.1) hxb
    rw [block_visited hg hgood.1 hend] at heq
    have hi : j < i := by
      by_contra hge
      exact rotate_ne hb (by omega) heq
    refine hfirst j hi (good_of_block hx (visited_lt (by have := hgood.1; omega) o j) ?_)
    rw [block_visited hg hgood.1 hend, hjb]
  · rw [target_inside hgood hend ht] at h0
    exact hend h0

end

def HeadOlder (g : Geometry) (v : UInt32) (c : List UInt8) : Prop :=
  SamePage g 0 c (erasedChunk g) ∨ (ofBytes c).version < v

/-- What an interrupted commit can leave in its slot. -/
structure Torn (g : Geometry) (S : Set FlashTs) (s : Nat) (c : List UInt8) : Prop where
  invalid : flashTsCheckHeader (ofBytes c) = 0
  single : s % perBlock g = 0 → ∃ r ∈ S, ∀ p < pages g,
    SamePage g p c (erasedChunk g) ∨ SamePage g p c (toBytes r)

/-- All other chunks are older, save the one in the next slot. -/
structure Rest (g : Geometry) (S : Set FlashTs) (f : Flash) (v : UInt32) (o : Nat)
    (ss : List (List UInt8)) : Prop where
  provenance : Provenance g S f
  slot : o < slots g
  live : v ≠ 0 → Visible g f o ∧ versionAt g f o = v ∧ Represents (ofBytes (chunkAt g f o)) ss
  none : v = 0 → o + 1 = slots g ∧ ss = []
  others : ∀ s, Good g s → (v ≠ 0 → s ≠ o) →
    HeadOlder g v (chunkAt g f s) ∨ (Target g o s ∧ Torn g S s (chunkAt g f s))

theorem Rest.relabel {g : Geometry} {S : Set FlashTs} {f : Flash} {v : UInt32} {o : Nat}
    {ss ss' : List (List UInt8)} (h : Rest g S f v o ss)
    (hlive : v ≠ 0 → Represents (ofBytes (chunkAt g f o)) ss') (hnone : v = 0 → ss' = []) :
    Rest g S f v o ss' :=
  ⟨h.provenance, h.slot, fun hv => ⟨(h.live hv).1, (h.live hv).2.1, hlive hv⟩,
    fun hv => ⟨(h.none hv).1, hnone hv⟩, h.others⟩

section

variable {g : Geometry} (hg : Usable g)
include hg

theorem HeadOlder.wiped {v : UInt32} {c c' : List UInt8} (h : HeadOlder g v c)
    (hw : Wiped g c c') : HeadOlder g v c' := by
  rcases hw 0 (pages_pos hg) with he | hs
  · exact .inl he
  · rcases h with he | hv
    · exact .inl (hs.trans he)
    · right
      rwa [version_head hg hs]

omit hg in
theorem HeadOlder.mono {v v' : UInt32} (hv : v ≤ v') {c : List UInt8} (h : HeadOlder g v c) :
    HeadOlder g v' c := by
  rcases h with he | hlt
  · exact .inl he
  · exact .inr (UInt32.lt_of_lt_of_le hlt hv)

theorem HeadOlder.check {v : UInt32} {c : List UInt8} (h : HeadOlder g v c) :
    flashTsCheckHeader (ofBytes c) = 0 ∨ flashTsCheckHeader (ofBytes c) < v := by
  rcases h with he | hlt
  · exact .inl (check_of_erased_head hg he)
  · by_cases h0 : flashTsCheckHeader (ofBytes c) = 0
    · exact .inl h0
    · right
      rwa [(check_ne_zero h0).2.1]

omit hg in
theorem agrees_fits {c : List UInt8} {r : FlashTs} (h : Agrees c r)
    (hc : flashTsCheckHeader (ofBytes c) ≠ 0) : flashTsHdrSize + r.len.toNat ≤ flashTsMaxSize := by
  have hlen := (check_ne_zero hc).2.2.2.2
  rw [len_of_agrees h] at hlen
  have hmax : flashTsMaxDataSize = flashTsMaxSize - flashTsHdrSize := rfl
  have hhdr : flashTsHdrSize ≤ flashTsMaxSize := by decide
  omega

theorem Torn.wiped {S : Set FlashTs} (hcrc : CrcRejectsMixtures g S) {s : Nat} {c c' : List UInt8}
    (h : Torn g S s c) (h0 : s % perBlock g = 0) (hw : Wiped g c c')
    (hl : c'.length = flashTsMaxSize) : Torn g S s c' := by
  obtain ⟨r, hr, hpages⟩ := h.single h0
  have hpages' : ∀ p < pages g, SamePage g p c' (erasedChunk g) ∨ SamePage g p c' (toBytes r) := by
    intro p hp
    rcases hw p hp with he | hs
    · exact .inl he
    · rcases hpages p hp with he | hrp
      · exact .inl (hs.trans he)
      · exact .inr (hs.trans hrp)
  refine ⟨?_, fun _ => ⟨r, hr, hpages'⟩⟩
  by_contra hc'
  have hhead : SamePage g 0 c' (toBytes r) := by
    rcases hpages' 0 (pages_pos hg) with he | hrp
    · exact absurd (check_of_erased_head hg he) hc'
    · exact hrp
  have hmix : Mixture g S c' := by
    refine ⟨hl, fun p hp => ?_⟩
    rcases hpages' p hp with he | hrp
    · exact .inl he
    · exact .inr ⟨r, hr, hrp⟩
  have hagree := hcrc c' hmix r hr hhead hc'
  have hfits := agrees_fits hagree hc'
  have hagree' : Agrees c r := by
    intro i hi
    have hp := page_index_lt hg (lt_of_lt_of_le hi hfits)
    rcases hpages _ hp with he | hrp
    · have he' : SamePage g (i / g.pageSize) c' (erasedChunk g) := by
        rcases hw _ hp with he' | hs
        · exact he'
        · exact hs.trans he
      rw [getD_of_samePage hg (he.trans he'.symm)]
      exact hagree i hi
    · exact getD_of_samePage hg hrp
  apply hc'
  rw [check_of_agrees hagree, ← check_of_agrees hagree']
  exact h.invalid

variable {S : Set FlashTs} {f : Flash} {v : UInt32} {o : Nat} {ss : List (List UInt8)}

omit hg in
theorem visible_congr {f' : Flash} {s : Nat} (h : Visible g f s)
    (hsame : ∀ x < s, x / perBlock g = s / perBlock g → chunkAt g f' x = chunkAt g f x) :
    Visible g f' s := by
  refine ⟨h.1, fun x hx hb => ?_⟩
  rw [hsame x hx hb]
  exact h.2 x hx hb

theorem Rest.wipe (hcrc : CrcRejectsMixtures g S) (h : Rest g S f v o ss) (mask : Nat → Bool)
    {s₀ : Nat} (hlive : v ≠ 0 → o / perBlock g ≠ s₀ / perBlock g)
    (hstart : ∀ x, Target g o x → x / perBlock g = s₀ / perBlock g → x % perBlock g = 0) :
    Rest g S (erasedBlock g mask f s₀) v o ss := by
  refine ⟨h.provenance.erasedBlock hg mask s₀, h.slot, fun hv => ?_, h.none, fun s hs hne => ?_⟩
  · obtain ⟨hvis, hver, hrep⟩ := h.live hv
    have hsame : ∀ x, x / perBlock g = o / perBlock g →
        chunkAt g (erasedBlock g mask f s₀) x = chunkAt g f x :=
      fun x hx => chunkAt_erasedBlock_ne hg mask f (hx ▸ hlive hv)
    refine ⟨visible_congr hvis fun x _ hb => hsame x hb, ?_, ?_⟩
    · rw [versionAt, hsame o rfl]
      exact hver
    · rw [hsame o rfl]
      exact hrep
  · have hwipe := wiped_erasedBlock hg mask f s₀ s
    rcases h.others s hs hne with hold | ⟨ht, htorn⟩
    · exact .inl (hold.wiped hg hwipe)
    · right
      refine ⟨ht, ?_⟩
      by_cases hb : s / perBlock g = s₀ / perBlock g
      · exact htorn.wiped hg hcrc (hstart s ht hb) hwipe (length_chunkAt g _ s)
      · rw [chunkAt_erasedBlock_ne hg mask f hb]
        exact htorn

omit hg in
theorem Target.good {t : Nat} (h : Target g o t) : Good g t := by
  obtain ⟨i, -, hgood, -⟩ := h
  exact hgood

theorem Target.after (htwo : TwoGoodBlocks g) {t : Nat} (ht : Target g o t) (hgood : Good g o) {x : Nat}
    (hx : x ≤ o) (hb : x / perBlock g = o / perBlock g) : x ≠ t := by
  rintro rfl
  by_cases h0 : x % perBlock g = 0
  · exact target_block_ne hg htwo hgood ht h0 hb
  · obtain ⟨i, rfl, -, -⟩ := ht
    have := (visited_inside h0).2
    omega

omit hg in
theorem Rest.replace (h : Rest g S f v o ss) {t : Nat} (ht : Target g o t)
    (hafter : v ≠ 0 → ∀ x ≤ o, x / perBlock g = o / perBlock g → x ≠ t) {f' : Flash}
    (hsame : ∀ x ≠ t, chunkAt g f' x = chunkAt g f x) (hprov : Provenance g S f')
    (hnew : HeadOlder g v (chunkAt g f' t) ∨ Torn g S t (chunkAt g f' t)) : Rest g S f' v o ss := by
  refine ⟨hprov, h.slot, fun hv => ?_, h.none, fun s hs hne => ?_⟩
  · obtain ⟨hvis, hver, hrep⟩ := h.live hv
    have ho := hsame o (hafter hv o le_rfl rfl)
    refine ⟨visible_congr hvis fun x hx hb => hsame x (hafter hv x hx.le hb), ?_, ?_⟩
    · rw [versionAt, ho]
      exact hver
    · rw [ho]
      exact hrep
  · by_cases hst : s = t
    · subst hst
      rcases hnew with hold | htorn
      · exact .inl hold
      · exact .inr ⟨ht, htorn⟩
    · rw [hsame s hst]
      exact h.others s hs hne

theorem Rest.torn (hcrc : CrcRejectsMixtures g S) (h : Rest g S f v o ss) {t : Nat}
    (ht : Target g o t)
    (hafter : v ≠ 0 → ∀ x ≤ o, x / perBlock g = o / perBlock g → x ≠ t)
    (herased : t % perBlock g = 0 → chunkAt g f t = erasedChunk g) {r : FlashTs} (hr : r ∈ S)
    (wr : Nat → Outcome) :
    Rest g S (written g r wr f t) v o ss ∨ Agrees (chunkAt g (written g r wr f t) t) r := by
  have hprov := h.provenance.written hg hr wr t
  have hpage := fun p => samePage_written hg r wr f t p
  have hreplace := h.replace ht hafter (fun x hx => chunkAt_written_ne r wr f hx) hprov
  rcases Nat.eq_zero_or_pos (stored wr (pages g) 0) with hst | hst
  · left
    have hsame : written g r wr f t = f := by
      rw [written, hst, Nat.zero_mul, List.take_zero, store_nil]
    rw [hsame]
    exact h
  · have hhead := hpage 0
    rw [if_pos hst] at hhead
    by_cases h0 : flashTsCheckHeader (ofBytes (chunkAt g (written g r wr f t) t)) = 0
    · refine .inl (hreplace (.inr ⟨h0, fun hstart => ⟨r, hr, fun p _ => ?_⟩⟩))
      have hp := hpage p
      split at hp
      · exact .inr hp
      · rw [herased hstart] at hp
        exact .inl hp
    · exact .inr (hcrc _ (hprov t ht.good) r hr hhead h0)

omit hg in
theorem Rest.passed_before (h : Rest g S f v o ss) {t : Nat} (ht : Target g o t) {x : Nat}
    (hx : x < t) (hb : x / perBlock g = t / perBlock g) : Passed (chunkAt g f x) := by
  have hlt := ht.good.1
  obtain ⟨i, rfl, -, -⟩ := ht
  by_cases h0 : visited g o i % perBlock g = 0
  · have hle := Nat.div_mul_le_self x (perBlock g)
    rw [hb, Nat.div_mul_cancel (Nat.dvd_of_mod_eq_zero h0)] at hle
    omega
  · obtain ⟨-, hnext⟩ := visited_inside h0
    rw [hnext] at h0 hx hb hlt
    have hv : v ≠ 0 := by
      intro hv
      have := (h.none hv).1
      omega
    obtain ⟨hvis, hver, -⟩ := h.live hv
    rcases Nat.lt_succ_iff_lt_or_eq.mp hx with hxo | rfl
    · exact hvis.2 x hxo (hb.trans (succ_same_block h0))
    · exact passed_of_version fun hc => hv (hver.symm.trans hc)

omit hg in
theorem Rest.advance (h : Rest g S f v o ss) {t : Nat} (ht : Target g o t) {f' : Flash}
    (hsame : ∀ x ≠ t, chunkAt g f' x = chunkAt g f x) (hprov : Provenance g S f')
    {r : FlashTs} {ss' : List (List UInt8)} (hsound : Sound r ss') (hlt : v < r.version)
    (hagree : Agrees (chunkAt g f' t) r) : Rest g S f' r.version t ss' := by
  have hne : r.version ≠ 0 := by
    intro h0
    rw [h0] at hlt
    exact absurd hlt (by simp)
  refine ⟨hprov, ht.good.1, fun _ => ⟨⟨ht.good, fun x hx hb => ?_⟩, ?_, ?_⟩,
    fun h0 => absurd h0 hne, fun s hs hst => ?_⟩
  · rw [hsame x hx.ne]
    exact h.passed_before ht hx hb
  · rw [versionAt, check_of_agrees hagree, check_of_sound hsound hne]
  · exact ⟨hsound.represents.strings, by rw [len_of_agrees hagree]; exact hsound.represents.len,
      by rw [contents_of_agrees hagree]; exact hsound.represents.contents⟩
  · left
    rw [hsame s (hst hne)]
    by_cases hso : v ≠ 0 → s ≠ o
    · rcases h.others s hs hso with hold | ⟨ht', -⟩
      · exact hold.mono (UInt32.le_of_lt hlt)
      · exact absurd (ht'.unique ht) (hst hne)
    · push Not at hso
      obtain ⟨hv, rfl⟩ := hso
      obtain ⟨-, hver, -⟩ := h.live hv
      have hcheck : flashTsCheckHeader (ofBytes (chunkAt g f s)) ≠ 0 := by
        intro h0
        exact hv (hver.symm.trans h0)
      right
      rw [← (check_ne_zero hcheck).2.1]
      exact lt_of_eq_of_lt hver hlt

end

end SynaBoot.FlashRest
