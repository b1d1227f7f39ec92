import SynaBoot.FlashRounds

namespace SynaBoot.FlashDurable

open SynaBoot.PowerCut SynaBoot.FlashDevice SynaBoot.FlashRecord SynaBoot.FlashTs
open SynaBoot.FlashSlots SynaBoot.FlashDriver SynaBoot.FlashScan SynaBoot.FlashStrings
open SynaBoot.FlashCommit SynaBoot.FlashPages SynaBoot.FlashRounds SynaBoot.StringArea

structure Fresh (g : Geometry) (f : Flash) (ts : Priv) : Prop where
  newest : ∀ s, Good g s → versionAt g f s ≤ ts.cache.version
  passed : ∀ o, ts.offset = o * flashTsMaxSize → (o + 1) % perBlock g ≠ 0 →
    ∀ x ≤ o, x / perBlock g = o / perBlock g → Passed (chunkAt g f x)

structure Synced (g : Geometry) (f : Flash) (ts : Priv) : Prop where
  newest : ∀ s, Good g s → versionAt g f s ≤ ts.cache.version
  same : ∀ s, Good g s → versionAt g f s ≠ 0 → versionAt g f s = ts.cache.version →
    contents (ofBytes (chunkAt g f s)) = contents ts.cache
  live : ts.cache.version ≠ 0 → ∃ o, ts.offset = o * flashTsMaxSize ∧ Visible g f o ∧
    versionAt g f o = ts.cache.version
  empty : ts.cache.version = 0 → contents ts.cache = [0] ∧
    ts.offset = (slots g - 1) * flashTsMaxSize

structure Tracked (g : Geometry) (S : Set FlashTs) (n : Nat) (f : Flash) (ts : Priv)
    (ss : List (List UInt8)) : Prop where
  sound : Sound ts.cache ss
  version : ts.cache.version.toNat ≤ n
  provenance : Provenance g S f
  placed : ∃ o < slots g, ts.offset = o * flashTsMaxSize ∧ ((o + 1) % perBlock g ≠ 0 →
    flashBlockIsbad g (o / perBlock g * g.blockSize) = false)

theorem slot_inj {s s' : Nat} (h : s * flashTsMaxSize = s' * flashTsMaxSize) : s = s' :=
  Nat.eq_of_mul_eq_mul_right maxSize_pos h

theorem passed_of_version {c : List UInt8} (h : flashTsCheckHeader (ofBytes c) ≠ 0) : Passed c :=
  fun hc => h hc.1

variable {g : Geometry} {ts : Priv}

theorem Synced.fresh {f : Flash} (h : Synced g f ts) (hpos : 0 < slots g) : Fresh g f ts := by
  refine ⟨h.newest, fun o ho hne x hx hb => ?_⟩
  by_cases hv : ts.cache.version = 0
  · have hoff := (h.empty hv).2
    rw [ho] at hoff
    have hlast : o + 1 = slots g := by
      rw [slot_inj hoff]
      omega
    rw [hlast, slots] at hne
    exact absurd (Nat.mul_mod_left _ _) hne
  · obtain ⟨o', ho', hvis, hver⟩ := h.live hv
    rw [ho] at ho'
    cases slot_inj ho'
    rcases Nat.lt_or_eq_of_le hx with hlt | rfl
    · exact hvis.2 x hlt hb
    · exact passed_of_version (by rw [← hver] at hv; exact hv)

def commits (ts : Priv) (key value : CString) : Nat := if (attempt ts key value).isSome then 1 else 0

def after (res : Int) (key value : CString) (ss : List (List UInt8)) : List (List UInt8) :=
  if res = 0 then put key.1 value.1 ss else ss

theorem lt_succ_version {v : UInt32} (h : v.toNat + 1 < 2 ^ 32) : v < v + 1 := by
  rw [UInt32.lt_iff_toNat_lt, UInt32.toNat_add]
  simp only [UInt32.toNat_one]
  omega

theorem toNat_succ_le (v : UInt32) : (v + 1).toNat ≤ v.toNat + 1 := by
  rw [UInt32.toNat_add]
  exact Nat.mod_le _ _

section

variable {g : Geometry} (hg : Usable g)
include hg

theorem init_synced {f : Flash} {ts : Priv} (h : Synced g f ts) (hgood : ∃ s, Good g s)
    {rd : Nat → Nat → Outcome} (hrd : ∀ off i, rd off i = .ok) (old : Bytes flashTsMaxDataSize) :
    ∃ ts', flashTsInit g rd old f = .ret (0, some ts') f ∧
      contents ts'.cache = contents ts.cache := by
  by_cases hv : ts.cache.version = 0
  · have hzero : ∀ s, Visible g f s → versionAt g f s = 0 := by
      intro s hs
      have hle := h.newest s hs.1
      rw [hv] at hle
      exact UInt32.le_antisymm hle (by simp)
    refine ⟨_, init_empty hg hrd hgood old hzero, ?_⟩
    rw [(h.empty hv).1]
    exact (sound_emptyCache old).represents.contents
  · obtain ⟨o, -, hvis, hver⟩ := h.live hv
    have hne : versionAt g f o ≠ 0 := by
      rw [hver]
      exact hv
    obtain ⟨s, hret, hs, hsv⟩ := init_newest hg hrd old hvis hne fun s hs => by
      rw [hver]
      exact h.newest s hs.1
    refine ⟨_, hret, h.same s hs.1 ?_ (hsv.trans hver)⟩
    rw [hsv]
    exact hne

variable {S : Set FlashTs} {f f' : Flash} {r : FlashTs} {ss : List (List UInt8)}

theorem set_ends {n : Nat} {ts ts' : Priv} (h : Tracked g S n f ts ss) {key value : CString}
    {fate : Nat → Fate} (hr : attempt ts key value = some r) (hmem : r ∈ S) {o : Nat}
    (ho : ts.offset = o * flashTsMaxSize) {res : Int}
    (hret : flashTsSet g fate key value ts f = .ret (res, ts') f') :
    Provenance g S f' ∧
      ((res = 0 ∧ ∃ q, ts' = { offset := q * flashTsMaxSize, cache := r } ∧
          Committed g f r o q f') ∨
        (res = -eio ∧ ts' = ts ∧ ∀ y, Good g y → Trace g f r o fate (g.blocks * 2) f' y)) := by
  obtain ⟨o', hlt, ho', hblock⟩ := h.placed
  rw [ho] at ho'
  cases slot_inj ho'
  rw [flashTsSet_attempt hg h.sound hr fate] at hret
  obtain ⟨x, f'', hloop, hfin⟩ := bind_eq_ret hret
  have hoff : ts.offset + flashTsMaxSize = (o + 1) * flashTsMaxSize := by
    rw [ho, Nat.succ_mul]
  rw [hoff, commitLoop_visited hg, ho] at hloop
  have hends := wp_ret (wp_commitLoop_rounds hg hmem (by omega) hblock (g.blocks * 2) 0 f
    (by omega) h.provenance (fun x _ => .inl rfl) (fun _ => rfl)) hloop
  have hfin' : finish ts x = (res, ts') ∧ f'' = f' := Exec.ret.inj hfin
  obtain ⟨hx, rfl⟩ := hfin'
  refine ⟨hends.1, ?_⟩
  rcases hends.2 with ⟨q, rfl, hc⟩ | ⟨rfl, ht⟩
  · rw [finish_ok] at hx
    obtain ⟨hres, hts⟩ := Prod.mk.inj hx
    exact .inl ⟨hres.symm, q, hts.symm, hc⟩
  · rw [finish_eio] at hx
    obtain ⟨hres, hts⟩ := Prod.mk.inj hx
    refine .inr ⟨hres.symm, ?_, ht⟩
    rw [← hts, ← ho]

theorem version_of_flight (hcrc : CrcRejectsMixtures g S) (hmem : r ∈ S) (hprov : Provenance g S f')
    (hf : Flight g f r f') {s : Nat} (hs : Good g s) :
    versionAt g f' s = versionAt g f s ∨ versionAt g f' s = 0 ∨ Agrees (chunkAt g f' s) r := by
  rcases hf s hs with he | he | he
  · left
    rw [versionAt, versionAt, he]
  · exact .inr (.inl (check_of_erased_head hg he))
  · right
    by_cases h0 : versionAt g f' s = 0
    · exact .inl h0
    · exact .inr (hcrc _ (hprov s hs) r hmem he h0)

theorem synced_of_committed (hcrc : CrcRejectsMixtures g S) {ts : Priv} (hfresh : Fresh g f ts)
    (hmem : r ∈ S) (hprov : Provenance g S f') (hsound : Sound r ss)
    (hver : r.version = ts.cache.version + 1) (hlt : ts.cache.version.toNat + 1 < 2 ^ 32)
    {o q : Nat} (ho : ts.offset = o * flashTsMaxSize) (hc : Committed g f r o q f') :
    Synced g f' { offset := q * flashTsMaxSize, cache := r } := by
  have hlt' : ts.cache.version < r.version := by
    rw [hver]
    exact lt_succ_version hlt
  have hne : r.version ≠ 0 := by
    intro h0
    rw [h0] at hlt'
    exact absurd hlt' (by simp)
  have hcheck := check_of_sound hsound hne
  have hagree : ∀ s, Agrees (chunkAt g f' s) r → versionAt g f' s = r.version := by
    intro s ha
    rw [versionAt, check_of_agrees ha, hcheck]
  refine ⟨fun s hs => ?_, fun s hs hs0 hsv => ?_, fun _ => ⟨q, rfl, ⟨hc.good, ?_⟩, ?_⟩,
    fun h0 => absurd h0 hne⟩
  · rcases version_of_flight hg hcrc hmem hprov hc.flight hs with hv | hv | hv
    · rw [hv]
      exact UInt32.le_of_lt (UInt32.lt_of_le_of_lt (hfresh.newest s hs) hlt')
    · rw [hv]
      simp
    · rw [hagree s hv]
      exact UInt32.le_refl _
  · rcases version_of_flight hg hcrc hmem hprov hc.flight hs with hv | hv | hv
    · rw [hv] at hsv
      have hle := hfresh.newest s hs
      rw [hsv] at hle
      exact absurd (UInt32.lt_of_lt_of_le hlt' hle) (UInt32.lt_irrefl _)
    · exact absurd hv hs0
    · exact contents_of_agrees hv
  · intro x hx hb
    by_cases h0 : q % perBlock g = 0
    · have hle := Nat.div_mul_le_self x (perBlock g)
      rw [hb, Nat.div_mul_cancel (Nat.dvd_of_mod_eq_zero h0)] at hle
      omega
    · obtain ⟨rfl, hsame⟩ := hc.inside h0
      rw [hsame x hx hb]
      exact hfresh.passed o ho h0 x (by omega) (hb.trans (succ_same_block h0))
  · exact hagree q (by rw [hc.chunk]; exact agrees_toBytes r)

theorem Tracked.step {n : Nat} {ts ts' : Priv} (h : Tracked g S n f ts ss) {key value : CString}
    {fate : Nat → Fate} (hmem : ∀ r, attempt ts key value = some r → r ∈ S) {res : Int}
    (hret : flashTsSet g fate key value ts f = .ret (res, ts') f') :
    Tracked g S (n + commits ts key value) f' ts' (after res key value ss) := by
  cases hr : attempt ts key value with
  | none =>
    have hn : n + commits ts key value = n := by simp [commits, hr]
    rw [hn]
    rcases flashTsSet_none h.sound hr g fate with ⟨hp, hput⟩ | ⟨hp, -⟩
    · rw [hp] at hret
      cases hret
      rw [after, if_pos rfl, hput]
      exact h
    · rw [hp] at hret
      cases hret
      exact h
  | some r =>
    have hn : n + commits ts key value = n + 1 := by simp [commits, hr]
    obtain ⟨o, hlt, ho, hblock⟩ := h.placed
    obtain ⟨hsound, hver⟩ := attempt_spec h.sound hr
    obtain ⟨hprov, ⟨rfl, q, rfl, hc⟩ | ⟨rfl, rfl, -⟩⟩ := set_ends hg h hr (hmem r hr) ho hret
    · rw [hn, after, if_pos rfl]
      refine ⟨hsound, ?_, hprov, q, hc.good.1, rfl, fun _ => hc.good.2⟩
      have hle := toNat_succ_le ts.cache.version
      have hv := h.version
      rw [hver]
      omega
    · rw [hn, after, if_neg (by decide)]
      exact ⟨h.sound, Nat.le_succ_of_le h.version, hprov, o, hlt, ho, hblock⟩

def Blank (g : Geometry) (f : Flash) : Prop := ∀ s, Good g s → chunkAt g f s = erasedChunk g

theorem version_of_blank {f : Flash} (h : Blank g f) {s : Nat} (hs : Good g s) :
    versionAt g f s = 0 := by
  rw [versionAt, h s hs]
  exact check_of_erased_head hg SamePage.rfl

theorem init_blank {f : Flash} (h : Blank g f) (hgood : ∃ s, Good g s)
    {rd : Nat → Nat → Outcome} (hrd : ∀ off i, rd off i = .ok) (old : Bytes flashTsMaxDataSize) :
    flashTsInit g rd old f = .ret (0, some (emptyPriv g old)) f :=
  init_empty hg hrd hgood old fun _ hs => version_of_blank hg h hs.1

omit hg in
theorem slots_pos (hgood : ∃ s, Good g s) : 0 < slots g := by
  obtain ⟨s, hs, -⟩ := hgood
  omega

theorem offset_emptyPriv (old : Bytes flashTsMaxDataSize) :
    (emptyPriv g old).offset = (slots g - 1) * flashTsMaxSize := by
  rw [emptyPriv, partitionSize_eq hg, chunk_eq hg, Nat.sub_mul, Nat.one_mul]

theorem tracked_blank {f : Flash} (h : Blank g f) (hgood : ∃ s, Good g s) (S : Set FlashTs)
    (old : Bytes flashTsMaxDataSize) : Tracked g S 0 f (emptyPriv g old) [] := by
  have hpos := slots_pos hgood
  refine ⟨sound_emptyCache old, le_rfl, fun s hs => ?_, slots g - 1, by omega,
    offset_emptyPriv hg old, fun hne => ?_⟩
  · rw [h s hs]
    exact ⟨length_erasedChunk g, fun p _ => .inl SamePage.rfl⟩
  · rw [Nat.sub_add_cancel hpos, slots] at hne
    exact absurd (Nat.mul_mod_left _ _) hne

theorem synced_blank {f : Flash} (h : Blank g f) (old : Bytes flashTsMaxDataSize) :
    Synced g f (emptyPriv g old) := by
  refine ⟨fun s hs => ?_, fun s hs hne => absurd (version_of_blank hg h hs) hne,
    fun hne => absurd rfl hne, fun _ => ⟨?_, offset_emptyPriv hg old⟩⟩
  · rw [version_of_blank hg h hs]
    simp
  · exact (sound_emptyCache old).represents.contents

end

theorem emptyPriv_of_init (hg : Usable g) (hgood : ∃ s, Good g s) {rd : Nat → Nat → Outcome}
    {old : Bytes flashTsMaxDataSize} {f : Flash} (hblank : Blank g f)
    (hrd : ∀ off i, rd off i = .ok) (hret : flashTsInit g rd old f = .ret (0, some ts) f) :
    ts = emptyPriv g old := by
  rw [init_blank hg hblank hgood hrd old] at hret
  cases hret
  rfl

variable {key value : CString}

theorem set_no_blocks (hb : g.blocks = 0) {fate : Nat → Fate} {ts ts' : Priv} {f f' : Flash}
    {r : FlashTs} {res : Int} (hr : attempt ts key value = some r)
    (hret : flashTsSet g fate key value ts f = .ret (res, ts') f') :
    res ≠ 0 ∧ ts'.cache = ts.cache ∧ f' = f := by
  rw [flashTsSet] at hret
  split at hret
  · cases hret
    exact ⟨by decide, rfl, rfl⟩
  · obtain ⟨c, hc, -⟩ := attempt_changed hr
    rw [hc] at hret
    simp only at hret
    obtain ⟨⟨res', ts''⟩, f'', hcommit, hend⟩ := bind_eq_ret hret
    have hzero : partitionSize g / g.blockSize * 2 = 0 := by
      rw [partitionSize, hb, Nat.zero_mul, Nat.zero_div, Nat.zero_mul]
    simp only [flashTsCommit, hzero, commitLoop] at hcommit
    cases hcommit
    cases hend
    exact ⟨show (-eio : Int) ≠ 0 by decide, rfl, rfl⟩

theorem set_none {fate : Nat → Fate} {ts ts' : Priv} {f f' : Flash} {res : Int}
    (hn : attempt ts key value = none)
    (hret : flashTsSet g fate key value ts f = .ret (res, ts') f') : ts' = ts ∧ f' = f := by
  rw [flashTsSet] at hret
  split at hret
  · cases hret
    exact ⟨rfl, rfl⟩
  · unfold attempt at hn
    cases hc : updateCache ts.cache key.1 value.1 with
    | same =>
      rw [hc] at hret
      cases hret
      exact ⟨rfl, rfl⟩
    | noSpace =>
      rw [hc] at hret
      cases hret
      exact ⟨rfl, rfl⟩
    | changed c =>
      rw [hc] at hn
      cases hn

theorem contents_keep (g : Geometry) (f : Flash) (s : Nat) (old old' : Bytes flashTsMaxDataSize) :
    contents (keep g f s (emptyPriv g old)).cache = contents (keep g f s (emptyPriv g old')).cache := by
  have hv : (emptyPriv g old).cache.version = (emptyPriv g old').cache.version := rfl
  unfold keep
  rw [hv]
  split
  · rfl
  · exact (sound_emptyCache old).represents.contents.trans
      (sound_emptyCache old').represents.contents.symm

def allOk : Fate := ⟨.ok, fun _ => .ok, fun _ => .ok, .ok⟩

theorem set_ok (hg : Usable g) (hb : 0 < g.blocks) {ss : List (List UInt8)} (h : Sound ts.cache ss)
    {r : FlashTs} (hr : attempt ts key value = some r) {o s : Nat}
    (ho : ts.offset = o * flashTsMaxSize) (hs : wrap g (o + 1) = s) (hgood : Good g s) (f : Flash) :
    ∃ f', flashTsSet g (fun _ => allOk) key value ts f =
        .ret (0, { offset := s * flashTsMaxSize, cache := r }) f' ∧
      chunkAt g f' s = toBytes r ∧
      ∀ x ≠ s, chunkAt g f' x = chunkAt g f x ∨
        (s % perBlock g = 0 ∧ chunkAt g f' x = erasedChunk g) := by
  have henter : Enters g allOk s := fun _ => ⟨hgood.2, rfl⟩
  have hchunk := chunkAt_written_ok hg (r := r) (fun k _ => rfl : ∀ k < pages g, allOk.write k = .ok)
    (entered g f s) s
  have hother : ∀ x ≠ s, chunkAt g (written g r allOk.write (entered g f s) s) x = chunkAt g f x ∨
      (s % perBlock g = 0 ∧
        chunkAt g (written g r allOk.write (entered g f s) s) x = erasedChunk g) := by
    intro x hx
    rw [chunkAt_written_ne r _ _ hx, entered]
    split
    · next h0 =>
      by_cases hbx : x / perBlock g = s / perBlock g
      · exact .inr ⟨h0, chunkAt_erasedBlock hg f hbx⟩
      · exact .inl (chunkAt_erasedBlock_ne hg _ f hbx)
    · exact .inl rfl
  obtain ⟨m, hm⟩ : ∃ m, g.blocks * 2 = m + 1 := ⟨g.blocks * 2 - 1, by omega⟩
  have hwp : wp (commitLoop g { offset := ts.offset, cache := r } (fun _ => allOk) (toBytes r)
      (m + 1) 0 (s * flashTsMaxSize))
      (fun x f' => x = (0, { offset := s * flashTsMaxSize, cache := r }) ∧
        chunkAt g f' s = toBytes r ∧ ∀ x ≠ s, chunkAt g f' x = chunkAt g f x ∨
          (s % perBlock g = 0 ∧ chunkAt g f' x = erasedChunk g)) (fun _ => False) f := by
    have ho' : ({ offset := ts.offset, cache := r } : Priv).offset = o * flashTsMaxSize := ho
    refine wp_round_ok hg ho' (fun _ => allOk) r m 0 hgood.1 henter (fun _ => rfl) (fun _ => rfl) rfl
      (fun _ => ⟨rfl, hchunk, hother⟩) (fun hret => ⟨rfl, ?_, fun x hx => ?_⟩)
    · rw [chunkAt_erasedBlock_ne hg _ _ hret.2]
      exact hchunk
    · by_cases hbx : x / perBlock g = o / perBlock g
      · exact .inr ⟨hret.1, chunkAt_erasedBlock hg _ hbx⟩
      · rw [chunkAt_erasedBlock_ne hg _ _ hbx]
        exact hother x hx
  obtain ⟨x, f', hloop, rfl, hrest⟩ := exists_ret hwp
  have hoff : ts.offset + flashTsMaxSize = (o + 1) * flashTsMaxSize := by
    rw [ho, Nat.succ_mul]
  refine ⟨f', ?_, hrest⟩
  rw [flashTsSet_attempt hg h hr, hoff, commitLoop_visited hg, hs, hm, bind_ret hloop, finish_ok]
  rfl

end SynaBoot.FlashDurable
