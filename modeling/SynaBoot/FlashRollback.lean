import SynaBoot.FlashSets

namespace SynaBoot.FlashRollback

open SynaBoot.PowerCut SynaBoot.FlashDevice SynaBoot.FlashRecord SynaBoot.FlashTs
open SynaBoot.FlashSlots SynaBoot.FlashDriver SynaBoot.FlashScan SynaBoot.FlashStrings
open SynaBoot.FlashCommit SynaBoot.FlashPages SynaBoot.FlashRounds SynaBoot.StringArea
open SynaBoot.FlashDurable SynaBoot.FlashSets

inductive Successful (g : Geometry) (S : Set FlashTs) :
    Nat → Flash → Priv → List (List UInt8) → Prop
  | init {rd : Nat → Nat → Outcome} {old : Bytes flashTsMaxDataSize} {f : Flash} {ts : Priv}
      (hblank : Blank g f) (hrd : ∀ off i, rd off i = .ok)
      (hret : flashTsInit g rd old f = .ret (0, some ts) f) : Successful g S 0 f ts []
  | set {n : Nat} {f f' : Flash} {ts ts' : Priv} {ss : List (List UInt8)} {key value : CString}
      {fate : Nat → Fate} (hrun : Successful g S n f ts ss)
      (hmem : ∀ r, attempt ts key value = some r → r ∈ S)
      (hret : flashTsSet g fate key value ts f = .ret (0, ts') f') :
      Successful g S (n + commits ts key value) f' ts' (put key.1 value.1 ss)

/-- The failures of a commit do no harm. -/
structure Harmless (g : Geometry) (f : Flash) (ts : Priv) (r : FlashTs) (fate : Nat → Fate) :
    Prop where
  live : ts.cache.version ≠ 0 → ∀ o, ts.offset = o * flashTsMaxSize →
    ∀ i < g.blocks * 2, ¬ Erases g o fate i o
  copies : ∀ o, ts.offset = o * flashTsMaxSize → ∀ i < g.blocks * 2,
    Enters g (fate i) (visited g o i) →
      flashTsCheckHeader (ofBytes (leftover g f r (fate i).write (visited g o i))) = 0 ∨
        ∃ k, i < k ∧ k < g.blocks * 2 ∧ Erases g o fate k (visited g o i)

section

variable {g : Geometry} {f f' : Flash} {ts : Priv} {r : FlashTs} {fate : Nat → Fate} {o : Nat}
  (ho : ts.offset = o * flashTsMaxSize) (hharm : Harmless g f ts r fate)
  (htrace : ∀ y, Good g y → Trace g f r o fate (g.blocks * 2) f' y)
include ho hharm htrace

theorem chunk_of_harmless (hg : Usable g) {y : Nat} (hy : Good g y) :
    chunkAt g f' y = chunkAt g f y ∨ versionAt g f' y = 0 := by
  rcases htrace y hy with he | ⟨he, -⟩ | ⟨j, hj, rfl, henter, he, hno⟩
  · exact .inl he
  · right
    rw [versionAt, he]
    exact check_of_erased_head hg SamePage.rfl
  · right
    rcases hharm.copies o ho j hj henter with h0 | ⟨k, hjk, hk, hek⟩
    · rw [versionAt, he]
      exact h0
    · exact absurd hek (hno k hjk hk)

theorem live_of_harmless (hv : ts.cache.version ≠ 0) {x : Nat} (hx : Good g x) (hle : x ≤ o)
    (hb : x / perBlock g = o / perBlock g) : chunkAt g f' x = chunkAt g f x := by
  have hno : ∀ j < g.blocks * 2, ¬ Erases g o fate j x := by
    intro j hj he
    exact hharm.live hv o ho j hj ⟨he.1, he.2.1.trans hb, he.2.2⟩
  rcases htrace x hx with he | ⟨-, j, hj, hej⟩ | ⟨j, hj, hvis, henter, -, -⟩
  · exact he
  · exact absurd hej (hno j hj)
  · by_cases h0 : x % perBlock g = 0
    · exact absurd ⟨by rwa [hvis], by rw [hvis], (henter h0).2⟩ (hno j hj)
    · rw [← hvis] at h0
      obtain ⟨-, hin⟩ := visited_inside h0
      omega

theorem synced_of_harmless (hg : Usable g) (h : Synced g f ts) : Synced g f' ts := by
  have hchunk := fun y hy => chunk_of_harmless ho hharm htrace hg (y := y) hy
  refine ⟨fun s hs => ?_, fun s hs hne hsv => ?_, fun hv => ?_, h.empty⟩
  · rcases hchunk s hs with he | he
    · rw [versionAt, he]
      exact h.newest s hs
    · rw [he]
      simp
  · rcases hchunk s hs with he | he
    · rw [versionAt, he] at hne hsv
      rw [he]
      exact h.same s hs hne hsv
    · exact absurd he hne
  · obtain ⟨o', ho', hvis, hver⟩ := h.live hv
    rw [ho] at ho'
    cases slot_inj ho'
    have hgood : ∀ x ≤ o, x / perBlock g = o / perBlock g → Good g x := by
      intro x hx hb
      refine ⟨lt_of_le_of_lt hx hvis.1.1, ?_⟩
      rw [hb]
      exact hvis.1.2
    have hsame : ∀ x ≤ o, x / perBlock g = o / perBlock g → chunkAt g f' x = chunkAt g f x :=
      fun x hx hb => live_of_harmless ho hharm htrace hv (hgood x hx hb) hx hb
    refine ⟨o, ho, ⟨hvis.1, fun x hx hb => ?_⟩, ?_⟩
    · rw [hsame x hx.le hb]
      exact hvis.2 x hx hb
    · rw [versionAt, hsame o le_rfl rfl]
      exact hver

end

variable {f : Flash} {g : Geometry} {ss : List (List UInt8)} {ts : Priv}

theorem Successful.synced {S : Set FlashTs} (hcrc : CrcRejectsMixtures g S) (hb : 0 < g.blocks)
    {n : Nat} (h : Successful g S n f ts ss) (hn : n < 2 ^ 32 - 1) :
    Usable g ∧ (∃ s, Good g s) ∧ Tracked g S n f ts ss ∧ Synced g f ts := by
  induction h with
  | init hblank hrd hret =>
    have hg := usable_of_init hret
    have hgood := good_of_init hret hb
    rw [emptyPriv_of_init hg hgood hblank hrd hret]
    exact ⟨hg, hgood, tracked_blank hg hblank hgood S _, synced_blank hg hblank _⟩
  | @set n f f' ts ts' ss key value fate hrun hmem hret ih =>
    obtain ⟨hg, hgood, ht, hsync⟩ := ih (by omega)
    refine ⟨hg, hgood, ht.step hg hmem hret, ?_⟩
    cases hr : attempt ts key value with
    | none =>
      obtain ⟨rfl, rfl⟩ := set_none hr hret
      exact hsync
    | some r =>
      obtain ⟨o, -, ho, -⟩ := ht.placed
      obtain ⟨hsound, hver⟩ := attempt_spec ht.sound hr
      have hlt : ts.cache.version.toNat + 1 < 2 ^ 32 := by
        have := ht.version
        omega
      obtain ⟨hprov, ⟨-, q, rfl, hc⟩ | ⟨hres, -⟩⟩ := set_ends hg ht hr (hmem r hr) ho hret
      · exact synced_of_committed hg hcrc (hsync.fresh (slots_pos hgood)) (hmem r hr) hprov hsound
          hver hlt ho hc
      · exact absurd hres (by decide)

theorem Successful.idle {S : Set FlashTs} (hb : g.blocks = 0) {n : Nat}
    (h : Successful g S n f ts ss) :
    ∃ rd old, (∀ off i, rd off i = Outcome.ok) ∧ flashTsInit g rd old f = .ret (0, some ts) f := by
  induction h with
  | init _ hrd hret => exact ⟨_, _, hrd, hret⟩
  | @set n f f' ts ts' ss key value fate hrun hmem hret ih =>
    cases hr : attempt ts key value with
    | none =>
      obtain ⟨rfl, rfl⟩ := set_none hr hret
      exact ih
    | some r => exact absurd rfl (set_no_blocks hb hr hret).1

theorem failed_set_empty (hb : g.blocks = 0) {fate : Nat → Fate} {key value : CString}
    {ts ts' : Priv} {f f' : Flash} {res : Int}
    (hret : flashTsSet g fate key value ts f = .ret (res, ts') f') :
    ts'.cache = ts.cache ∧ f' = f := by
  cases hr : attempt ts key value with
  | none =>
    obtain ⟨rfl, rfl⟩ := set_none hr hret
    exact ⟨rfl, rfl⟩
  | some r => exact (set_no_blocks hb hr hret).2

/-- A set that fails restores the cache, and without harm the next initialisation loads it. -/
theorem failed_set_rolls_back {g : Geometry} {S : Set FlashTs} (hcrc : CrcRejectsMixtures g S)
    {n : Nat} {f f' : Flash} {ts ts' : Priv} {ss : List (List UInt8)}
    (hrun : Successful g S n f ts ss) (hn : n < 2 ^ 32 - 1) {key value : CString}
    {fate : Nat → Fate} {res : Int}
    (hret : flashTsSet g fate key value ts f = .ret (res, ts') f') (hres : res ≠ 0)
    {rd : Nat → Nat → Outcome} (hrd : ∀ off i, rd off i = .ok) (old : Bytes flashTsMaxDataSize) :
    ts'.cache = ts.cache ∧ ((∀ r, attempt ts key value = some r → Harmless g f ts r fate) →
      ∃ ts'', flashTsInit g rd old f' = .ret (0, some ts'') f' ∧
        contents ts''.cache = contents ts.cache) := by
  rcases Nat.eq_zero_or_pos g.blocks with hb | hb
  · obtain ⟨hcache, rfl⟩ := failed_set_empty hb hret
    obtain ⟨rd₀, old₀, hrd₀, hinit⟩ := hrun.idle hb
    obtain ⟨hts, hinit'⟩ := init_no_blocks hb hrd₀ hrd old hinit
    refine ⟨hcache, fun _ => ⟨_, hinit', ?_⟩⟩
    rw [hts]
    exact contents_keep g f' 0 old old₀
  · obtain ⟨hg, hgood, ht, hsync⟩ := hrun.synced hcrc hb hn
    cases hr : attempt ts key value with
    | none =>
      obtain ⟨rfl, rfl⟩ := set_none hr hret
      exact ⟨rfl, fun _ => init_synced hg hsync hgood hrd old⟩
    | some r =>
      obtain ⟨o, -, ho, -⟩ := ht.placed
      have ht' : Tracked g Set.univ n f ts ss :=
        ⟨ht.sound, ht.version, ht.provenance.mono (Set.subset_univ S), ht.placed⟩
      obtain ⟨-, ⟨h0, -⟩ | ⟨-, rfl, htrace⟩⟩ := set_ends hg ht' hr (Set.mem_univ r) ho hret
      · exact absurd h0 hres
      · refine ⟨rfl, fun hharm => ?_⟩
        have hsync' := synced_of_harmless ho (hharm r rfl) htrace hg hsync
        exact init_synced hg hsync' hgood hrd old

def noLuck : Fate := ⟨.fail false, fun _ => .fail false, fun _ => .ok, .ok⟩

theorem wp_commitLoop_noLuck (hg : Usable g) (hpos : 0 < slots g) {o : Nat}
    (ho : ts.offset = o * flashTsMaxSize) (r : FlashTs) (f : Flash) (n i s : Nat) :
    wp (commitLoop g ts (fun _ => noLuck) (toBytes r) n i (s * flashTsMaxSize))
      (fun x f' => x = (-eio, ts) ∧ f' = f) (fun _ => False) f := by
  induction n generalizing i s with
  | zero =>
    rw [commitLoop, wp_pure]
    exact ⟨rfl, rfl⟩
  | succ n ih =>
    rw [commitLoop_visited hg]
    by_cases h0 : wrap g s % perBlock g = 0
    · exact wp_round_skip hg ho _ r n i (wrap_lt hpos) h0 rfl (ih _ _)
    · refine wp_round_drop hg ho _ r n i (wrap_lt hpos) (fun h => absurd h h0) rfl rfl
        (fun _ _ h => by cases h) (fun _ _ h => by cases h) ?_
      rw [entered, if_neg h0]
      exact ih _ _

theorem set_noLuck (hg : Usable g) (hpos : 0 < slots g) (h : Sound ts.cache ss)
    {key value : CString} {r : FlashTs} (hr : attempt ts key value = some r) {o : Nat}
    (ho : ts.offset = o * flashTsMaxSize) (f : Flash) :
    flashTsSet g (fun _ => noLuck) key value ts f = .ret (-eio, ts) f := by
  have ho' : ({ offset := ts.offset, cache := r } : Priv).offset = o * flashTsMaxSize := ho
  obtain ⟨x, f', hloop, rfl, rfl⟩ :=
    exists_ret (wp_commitLoop_noLuck hg hpos ho' r f (g.blocks * 2) 0 (o + 1))
  have hoff : ts.offset + flashTsMaxSize = (o + 1) * flashTsMaxSize := by
    rw [ho, Nat.succ_mul]
  rw [flashTsSet_attempt hg h hr, hoff]
  exact (bind_ret hloop).trans (by rw [finish_eio]; rfl)

theorem check_of_noLuck_leftover (hf : ∀ x ≠ 0, chunkAt twoBlocks f x = erasedChunk twoBlocks)
    (r : FlashTs) :
    flashTsCheckHeader (ofBytes (leftover twoBlocks f r noLuck.write (visited twoBlocks 0 0))) = 0 := by
  have hst : stored noLuck.write (pages twoBlocks) 0 = 0 := by decide
  have hne : visited twoBlocks 0 0 ≠ 0 := by decide
  have hin : ¬ visited twoBlocks 0 0 % perBlock twoBlocks = 0 := by decide
  rw [leftover, hst, Nat.zero_mul, List.take_zero, List.nil_append, List.drop_zero, if_neg hin,
    hf _ hne]
  exact check_of_erased_head usable_twoBlocks SamePage.rfl

theorem failed_set_rolls_back_noLuck : ∃ ts f ts',
    flashTsSet twoBlocks (fun _ => allOk) keyA valueOne (emptyPriv twoBlocks zeroBytes) blankFlash =
        .ret (0, ts) f ∧
      flashTsSet twoBlocks (fun _ => noLuck) keyB valueOne ts f = .ret (-eio, ts) f ∧
      flashTsInit twoBlocks okReads zeroBytes f = .ret (0, some ts') f ∧
      contents ts'.cache = [97, 61, 49, 0, 0] := by
  have hg := usable_twoBlocks
  obtain ⟨r₁, f, hr₁, hs₁, hset, hblank⟩ := first_set
  obtain ⟨r₂, hr₂⟩ : ∃ r, attempt ⟨0 * flashTsMaxSize, r₁⟩ keyB valueOne = some r :=
    next_attempt hs₁ (by decide) (by decide)
  have hset₂ := set_noLuck hg (by decide) hs₁ hr₂ rfl f
  have hmem : ∀ r, attempt (emptyPriv twoBlocks zeroBytes) keyA valueOne = some r →
      r ∈ ({r₁} : Set FlashTs) := by
    intro r hr
    rw [hr₁] at hr
    cases hr
    rfl
  have hrun := Successful.set (.init blank_twoBlocks (fun _ _ => rfl) init_twoBlocks) hmem hset
  have hharm : ∀ r, attempt ⟨0 * flashTsMaxSize, r₁⟩ keyB valueOne = some r →
      Harmless twoBlocks f ⟨0 * flashTsMaxSize, r₁⟩ r (fun _ => noLuck) := by
    refine fun r _ => ⟨fun _ o _ i _ he => (nomatch he.2.2), fun o ho i _ henter => .inl ?_⟩
    cases slot_inj ho
    by_cases h0 : visited twoBlocks 0 i % perBlock twoBlocks = 0
    · exact nomatch (henter h0).2
    · obtain ⟨rfl, -⟩ := visited_inside h0
      exact check_of_noLuck_leftover hblank r
  obtain ⟨-, hload⟩ := failed_set_rolls_back (small_singleton hs₁) hrun (by simp [commits, hr₁])
    hset₂ (by decide) okReads_ok zeroBytes
  obtain ⟨ts', hinit, hdata⟩ := hload hharm
  exact ⟨_, f, ts', hset, hset₂, hinit, hdata.trans hs₁.represents.contents⟩

theorem failed_set_loses_data : ∃ ts f f' ts',
    flashTsInit twoBlocks okReads zeroBytes blankFlash =
        .ret (0, some (emptyPriv twoBlocks zeroBytes)) blankFlash ∧
      flashTsSet twoBlocks (fun _ => allOk) keyA valueOne (emptyPriv twoBlocks zeroBytes)
        blankFlash = .ret (0, ts) f ∧
      flashTsSet twoBlocks badLuck keyB valueOne ts f = .ret (-eio, ts) f' ∧
      flashTsInit twoBlocks okReads zeroBytes f' = .ret (0, some ts') f' ∧
      contents ts.cache = [97, 61, 49, 0, 0] ∧ contents ts'.cache = [0] := by
  obtain ⟨r₁, f, -, hs₁, hset, hblank⟩ := first_set
  obtain ⟨r₂, hr₂⟩ : ∃ r, attempt ⟨0 * flashTsMaxSize, r₁⟩ keyB valueOne = some r :=
    next_attempt hs₁ (by decide) (by decide)
  obtain ⟨f', hset₂, hblank₂⟩ := set_badLuck hs₁ hr₂ rfl hblank
  refine ⟨_, f, f', _, init_twoBlocks, hset, hset₂,
    init_blank usable_twoBlocks (fun s _ => hblank₂ s) exists_good_twoBlocks (fun _ _ => rfl) zeroBytes,
    hs₁.represents.contents, ?_⟩
  exact (sound_emptyCache zeroBytes).represents.contents

end SynaBoot.FlashRollback
