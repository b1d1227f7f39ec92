import SynaBoot.FlashDurable

namespace SynaBoot.FlashSets

open SynaBoot.PowerCut SynaBoot.FlashDevice SynaBoot.FlashRecord SynaBoot.FlashTs
open SynaBoot.FlashSlots SynaBoot.FlashDriver SynaBoot.FlashScan SynaBoot.FlashStrings
open SynaBoot.FlashCommit SynaBoot.FlashPages SynaBoot.FlashRounds SynaBoot.StringArea
open SynaBoot.FlashDurable

inductive Sets (g : Geometry) (S : Set FlashTs) : Nat → Flash → Priv → List (List UInt8) → Prop
  | init {rd : Nat → Nat → Outcome} {old : Bytes flashTsMaxDataSize} {f : Flash} {ts : Priv}
      (hblank : Blank g f) (hrd : ∀ off i, rd off i = .ok)
      (hret : flashTsInit g rd old f = .ret (0, some ts) f) : Sets g S 0 f ts []
  | set {n : Nat} {f f' : Flash} {ts ts' : Priv} {ss : List (List UInt8)} {key value : CString}
      {fate : Nat → Fate} {res : Int} (hrun : Sets g S n f ts ss) (hfresh : Fresh g f ts)
      (hmem : ∀ r, attempt ts key value = some r → r ∈ S)
      (hret : flashTsSet g fate key value ts f = .ret (res, ts') f') :
      Sets g S (n + commits ts key value) f' ts' (after res key value ss)

theorem Sets.tracked {g : Geometry} {S : Set FlashTs} {n : Nat} {f : Flash} {ts : Priv}
    {ss : List (List UInt8)} (h : Sets g S n f ts ss) (hb : 0 < g.blocks) :
    Usable g ∧ (∃ s, Good g s) ∧ Tracked g S n f ts ss := by
  induction h with
  | init hblank hrd hret =>
    have hg := usable_of_init hret
    have hgood := good_of_init hret hb
    rw [emptyPriv_of_init hg hgood hblank hrd hret]
    exact ⟨hg, hgood, tracked_blank hg hblank hgood S _⟩
  | set _ _ hmem hret ih =>
    obtain ⟨hg, hgood, ht⟩ := ih
    exact ⟨hg, hgood, ht.step hg hmem hret⟩

/-- Whenever a set returns 0 after a commit, the next initialisation loads its data. -/
theorem committed_data_loaded {g : Geometry} {S : Set FlashTs} (hcrc : CrcRejectsMixtures g S)
    {n : Nat} {f f' : Flash} {ts ts' : Priv} {ss : List (List UInt8)} (hrun : Sets g S n f ts ss)
    (hfresh : Fresh g f ts) {key value : CString} {fate : Nat → Fate} {r : FlashTs}
    (hr : attempt ts key value = some r) (hmem : r ∈ S) (hn : n + 1 < 2 ^ 32 - 1)
    (hret : flashTsSet g fate key value ts f = .ret (0, ts') f')
    {rd : Nat → Nat → Outcome} (hrd : ∀ off i, rd off i = .ok) (old : Bytes flashTsMaxDataSize) :
    ∃ ts'', flashTsInit g rd old f' = .ret (0, some ts'') f' ∧
      contents ts''.cache = contents r ∧ contents r = area 0 (put key.1 value.1 ss) := by
  rcases Nat.eq_zero_or_pos g.blocks with hb | hb
  · exact absurd rfl (set_no_blocks hb hr hret).1
  · obtain ⟨hg, hgood, ht⟩ := hrun.tracked hb
    obtain ⟨o, -, ho, -⟩ := ht.placed
    obtain ⟨hsound, hver⟩ := attempt_spec ht.sound hr
    have hlt : ts.cache.version.toNat + 1 < 2 ^ 32 := by
      have := ht.version
      omega
    obtain ⟨hprov, ⟨-, q, rfl, hc⟩ | ⟨hres, -⟩⟩ := set_ends hg ht hr hmem ho hret
    · have hsync := synced_of_committed hg hcrc hfresh hmem hprov hsound hver hlt ho hc
      obtain ⟨ts'', hinit, hdata⟩ := init_synced hg hsync hgood hrd old
      exact ⟨ts'', hinit, hdata, hsound.represents.contents⟩
    · exact absurd hres (by decide)

def twoBlocks : Geometry where
  pageSize := 8192
  blockSize := 32768
  startBlock := 0
  blocks := 2
  isBlockBad := fun _ => false
  erased := 0xff
  erased_blank := .inr rfl

theorem usable_twoBlocks : Usable twoBlocks :=
  ⟨⟨13, by decide, by decide, rfl⟩, 15, by decide, rfl⟩

theorem slots_twoBlocks : slots twoBlocks = 4 := by decide

theorem good_twoBlocks {s : Nat} (h : s < 4) : Good twoBlocks s :=
  ⟨by rwa [slots_twoBlocks], rfl⟩

def blankFlash : Flash := fun _ => 0xff

theorem chunkAt_blankFlash (s : Nat) : chunkAt twoBlocks blankFlash s = erasedChunk twoBlocks := by
  have he : twoBlocks.erased = 0xff := rfl
  have hf : (fun i => blankFlash (slotAddr twoBlocks s + i)) = fun _ => 0xff := rfl
  rw [chunkAt, load, erasedChunk, hf, he, List.map_const', List.length_range]

theorem blank_twoBlocks : Blank twoBlocks blankFlash := fun s _ => chunkAt_blankFlash s

def zeroBytes : Bytes flashTsMaxDataSize := ⟨List.replicate flashTsMaxDataSize 0, List.length_replicate⟩

def okReads : Nat → Nat → Outcome := fun _ _ => .ok

theorem okReads_ok (off i : Nat) : okReads off i = .ok := rfl

def keyA : CString := ⟨[97], by decide⟩
def keyB : CString := ⟨[98], by decide⟩
def keyC : CString := ⟨[99], by decide⟩
def valueOne : CString := ⟨[49], by decide⟩

theorem offset_twoBlocks : (emptyPriv twoBlocks zeroBytes).offset = 3 * flashTsMaxSize := by
  rw [offset_emptyPriv usable_twoBlocks, slots_twoBlocks]

theorem first_attempt : ∃ r, attempt (emptyPriv twoBlocks zeroBytes) keyA valueOne = some r ∧
    Sound r [[97, 61, 49]] := by
  have hempty : Sound (emptyPriv twoBlocks zeroBytes).cache [] := sound_emptyCache zeroBytes
  obtain ⟨r, hr⟩ : ∃ r, attempt (emptyPriv twoBlocks zeroBytes) keyA valueOne = some r :=
    attempt_of_put hempty (by decide) (by decide)
  have hput : put keyA.1 valueOne.1 [] = [[97, 61, 49]] := by decide
  have hs := (attempt_spec (sound_emptyCache zeroBytes) hr).1
  rw [hput] at hs
  exact ⟨r, hr, hs⟩

theorem next_attempt {r : FlashTs} (h : Sound r [[97, 61, 49]]) {key : CString}
    (hne : put key.1 valueOne.1 [[97, 61, 49]] ≠ [[97, 61, 49]])
    (hle : (area 0 (put key.1 valueOne.1 [[97, 61, 49]])).length ≤ flashTsMaxDataSize) :
    ∃ r', attempt ⟨0 * flashTsMaxSize, r⟩ key valueOne = some r' := by
  have h' : Sound (Priv.mk (0 * flashTsMaxSize) r).cache [[97, 61, 49]] := h
  exact attempt_of_put h' hne hle

theorem first_set : ∃ r f, attempt (emptyPriv twoBlocks zeroBytes) keyA valueOne = some r ∧
    Sound r [[97, 61, 49]] ∧
    flashTsSet twoBlocks (fun _ => allOk) keyA valueOne (emptyPriv twoBlocks zeroBytes) blankFlash =
      .ret (0, { offset := 0 * flashTsMaxSize, cache := r }) f ∧
    ∀ x ≠ 0, chunkAt twoBlocks f x = erasedChunk twoBlocks := by
  obtain ⟨r, hr, hsound⟩ := first_attempt
  obtain ⟨f, hset, -, hother⟩ := set_ok usable_twoBlocks (by decide) (sound_emptyCache zeroBytes) hr
    offset_twoBlocks (s := 0) (by decide) (good_twoBlocks (by decide)) blankFlash
  refine ⟨r, f, hr, hsound, hset, fun x hx => ?_⟩
  rcases hother x hx with he | ⟨-, he⟩
  · rw [he, chunkAt_blankFlash]
  · exact he

theorem small_singleton {r : FlashTs} (h : Sound r [[97, 61, 49]]) :
    CrcRejectsMixtures twoBlocks {r} := by
  refine crcRejectsMixtures_of_small usable_twoBlocks fun x hx => ?_
  rw [Set.mem_singleton_iff.mp hx, h.represents.len]
  decide

theorem exists_good_twoBlocks : ∃ s, Good twoBlocks s := ⟨0, good_twoBlocks (by decide)⟩

theorem init_twoBlocks : flashTsInit twoBlocks okReads zeroBytes blankFlash =
    .ret (0, some (emptyPriv twoBlocks zeroBytes)) blankFlash :=
  init_blank usable_twoBlocks blank_twoBlocks exists_good_twoBlocks (fun _ _ => rfl) zeroBytes

theorem committed_data_loaded_first : ∃ ts f ts',
    flashTsSet twoBlocks (fun _ => allOk) keyA valueOne (emptyPriv twoBlocks zeroBytes) blankFlash =
        .ret (0, ts) f ∧
      flashTsInit twoBlocks okReads zeroBytes f = .ret (0, some ts') f ∧
      contents ts'.cache = [97, 61, 49, 0, 0] := by
  obtain ⟨r, f, hr, hsound, hset, -⟩ := first_set
  obtain ⟨ts', hinit, hdata, harea⟩ := committed_data_loaded (small_singleton hsound)
    (.init blank_twoBlocks (fun _ _ => rfl) init_twoBlocks)
    ((synced_blank usable_twoBlocks blank_twoBlocks zeroBytes).fresh (by decide)) hr rfl
    (by decide) hset okReads_ok zeroBytes
  exact ⟨_, f, ts', hset, hinit, hdata.trans harea⟩

def badLuck : Nat → Fate := fun i =>
  ⟨if i = 2 then .ok else .fail false, fun _ => .fail false, fun _ => .ok, .ok⟩

theorem set_badLuck {ts : Priv} {ss : List (List UInt8)} (h : Sound ts.cache ss)
    {key value : CString} {r : FlashTs} (hr : attempt ts key value = some r)
    (ho : ts.offset = 0 * flashTsMaxSize) {f : Flash}
    (hf : ∀ x ≠ 0, chunkAt twoBlocks f x = erasedChunk twoBlocks) :
    ∃ f', flashTsSet twoBlocks badLuck key value ts f = .ret (-eio, ts) f' ∧
      ∀ x, chunkAt twoBlocks f' x = erasedChunk twoBlocks := by
  have hg := usable_twoBlocks
  have ho' : ({ offset := ts.offset, cache := r } : Priv).offset = 0 * flashTsMaxSize := ho
  have hlt : ∀ s < 4, s < slots twoBlocks := fun s hs => by rwa [slots_twoBlocks]
  have hwp : wp (commitLoop twoBlocks { offset := ts.offset, cache := r } badLuck (toBytes r) 4 0
      (1 * flashTsMaxSize)) (fun x f' => x = (-eio, { offset := ts.offset, cache := r }) ∧
        ∀ x, chunkAt twoBlocks f' x = erasedChunk twoBlocks) (fun _ => False) f := by
    refine wp_round_drop hg ho' badLuck r 3 0 (hlt 1 (by decide)) (fun h0 => absurd h0 (by decide))
      rfl rfl (fun _ _ h => by cases h) (fun _ _ h => by cases h) ?_
    rw [entered, if_neg (by decide)]
    refine wp_round_skip hg ho' badLuck r 2 1 (hlt 2 (by decide)) (by decide) rfl ?_
    rw [commitLoop_visited hg]
    refine wp_round_drop hg ho' badLuck r 1 2 (hlt 0 (by decide)) (fun _ => ⟨rfl, rfl⟩)
      rfl rfl (fun _ _ h => by cases h) (fun _ _ h => by cases h) ?_
    rw [entered, if_pos (by decide)]
    refine wp_round_skip hg ho' badLuck r 0 3 (hlt 2 (by decide)) (by decide) rfl ?_
    rw [commitLoop, wp_pure]
    refine ⟨rfl, fun x => ?_⟩
    by_cases hx : x / perBlock twoBlocks = 0 / perBlock twoBlocks
    · exact chunkAt_erasedBlock hg f hx
    · rw [chunkAt_erasedBlock_ne hg _ f hx]
      exact hf x fun h0 => hx (h0 ▸ rfl)
  obtain ⟨x, f', hloop, rfl, hall⟩ := exists_ret hwp
  have hoff : ts.offset + flashTsMaxSize = 1 * flashTsMaxSize := by
    rw [ho]
    omega
  refine ⟨f', ?_, hall⟩
  rw [flashTsSet_attempt hg h hr, hoff]
  exact (bind_ret hloop).trans (by rw [finish_eio]; rfl)

theorem committed_data_lost : ∃ ts₁ f₁ f₂ ts₃ f₃ ts₄,
    flashTsInit twoBlocks okReads zeroBytes blankFlash =
        .ret (0, some (emptyPriv twoBlocks zeroBytes)) blankFlash ∧
      flashTsSet twoBlocks (fun _ => allOk) keyA valueOne (emptyPriv twoBlocks zeroBytes)
        blankFlash = .ret (0, ts₁) f₁ ∧
      flashTsSet twoBlocks badLuck keyB valueOne ts₁ f₁ = .ret (-eio, ts₁) f₂ ∧
      flashTsSet twoBlocks (fun _ => allOk) keyC valueOne ts₁ f₂ = .ret (0, ts₃) f₃ ∧
      attempt ts₁ keyC valueOne = some ts₃.cache ∧
      flashTsInit twoBlocks okReads zeroBytes f₃ = .ret (0, some ts₄) f₃ ∧
      contents ts₃.cache = [97, 61, 49, 0, 99, 61, 49, 0, 0] ∧ contents ts₄.cache = [0] := by
  have hg := usable_twoBlocks
  obtain ⟨r₁, f₁, -, hs₁, hset₁, hblank₁⟩ := first_set
  obtain ⟨r₂, hr₂⟩ : ∃ r, attempt ⟨0 * flashTsMaxSize, r₁⟩ keyB valueOne = some r :=
    next_attempt hs₁ (by decide) (by decide)
  obtain ⟨f₂, hset₂, hblank₂⟩ := set_badLuck hs₁ hr₂ rfl hblank₁
  obtain ⟨r₃, hr₃⟩ : ∃ r, attempt ⟨0 * flashTsMaxSize, r₁⟩ keyC valueOne = some r :=
    next_attempt hs₁ (by decide) (by decide)
  obtain ⟨f₃, hset₃, -, hother₃⟩ := set_ok hg (by decide) hs₁ hr₃ rfl (s := 1) (by decide)
    (good_twoBlocks (by decide)) f₂
  have hblank₃ : ∀ x ≠ 1, chunkAt twoBlocks f₃ x = erasedChunk twoBlocks := by
    intro x hx
    rcases hother₃ x hx with he | ⟨-, he⟩
    · rw [he, hblank₂]
    · exact he
  have hzero : ∀ s, Visible twoBlocks f₃ s → versionAt twoBlocks f₃ s = 0 := by
    intro s hs
    by_cases h1 : s = 1
    · subst h1
      have hp := hs.2 0 (by decide) (by decide)
      rw [hblank₃ 0 (by decide)] at hp
      exact absurd hp (not_passed_erasedChunk hg)
    · rw [versionAt, hblank₃ s h1]
      exact check_of_erased_head hg SamePage.rfl
  refine ⟨_, f₁, f₂, _, f₃, _, init_twoBlocks, hset₁, hset₂, hset₃, hr₃,
    init_empty hg (fun _ _ => rfl) exists_good_twoBlocks zeroBytes hzero, ?_, ?_⟩
  · exact (attempt_spec hs₁ hr₃).1.represents.contents
  · exact (sound_emptyCache zeroBytes).represents.contents

end SynaBoot.FlashSets
