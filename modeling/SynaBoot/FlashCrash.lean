import SynaBoot.FlashRest
import SynaBoot.FlashSets

namespace SynaBoot.FlashCrash

open SynaBoot.PowerCut SynaBoot.FlashDevice SynaBoot.FlashRecord SynaBoot.FlashTs
open SynaBoot.FlashSlots SynaBoot.FlashDriver SynaBoot.FlashScan SynaBoot.FlashStrings
open SynaBoot.FlashCommit SynaBoot.FlashPages SynaBoot.FlashRounds SynaBoot.FlashDurable
open SynaBoot.FlashRest SynaBoot.FlashSets SynaBoot.StringArea

structure NoFail (fate : Fate) : Prop where
  erase : ∀ c, fate.erase ≠ .fail c
  write : ∀ k c, fate.write k ≠ .fail c
  read : ∀ k c, fate.read k ≠ .fail c
  eraseOld : ∀ c, fate.eraseOld ≠ .fail c

section

variable {g : Geometry} (hg : Usable g) {S : Set FlashTs} (hcrc : CrcRejectsMixtures g S)
  (htwo : TwoGoodBlocks g) {f : Flash} {v : UInt32} {o : Nat} {ss : List (List UInt8)}
include hg hcrc htwo

theorem wipe_target (h : Rest g S f v o ss) (mask : Nat → Bool) {t : Nat}
    (ht : Target g o t) (h0 : t % perBlock g = 0) : Rest g S (erasedBlock g mask f t) v o ss := by
  refine h.wipe hg hcrc mask (fun hv => ?_) (fun x hx _ => ?_)
  · exact (target_block_ne hg htwo (h.live hv).1.1 ht h0).symm
  · rw [hx.unique ht]
    exact h0

theorem rest_enter (h : Rest g S f v o ss) {t : Nat} (ht : Target g o t) :
    Rest g S (entered g f t) v o ss ∧
      (t % perBlock g = 0 → chunkAt g (entered g f t) t = erasedChunk g) := by
  unfold entered
  split
  · next h0 => exact ⟨wipe_target hg hcrc htwo h _ ht h0, fun _ => chunkAt_erasedBlock hg f rfl⟩
  · next h0 => exact ⟨h, fun h0' => absurd h0' h0⟩

omit htwo in
theorem rest_retire {r : FlashTs} {s : Nat} {ss' : List (List UInt8)}
    (h : Rest g S f r.version s ss') (hret : Retires g s o) (mask : Nat → Bool) :
    Rest g S (erasedBlock g mask f o) r.version s ss' := by
  refine h.wipe hg hcrc mask (fun _ => hret.2) (fun x hx hb => ?_)
  by_contra h0
  obtain ⟨i, rfl, -, -⟩ := hx
  obtain ⟨-, hnext⟩ := visited_inside h0
  rw [hnext] at h0 hb
  rw [succ_same_block h0] at hb
  exact hret.2 hb

omit hg hcrc htwo in
theorem enters_target (h : Rest g S f v o ss) {fate : Nat → Fate} {i : Nat}
    (hfirst : ∀ j < i, ¬ Good g (visited g o j)) (henter : Enters g (fate i) (visited g o i)) :
    Target g o (visited g o i) := by
  have hpos : 0 < slots g := by have := h.slot; omega
  refine ⟨i, rfl, good_of_enters (fun hne => ?_) hpos henter, hfirst⟩
  have hv : v ≠ 0 := by
    intro hv
    rw [(h.none hv).1, slots] at hne
    exact hne (Nat.mul_mod_left _ _)
  exact (h.live hv).1.1.2

def CommitReturns (g : Geometry) (S : Set FlashTs) (v : UInt32) (o : Nat) (ss : List (List UInt8))
    (r : FlashTs) (ss' : List (List UInt8)) (x : Int × Priv) (f : Flash) : Prop :=
  (∃ t, x = (0, { offset := t * flashTsMaxSize, cache := r }) ∧ Rest g S f r.version t ss') ∨
    (x = (-eio, { offset := o * flashTsMaxSize, cache := r }) ∧ Rest g S f v o ss)

theorem wp_commitLoop_crash (h : Rest g S f v o ss) {r : FlashTs} (hr : r ∈ S)
    {ss' : List (List UInt8)} (hsound : Sound r ss') (hlt : v < r.version) {fate : Nat → Fate}
    (hfate : ∀ i, NoFail (fate i)) (n i : Nat) (hfirst : ∀ j < i, ¬ Good g (visited g o j)) :
    wp (commitLoop g { offset := o * flashTsMaxSize, cache := r } fate (toBytes r) n i
        (visited g o i * flashTsMaxSize))
      (CommitReturns g S v o ss r ss')
      (fun f' => Rest g S f' v o ss ∨ ∃ t, Rest g S f' r.version t ss') f := by
  have hpos : 0 < slots g := by have := h.slot; omega
  induction n generalizing i with
  | zero =>
    rw [commitLoop, wp_pure]
    exact .inr ⟨rfl, h⟩
  | succ n ih =>
    have htorn : Target g o (visited g o i) → ∀ wr,
        Rest g S (written g r wr (entered g f (visited g o i)) (visited g o i)) v o ss ∨
          Agrees (chunkAt g (written g r wr (entered g f (visited g o i)) (visited g o i))
            (visited g o i)) r := by
      intro ht wr
      obtain ⟨hrest, herased⟩ := rest_enter hg hcrc htwo h ht
      exact hrest.torn hg hcrc ht (fun hv x hx hb => ht.after hg htwo (h.live hv).1.1 hx hb) herased
        hr wr
    have hadv : Target g o (visited g o i) → ∀ wr,
        Agrees (chunkAt g (written g r wr (entered g f (visited g o i)) (visited g o i))
          (visited g o i)) r →
        Rest g S (written g r wr (entered g f (visited g o i)) (visited g o i)) r.version
          (visited g o i) ss' := by
      intro ht wr hagree
      obtain ⟨hrest, -⟩ := rest_enter hg hcrc htwo h ht
      exact hrest.advance ht (fun x hx => chunkAt_written_ne r wr _ hx)
        (hrest.provenance.written hg hr wr _) hsound hlt hagree
    have hdone : Enters g (fate i) (visited g o i) → (∀ k < pages g, (fate i).write k = .ok) →
        Rest g S (written g r (fate i).write (entered g f (visited g o i)) (visited g o i)) r.version
          (visited g o i) ss' := by
      intro henter hok
      refine hadv (enters_target h hfirst henter) _ ?_
      rw [chunkAt_written_ok hg hok]
      exact agrees_toBytes r
    refine wp_commitLoop_succ hg rfl fate r n i (visited_lt hpos o i) ?_ ?_ ?_ ?_ ?_ ?_ ?_
    · rintro h0 (hbad | ⟨-, c, hc⟩)
      · rw [commitLoop_visited hg]
        refine ih (i + 1) fun j hj hgood => ?_
        rcases Nat.lt_succ_iff_lt_or_eq.mp hj with hj | rfl
        · exact hfirst j hj hgood
        · have hb := hgood.2
          rw [hbad] at hb
          cases hb
      · exact absurd hc ((hfate i).erase c)
    · intro mask h0 hgood _
      exact .inl (wipe_target hg hcrc htwo h mask ⟨i, rfl, ⟨visited_lt hpos o i, hgood⟩, hfirst⟩ h0)
    · intro henter _
      have ht := enters_target h hfirst henter
      rcases htorn ht (fate i).write with hrest | hagree
      · exact .inl hrest
      · exact .inr ⟨_, hadv ht _ hagree⟩
    · rintro - ⟨k, -, c, hc | hc⟩
      · exact absurd hc ((hfate i).write k c)
      · exact absurd hc ((hfate i).read k c)
    · intro henter hok _
      exact .inl ⟨_, rfl, hdone henter hok⟩
    · intro henter hok hret _
      exact .inl ⟨_, rfl, rest_retire hg hcrc (hdone henter hok) hret _⟩
    · intro mask henter hok hret _
      exact .inr ⟨_, rest_retire hg hcrc (hdone henter hok) hret mask⟩

omit hcrc htwo in
theorem init_rest (h : Rest g S f v o ss) (hgood : ∃ s, Good g s)
    {rd : Nat → Nat → Outcome} (hrd : ∀ off i, rd off i = .ok) (old : Bytes flashTsMaxDataSize) :
    ∃ ts, flashTsInit g rd old f = .ret (0, some ts) f ∧ ts.offset = o * flashTsMaxSize ∧
      ts.cache.version = v ∧ Sound ts.cache ss ∧
      (v ≠ 0 → ts.cache = ofBytes (chunkAt g f o)) := by
  have hother : ∀ s, Good g s → (v ≠ 0 → s ≠ o) → versionAt g f s = 0 ∨ versionAt g f s < v := by
    intro s hs hne
    rcases h.others s hs hne with hold | ⟨-, htorn⟩
    · exact hold.check hg
    · exact .inl htorn.invalid
  by_cases hv : v = 0
  · obtain ⟨hlast, rfl⟩ := h.none hv
    have hzero : ∀ s, Visible g f s → versionAt g f s = 0 := by
      intro s hs
      rcases hother s hs.1 (fun hne => absurd hv hne) with h0 | hlt
      · exact h0
      · rw [hv] at hlt
        exact absurd hlt (by simp)
    refine ⟨_, init_empty hg hrd hgood old hzero, ?_, hv.symm, sound_emptyCache old,
      fun hne => absurd hv hne⟩
    rw [offset_emptyPriv hg, ← hlast, Nat.add_sub_cancel]
  · obtain ⟨hvis, hver, hrep⟩ := h.live hv
    have hne : versionAt g f o ≠ 0 := by rwa [hver]
    have hmax : ∀ s, Visible g f s → versionAt g f s ≤ versionAt g f o := by
      intro s hs
      by_cases hso : s = o
      · rw [hso]
        exact UInt32.le_refl _
      · rcases hother s hs.1 (fun _ => hso) with h0 | hlt
        · rw [h0]
          simp
        · rw [hver]
          exact UInt32.le_of_lt hlt
    obtain ⟨s, hret, hs, hsv⟩ := init_newest hg hrd old hvis hne hmax
    have hso : s = o := by
      by_contra hso
      rcases hother s hs.1 (fun _ => hso) with h0 | hlt
      · exact hne (hsv.symm.trans h0)
      · rw [hsv, hver] at hlt
        exact UInt32.lt_irrefl _ hlt
    subst hso
    obtain ⟨hmagic, hversion, hcrc', -⟩ := check_ne_zero hne
    exact ⟨_, hret, rfl, hversion.symm.trans hver, ⟨hrep, hmagic, hcrc'⟩, fun _ => rfl⟩

def Running (g : Geometry) (S : Set FlashTs) (f : Flash) (ts : Priv) (ss : List (List UInt8)) :
    Prop :=
  ∃ o, ts.offset = o * flashTsMaxSize ∧ Sound ts.cache ss ∧ Rest g S f ts.cache.version o ss

theorem wp_set_crash {ts : Priv} (h : Running g S f ts ss)
    (hlt : ts.cache.version.toNat + 1 < 2 ^ 32) {key value : CString} {fate : Nat → Fate}
    (hfate : ∀ i, NoFail (fate i)) (hmem : ∀ r, attempt ts key value = some r → r ∈ S) :
    wp (flashTsSet g fate key value ts)
      (fun x f' => Running g S f' x.2 (after x.1 key value ss) ∧
        x.2.cache.version.toNat ≤ ts.cache.version.toNat + commits ts key value)
      (fun f' => ∃ v' o', v'.toNat ≤ ts.cache.version.toNat + commits ts key value ∧
        (Rest g S f' v' o' ss ∨ Rest g S f' v' o' (put key.1 value.1 ss))) f := by
  obtain ⟨o, ho, hsound, hrest⟩ := h
  cases hr : attempt ts key value with
  | none =>
    rcases flashTsSet_none hsound hr g fate with ⟨hp, hput⟩ | ⟨hp, -⟩
    · rw [hp, wp_pure]
      refine ⟨⟨o, ho, ?_, ?_⟩, Nat.le_add_right _ _⟩
      · rw [after, if_pos rfl, hput]
        exact hsound
      · rw [after, if_pos rfl, hput]
        exact hrest
    · rw [hp, wp_pure]
      exact ⟨⟨o, ho, hsound, hrest⟩, Nat.le_add_right _ _⟩
  | some r =>
    have hone : commits ts key value = 1 := by simp [commits, hr]
    obtain ⟨hrs, hver⟩ := attempt_spec hsound hr
    have hless : ts.cache.version < r.version := by
      rw [hver]
      exact lt_succ_version hlt
    have hle : r.version.toNat ≤ ts.cache.version.toNat + 1 := by
      rw [hver]
      exact toNat_succ_le _
    have hoff : ts.offset + flashTsMaxSize = (o + 1) * flashTsMaxSize := by
      rw [ho, Nat.succ_mul]
    rw [flashTsSet_attempt hg hsound hr fate, hoff, commitLoop_visited hg, ho, wp_bind, hone]
    refine wp_mono (wp_commitLoop_crash hg hcrc htwo hrest (hmem r hr) hrs hless hfate
      (g.blocks * 2) 0 fun j hj => absurd hj (Nat.not_lt_zero j)) ?_ ?_
    · rintro x f' (⟨t, rfl, hrest'⟩ | ⟨rfl, hrest'⟩)
      · rw [wp_pure, finish_ok]
        exact ⟨⟨t, rfl, hrs, hrest'⟩, hle⟩
      · rw [wp_pure, finish_eio]
        exact ⟨⟨o, rfl, hsound, hrest'⟩, Nat.le_succ _⟩
    · rintro f' (hrest' | ⟨t, hrest'⟩)
      · exact ⟨_, o, Nat.le_succ _, .inl hrest'⟩
      · exact ⟨_, t, hle, .inr hrest'⟩

end

/-- A run on a blank partition, with the strings that were being set. -/
inductive Run (g : Geometry) (S : Set FlashTs) :
    Nat → Flash → Option Priv → List (List UInt8) → Option (List (List UInt8)) → Prop
  | blank {f : Flash} (hblank : Blank g f) : Run g S 0 f none [] none
  | init {n : Nat} {f f' : Flash} {ram : Option Priv} {ss ss' : List (List UInt8)}
      {pending : Option (List (List UInt8))} {rd : Nat → Nat → Outcome}
      {old : Bytes flashTsMaxDataSize} {ts : Priv} (hrun : Run g S n f ram ss pending)
      (hrd : ∀ off i, rd off i = .ok) (hret : flashTsInit g rd old f = .ret (0, some ts) f')
      (hdata : Represents ts.cache ss') : Run g S n f' (some ts) ss' none
  | set {n : Nat} {f f' : Flash} {ts ts' : Priv} {ss : List (List UInt8)}
      {pending : Option (List (List UInt8))} {key value : CString} {fate : Nat → Fate} {res : Int}
      (hrun : Run g S n f (some ts) ss pending) (hfate : ∀ i, NoFail (fate i))
      (hmem : ∀ r, attempt ts key value = some r → r ∈ S)
      (hret : flashTsSet g fate key value ts f = .ret (res, ts') f') :
      Run g S (n + commits ts key value) f' (some ts') (after res key value ss) none
  | cut {n : Nat} {f f' : Flash} {ts : Priv} {ss : List (List UInt8)}
      {pending : Option (List (List UInt8))} {key value : CString} {fate : Nat → Fate}
      (hrun : Run g S n f (some ts) ss pending) (hfate : ∀ i, NoFail (fate i))
      (hmem : ∀ r, attempt ts key value = some r → r ∈ S)
      (hcut : flashTsSet g fate key value ts f = .cut f') :
      Run g S (n + commits ts key value) f' none ss (some (put key.1 value.1 ss))
  | powerLoss {n : Nat} {f : Flash} {ram : Option Priv} {ss : List (List UInt8)}
      {pending : Option (List (List UInt8))} (hrun : Run g S n f ram ss pending) :
      Run g S n f none ss pending

structure Recoverable (g : Geometry) (S : Set FlashTs) (n : Nat) (f : Flash) (ram : Option Priv)
    (ss : List (List UInt8)) (pending : Option (List (List UInt8))) : Prop where
  stored : ∃ v o ss', v.toNat ≤ n ∧ Rest g S f v o ss' ∧ (ss' = ss ∨ pending = some ss')
  running : ∀ ts, ram = some ts → Running g S f ts ss ∧ ts.cache.version.toNat ≤ n

theorem strings_of_contents {c : FlashTs} {ss : List (List UInt8)} (h : Represents c ss)
    (hc : contents c = [0]) : ss = [] := by
  have hlt := strings_length_lt ss
  rw [← h.contents, hc] at hlt
  exact List.eq_nil_of_length_eq_zero (by simpa using hlt)

theorem rest_blank {g : Geometry} (S : Set FlashTs) {f : Flash} (hblank : Blank g f)
    (hgood : ∃ s, Good g s) : Rest g S f 0 (slots g - 1) [] := by
  have hpos := slots_pos hgood
  refine ⟨fun s hs => ?_, by omega, fun h0 => absurd rfl h0, fun _ => ⟨by omega, rfl⟩,
    fun s hs _ => .inl ?_⟩
  · rw [hblank s hs]
    exact ⟨length_erasedChunk g, fun p _ => .inl SamePage.rfl⟩
  · rw [hblank s hs]
    exact .inl SamePage.rfl

section

variable {g : Geometry} (hg : Usable g) {S : Set FlashTs} {n : Nat} {f f' : Flash}
  {ram : Option Priv} {ts : Priv} {ss ss' : List (List UInt8)}
  {pending : Option (List (List UInt8))}
include hg

theorem Recoverable.init (h : Recoverable g S n f ram ss pending) (hgood : ∃ s, Good g s)
    {rd : Nat → Nat → Outcome} (hrd : ∀ off i, rd off i = .ok) {old : Bytes flashTsMaxDataSize}
    (hret : flashTsInit g rd old f = .ret (0, some ts) f') (hdata : Represents ts.cache ss') :
    Recoverable g S n f' (some ts) ss' none := by
  obtain ⟨v, o, ss₀, hv, hrest, -⟩ := h.stored
  obtain ⟨ts₁, hret₁, ho, rfl, hsound, hlive⟩ := init_rest hg hrest hgood hrd old
  rw [hret₁] at hret
  cases hret
  have hrest' : Rest g S f ts.cache.version o ss' := by
    refine hrest.relabel (fun hne => hlive hne ▸ hdata) fun h0 => ?_
    refine strings_of_contents hdata ?_
    rw [hsound.represents.contents, (hrest.none h0).2]
    rfl
  refine ⟨⟨_, o, ss', hv, hrest', .inl rfl⟩, ?_⟩
  rintro _ ⟨⟩
  exact ⟨⟨o, ho, ⟨hdata, hsound.magic, hsound.crc⟩, hrest'⟩, hv⟩

variable (hcrc : CrcRejectsMixtures g S) (htwo : TwoGoodBlocks g)
  (h : Recoverable g S n f (some ts) ss pending) {key value : CString}
  (hn : n + commits ts key value < 2 ^ 32 - 1) {fate : Nat → Fate} (hfate : ∀ i, NoFail (fate i))
  (hmem : ∀ r, attempt ts key value = some r → r ∈ S)
include hcrc htwo h hn hfate hmem

theorem Recoverable.set {res : Int} {ts' : Priv}
    (hret : flashTsSet g fate key value ts f = .ret (res, ts') f') :
    Recoverable g S (n + commits ts key value) f' (some ts') (after res key value ss) none := by
  obtain ⟨hrunning, hv⟩ := h.running ts rfl
  obtain ⟨hrunning', hv'⟩ := wp_ret (wp_set_crash hg hcrc htwo hrunning (by omega) hfate hmem) hret
  have hle := le_trans hv' (Nat.add_le_add_right hv _)
  have ⟨o, _, _, hrest⟩ := hrunning'
  refine ⟨⟨_, o, _, hle, hrest, .inl rfl⟩, ?_⟩
  rintro _ ⟨⟩
  exact ⟨hrunning', hle⟩

theorem Recoverable.cut (hcut : flashTsSet g fate key value ts f = .cut f') :
    Recoverable g S (n + commits ts key value) f' none ss (some (put key.1 value.1 ss)) := by
  obtain ⟨hrunning, hv⟩ := h.running ts rfl
  obtain ⟨v', o', hv', hrest⟩ :=
    wp_cut (wp_set_crash hg hcrc htwo hrunning (by omega) hfate hmem) hcut
  have hle := le_trans hv' (Nat.add_le_add_right hv _)
  refine ⟨?_, nofun⟩
  rcases hrest with hrest | hrest
  · exact ⟨v', o', _, hle, hrest, .inl rfl⟩
  · exact ⟨v', o', _, hle, hrest, .inr rfl⟩

end

theorem Run.recoverable {g : Geometry} {S : Set FlashTs} (hg : Usable g) (htwo : TwoGoodBlocks g)
    (hcrc : CrcRejectsMixtures g S) {n : Nat} {f : Flash} {ram : Option Priv}
    {ss : List (List UInt8)} {pending : Option (List (List UInt8))}
    (h : Run g S n f ram ss pending) (hn : n < 2 ^ 32 - 1) :
    Recoverable g S n f ram ss pending := by
  induction h with
  | blank hblank =>
    exact ⟨⟨0, _, [], le_rfl, rest_blank S hblank htwo.good, .inl rfl⟩, nofun⟩
  | init _ hrd hret hdata ih => exact (ih hn).init hg htwo.good hrd hret hdata
  | set _ hfate hmem hret ih => exact (ih (by omega)).set hg hcrc htwo hn hfate hmem hret
  | cut _ hfate hmem hcut ih => exact (ih (by omega)).cut hg hcrc htwo hn hfate hmem hcut
  | powerLoss _ ih => exact ⟨(ih hn).stored, nofun⟩

/-- Crash safety: every initialisation loads exactly the data of the last completed set or of the
set that was interrupted. -/
theorem crash_safe {g : Geometry} {rd₀ : Nat → Nat → Outcome} {old₀ : Bytes flashTsMaxDataSize}
    {f₀ f₀' : Flash} {ts₀ : Priv} (hacc : flashTsInit g rd₀ old₀ f₀ = .ret (0, some ts₀) f₀')
    (htwo : TwoGoodBlocks g) {S : Set FlashTs} (hcrc : CrcRejectsMixtures g S) {n : Nat} {f : Flash}
    {ram : Option Priv} {ss : List (List UInt8)} {pending : Option (List (List UInt8))}
    (hrun : Run g S n f ram ss pending) (hn : n < 2 ^ 32 - 1)
    {rd : Nat → Nat → Outcome} (hrd : ∀ off i, rd off i = .ok) (old : Bytes flashTsMaxDataSize) :
    ∃ ts, flashTsInit g rd old f = .ret (0, some ts) f ∧
      (Represents ts.cache ss ∨ ∃ ss', pending = some ss' ∧ Represents ts.cache ss') := by
  have hg := usable_of_init hacc
  obtain ⟨v, o, ss', -, hrest, hss⟩ := (hrun.recoverable hg htwo hcrc hn).stored
  obtain ⟨ts, hret, -, -, hsound, -⟩ := init_rest hg hrest htwo.good hrd old
  refine ⟨ts, hret, ?_⟩
  rcases hss with rfl | hp
  · exact .inl hsound.represents
  · exact .inr ⟨ss', hp, hsound.represents⟩

def tornWrite : Fate :=
  ⟨.ok, fun k => if k = 0 then .ok else .cut fun _ => false, fun _ => .ok, .ok⟩

theorem noFail_allOk : NoFail allOk := ⟨nofun, nofun, nofun, nofun⟩

theorem noFail_tornWrite : NoFail tornWrite := by
  refine ⟨nofun, fun k c h => ?_, nofun, nofun⟩
  simp only [tornWrite] at h
  split at h <;> cases h

theorem set_tornWrite {ts : Priv} {ss : List (List UInt8)} (h : Sound ts.cache ss)
    {key value : CString} {r : FlashTs} (hr : attempt ts key value = some r)
    (ho : ts.offset = 0 * flashTsMaxSize) (f : Flash) :
    ∃ f', flashTsSet twoBlocks (fun _ => tornWrite) key value ts f = .cut f' := by
  have hoff : ts.offset + flashTsMaxSize = 1 * flashTsMaxSize := by
    rw [ho]
    omega
  have ho' : ({ ts with cache := r } : Priv).offset = 0 * flashTsMaxSize := ho
  have hone : 1 < pages twoBlocks := by decide
  have htorn : ¬ ∀ k < pages twoBlocks, tornWrite.write k = .ok := fun hok => nomatch hok 1 hone
  have hwp : wp (flashTsSet twoBlocks (fun _ => tornWrite) key value ts) (fun _ _ => False)
      (fun _ => True) f := by
    rw [flashTsSet_attempt usable_twoBlocks h hr, hoff, wp_bind]
    refine wp_mono (wp_commitLoop_succ usable_twoBlocks ho' _ r 3 0
      (by rw [slots_twoBlocks]; decide) (Q := fun _ _ => False) (C := fun _ => True)
      ?_ ?_ ?_ ?_ ?_ ?_ ?_) (fun _ _ hf => hf.elim) fun _ _ => trivial
    · exact fun h0 => absurd h0 (by decide)
    · exact fun _ _ _ _ => trivial
    · exact fun _ _ => trivial
    · rintro - ⟨k, -, c, hc | hc⟩
      · exact absurd hc (noFail_tornWrite.write k c)
      · exact absurd hc (noFail_tornWrite.read k c)
    · exact fun _ hok _ => htorn hok
    · exact fun _ hok _ _ => htorn hok
    · exact fun _ _ _ _ _ => trivial
  obtain ⟨f', hcut, -⟩ := exists_cut hwp
  exact ⟨f', hcut⟩

theorem twoGoodBlocks_twoBlocks : TwoGoodBlocks twoBlocks :=
  ⟨0, 2, good_twoBlocks (by decide), good_twoBlocks (by decide), by decide⟩

theorem crash_safe_torn : ∃ ts₁ f₁ f₂ ts₃,
    flashTsSet twoBlocks (fun _ => allOk) keyA valueOne (emptyPriv twoBlocks zeroBytes) blankFlash =
        .ret (0, ts₁) f₁ ∧
      flashTsSet twoBlocks (fun _ => tornWrite) keyB valueOne ts₁ f₁ = .cut f₂ ∧
      flashTsInit twoBlocks okReads zeroBytes f₂ = .ret (0, some ts₃) f₂ ∧
      (Represents ts₃.cache [[97, 61, 49]] ∨ Represents ts₃.cache [[97, 61, 49], [98, 61, 49]]) := by
  obtain ⟨r₁, f₁, hr₁, hs₁, hset₁, -⟩ := first_set
  have hs₁' : Sound (Priv.mk (0 * flashTsMaxSize) r₁).cache [[97, 61, 49]] := hs₁
  obtain ⟨r₂, hr₂⟩ : ∃ r, attempt ⟨0 * flashTsMaxSize, r₁⟩ keyB valueOne = some r :=
    next_attempt hs₁ (by decide) (by decide)
  obtain ⟨f₂, hcut⟩ := set_tornWrite hs₁' hr₂ rfl f₁
  have hs₂ : Sound r₂ [[97, 61, 49], [98, 61, 49]] := (attempt_spec hs₁' hr₂).1
  have hcrc : CrcRejectsMixtures twoBlocks {r₁, r₂} := by
    refine crcRejectsMixtures_of_small usable_twoBlocks fun x hx => ?_
    rcases hx with rfl | rfl
    · rw [hs₁.represents.len]
      decide
    · rw [hs₂.represents.len]
      decide
  have hrun₁ : Run twoBlocks {r₁, r₂} 0 blankFlash (some (emptyPriv twoBlocks zeroBytes)) [] none :=
    .init (.blank blank_twoBlocks) (fun _ _ => rfl) init_twoBlocks
      (sound_emptyCache zeroBytes).represents
  have hrun₂ := hrun₁.set (fun _ => noFail_allOk) (fun r hr => .inl (Option.some.inj (hr.symm.trans hr₁)))
    hset₁
  have hrun₃ := hrun₂.cut (fun _ => noFail_tornWrite)
    (fun r hr => .inr (Option.some.inj (hr.symm.trans hr₂))) hcut
  have hn : 0 + commits (emptyPriv twoBlocks zeroBytes) keyA valueOne +
      commits ⟨0 * flashTsMaxSize, r₁⟩ keyB valueOne < 2 ^ 32 - 1 := by
    rw [commits, hr₁, commits, hr₂, Option.isSome_some, Option.isSome_some, if_pos rfl]
    decide
  obtain ⟨ts₃, hinit, hdata⟩ := crash_safe init_twoBlocks twoGoodBlocks_twoBlocks hcrc hrun₃ hn
    okReads_ok zeroBytes
  refine ⟨_, f₁, f₂, ts₃, hset₁, hcut, hinit, ?_⟩
  rcases hdata with hdata | ⟨ss', hss', hdata⟩
  · exact .inl hdata
  · cases hss'
    exact .inr hdata

end SynaBoot.FlashCrash
