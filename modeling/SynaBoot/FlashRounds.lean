import SynaBoot.FlashPages

namespace SynaBoot.FlashRounds

open SynaBoot.PowerCut SynaBoot.FlashDevice SynaBoot.FlashRecord SynaBoot.FlashTs
open SynaBoot.FlashSlots SynaBoot.FlashDriver SynaBoot.FlashScan SynaBoot.FlashCommit
open SynaBoot.FlashPages

def wrap (g : Geometry) (s : Nat) : Nat := if slots g ≤ s then 0 else s

def visited (g : Geometry) (o : Nat) : Nat → Nat
  | 0 => wrap g (o + 1)
  | i + 1 => wrap g (blockAfter g (visited g o i))

def Erases (g : Geometry) (o : Nat) (fate : Nat → Fate) (i x : Nat) : Prop :=
  visited g o i % perBlock g = 0 ∧ visited g o i / perBlock g = x / perBlock g ∧
    (fate i).erase = .ok

/-- The pages that got through, over what was there. -/
def leftover (g : Geometry) (f₀ : Flash) (r : FlashTs) (wr : Nat → Outcome) (x : Nat) : List UInt8 :=
  (toBytes r).take (stored wr (pages g) 0 * g.pageSize) ++
    (if x % perBlock g = 0 then erasedChunk g else chunkAt g f₀ x).drop
      (stored wr (pages g) 0 * g.pageSize)

def Trace (g : Geometry) (f₀ : Flash) (r : FlashTs) (o : Nat) (fate : Nat → Fate) (i : Nat)
    (f : Flash) (x : Nat) : Prop :=
  chunkAt g f x = chunkAt g f₀ x ∨
    (chunkAt g f x = erasedChunk g ∧ ∃ j < i, Erases g o fate j x) ∨
    (∃ j < i, visited g o j = x ∧ Enters g (fate j) x ∧
      chunkAt g f x = leftover g f₀ r (fate j).write x ∧
      ∀ k, j < k → k < i → ¬ Erases g o fate k x)

def Flight (g : Geometry) (f₀ : Flash) (r : FlashTs) (f : Flash) : Prop :=
  ∀ x, Good g x → chunkAt g f x = chunkAt g f₀ x ∨
    SamePage g 0 (chunkAt g f x) (erasedChunk g) ∨ SamePage g 0 (chunkAt g f x) (toBytes r)

variable {g : Geometry}

theorem wrap_lt {s : Nat} (h : 0 < slots g) : wrap g s < slots g := by
  unfold wrap
  split <;> omega

theorem visited_lt (h : 0 < slots g) (o i : Nat) : visited g o i < slots g := by
  cases i <;> exact wrap_lt h

theorem visited_succ_start (g : Geometry) (o i : Nat) : visited g o (i + 1) % perBlock g = 0 := by
  rw [visited, wrap]
  split
  · exact Nat.zero_mod _
  · exact Nat.mul_mod_left _ _

theorem visited_inside {o i : Nat} (h : visited g o i % perBlock g ≠ 0) :
    i = 0 ∧ visited g o i = o + 1 := by
  cases i with
  | succ i => exact absurd (visited_succ_start g o i) h
  | zero =>
    refine ⟨rfl, ?_⟩
    rw [visited, wrap] at h ⊢
    split at h
    · exact absurd (Nat.zero_mod _) h
    · next hlt => rw [if_neg hlt]

section

variable {g : Geometry} (hg : Usable g)
include hg

theorem commitLoop_visited (ts : Priv) (fate : Nat → Fate) (buf : List UInt8) (n i s : Nat) :
    commitLoop g ts fate buf n i (s * flashTsMaxSize) =
      commitLoop g ts fate buf n i (wrap g s * flashTsMaxSize) := by
  unfold wrap
  split
  · next h => rw [commitLoop_wrap hg ts fate buf n i h, Nat.zero_mul]
  · rfl

theorem chunkAt_written (r : FlashTs) (wr : Nat → Outcome) (f : Flash) (s : Nat) :
    chunkAt g (written g r wr f s) s =
      (toBytes r).take (stored wr (pages g) 0 * g.pageSize) ++
        (chunkAt g f s).drop (stored wr (pages g) 0 * g.pageSize) := by
  have hlen : ((toBytes r).take (stored wr (pages g) 0 * g.pageSize)).length =
      stored wr (pages g) 0 * g.pageSize := by
    rw [List.length_take, length_toBytes, ← pages_mul hg]
    exact min_eq_left (Nat.mul_le_mul_right _ (stored_le wr (pages g) 0))
  rw [written, chunkAt_store g f s (length_take_stored r _), hlen]

theorem head_leftover (f₀ : Flash) (r : FlashTs) (wr : Nat → Outcome) (x : Nat) :
    leftover g f₀ r wr x = (if x % perBlock g = 0 then erasedChunk g else chunkAt g f₀ x) ∨
      SamePage g 0 (leftover g f₀ r wr x) (toBytes r) := by
  rcases Nat.eq_zero_or_pos (stored wr (pages g) 0) with h0 | hpos
  · left
    rw [leftover, h0, Nat.zero_mul, List.take_zero, List.nil_append, List.drop_zero]
  · right
    have h := samePage_take_append hg
      (c := if x % perBlock g = 0 then erasedChunk g else chunkAt g f₀ x) (length_toBytes r)
      (stored_le wr (pages g) 0) (p := 0)
    rwa [if_pos hpos] at h

variable {f₀ : Flash} {r : FlashTs} {o : Nat} {fate : Nat → Fate}

variable {f : Flash} {i : Nat}

theorem flight_of_trace (h : ∀ x, Good g x → Trace g f₀ r o fate i f x) : Flight g f₀ r f := by
  intro x hx
  rcases h x hx with he | ⟨he, -⟩ | ⟨j, -, -, -, he, -⟩
  · exact .inl he
  · exact .inr (.inl (he ▸ SamePage.rfl))
  · rw [he]
    rcases head_leftover hg f₀ r (fate j).write x with hl | hl
    · rw [hl]
      split
      · exact .inr (.inl SamePage.rfl)
      · exact .inl rfl
    · exact .inr (.inr hl)

theorem Flight.erasedBlock (h : Flight g f₀ r f) (s₀ : Nat) :
    Flight g f₀ r (erasedBlock g (fun _ => true) f s₀) := by
  intro x hx
  by_cases hb : x / perBlock g = s₀ / perBlock g
  · exact .inr (.inl (chunkAt_erasedBlock hg f hb ▸ SamePage.rfl))
  · rw [chunkAt_erasedBlock_ne hg _ f hb]
    exact h x hx

omit hg in
theorem Trace.skip {x : Nat} (h : Trace g f₀ r o fate i f x) (hne : ¬ Erases g o fate i x) :
    Trace g f₀ r o fate (i + 1) f x := by
  rcases h with he | ⟨he, j, hj, hej⟩ | ⟨j, hj, hv, hent, he, hno⟩
  · exact .inl he
  · exact .inr (.inl ⟨he, j, by omega, hej⟩)
  · refine .inr (.inr ⟨j, by omega, hv, hent, he, fun k hk hki => ?_⟩)
    rcases Nat.lt_succ_iff_lt_or_eq.mp hki with hlt | rfl
    · exact hno k hk hlt
    · exact hne

theorem Trace.write (h : ∀ x, Good g x → Trace g f₀ r o fate i f x) (hfirst : i = 0 → f = f₀)
    (henter : Enters g (fate i) (visited g o i)) {x : Nat} (hx : Good g x) :
    Trace g f₀ r o fate (i + 1)
      (written g r (fate i).write (entered g f (visited g o i)) (visited g o i)) x := by
  by_cases h0 : visited g o i % perBlock g = 0
  · rw [entered, if_pos h0]
    by_cases hb : x / perBlock g = visited g o i / perBlock g
    · by_cases hxs : x = visited g o i
      · subst hxs
        refine .inr (.inr ⟨i, by omega, rfl, henter, ?_, fun k hk hki => by omega⟩)
        rw [chunkAt_written hg, chunkAt_erasedBlock hg f rfl, leftover, if_pos h0]
      · refine .inr (.inl ⟨?_, i, by omega, h0, hb.symm, (henter h0).2⟩)
        rw [chunkAt_written_ne r _ _ hxs, chunkAt_erasedBlock hg f hb]
    · have hxs : x ≠ visited g o i := fun he => hb (he ▸ rfl)
      have hc : chunkAt g (written g r (fate i).write
          (FlashCommit.erasedBlock g (fun _ => true) f (visited g o i)) (visited g o i)) x =
          chunkAt g f x := by
        rw [chunkAt_written_ne r _ _ hxs, chunkAt_erasedBlock_ne hg _ f hb]
      have ht := (h x hx).skip (fun he => hb he.2.1.symm)
      unfold Trace at ht ⊢
      rwa [hc]
  · obtain ⟨hi, -⟩ := visited_inside h0
    rw [entered, if_neg h0]
    by_cases hxs : x = visited g o i
    · subst hxs
      refine .inr (.inr ⟨i, by omega, rfl, henter, ?_, fun k hk hki => by omega⟩)
      rw [chunkAt_written hg, leftover, if_neg h0, hfirst hi]
    · have ht := (h x hx).skip (fun he => h0 he.1)
      unfold Trace at ht ⊢
      rwa [chunkAt_written_ne r _ _ hxs]

structure Committed (g : Geometry) (f₀ : Flash) (r : FlashTs) (o q : Nat) (f : Flash) : Prop where
  good : Good g q
  chunk : chunkAt g f q = toBytes r
  flight : Flight g f₀ r f
  inside : q % perBlock g ≠ 0 →
    q = o + 1 ∧ ∀ x < q, x / perBlock g = q / perBlock g → chunkAt g f x = chunkAt g f₀ x

omit hg in
theorem good_of_enters
    (hblock : (o + 1) % perBlock g ≠ 0 → flashBlockIsbad g (o / perBlock g * g.blockSize) = false)
    (hpos : 0 < slots g) (henter : Enters g (fate i) (visited g o i)) : Good g (visited g o i) := by
  refine ⟨visited_lt hpos o i, ?_⟩
  by_cases h0 : visited g o i % perBlock g = 0
  · exact (henter h0).1
  · obtain ⟨rfl, hv⟩ := visited_inside h0
    rw [hv] at h0 ⊢
    rw [succ_same_block h0]
    exact hblock h0

theorem committed_written (hgood : Good g (visited g o i))
    (h : ∀ x, Good g x → Trace g f₀ r o fate i f x) (hfirst : i = 0 → f = f₀)
    (henter : Enters g (fate i) (visited g o i)) (hok : ∀ k < pages g, (fate i).write k = .ok) :
    Committed g f₀ r o (visited g o i)
      (written g r (fate i).write (entered g f (visited g o i)) (visited g o i)) := by
  refine ⟨hgood, chunkAt_written_ok hg hok _ _,
    flight_of_trace hg fun x hx => Trace.write hg h hfirst henter hx, fun h0 => ?_⟩
  obtain ⟨hi, hv⟩ := visited_inside h0
  refine ⟨hv, fun x hlt _ => ?_⟩
  rw [chunkAt_written_ne r _ _ hlt.ne, entered, if_neg h0, hfirst hi]

def CommitEnds (g : Geometry) (S : Set FlashTs) (f₀ : Flash) (r : FlashTs) (o : Nat)
    (fate : Nat → Fate) (x : Int × Priv) (f : Flash) : Prop :=
  Provenance g S f ∧
    ((∃ q, x = (0, { offset := q * flashTsMaxSize, cache := r }) ∧ Committed g f₀ r o q f) ∨
      (x = (-eio, { offset := o * flashTsMaxSize, cache := r }) ∧
        ∀ y, Good g y → Trace g f₀ r o fate (g.blocks * 2) f y))

theorem wp_commitLoop_rounds {S : Set FlashTs} (hr : r ∈ S) (hpos : 0 < slots g)
    (hblock : (o + 1) % perBlock g ≠ 0 →
      flashBlockIsbad g (o / perBlock g * g.blockSize) = false)
    (n i : Nat) (f : Flash) (hn : i + n = g.blocks * 2) (hprov : Provenance g S f)
    (htrace : ∀ x, Good g x → Trace g f₀ r o fate i f x) (hfirst : i = 0 → f = f₀) :
    wp (commitLoop g { offset := o * flashTsMaxSize, cache := r } fate (toBytes r) n i
        (visited g o i * flashTsMaxSize))
      (CommitEnds g S f₀ r o fate) (fun _ => True) f := by
  induction n generalizing i f with
  | zero =>
    rw [commitLoop, wp_pure]
    rw [Nat.add_zero] at hn
    subst hn
    exact ⟨hprov, .inr ⟨rfl, htrace⟩⟩
  | succ n ih =>
    have hnext : ∀ f', Provenance g S f' → (∀ x, Good g x → Trace g f₀ r o fate (i + 1) f' x) →
        wp (commitLoop g { offset := o * flashTsMaxSize, cache := r } fate (toBytes r) n (i + 1)
          (blockAfter g (visited g o i) * flashTsMaxSize)) (CommitEnds g S f₀ r o fate)
          (fun _ => True) f' := by
      intro f' hprov' htrace'
      rw [commitLoop_visited hg]
      exact ih (i + 1) f' (by omega) hprov' htrace' (by omega)
    have hwrite : Provenance g S
        (written g r (fate i).write (entered g f (visited g o i)) (visited g o i)) :=
      (hprov.entered hg _).written hg hr _ _
    refine wp_commitLoop_succ hg rfl fate r n i (visited_lt hpos o i) ?_ (fun _ _ _ _ => trivial)
      (fun _ _ => trivial) ?_ ?_ ?_ (fun _ _ _ _ _ => trivial)
    · intro h0 hskip
      refine hnext f hprov fun x hx => (htrace x hx).skip fun he => ?_
      rcases hskip with hbad | ⟨-, c, hc⟩
      · have hb := hx.2
        rw [← he.2.1, hbad] at hb
        cases hb
      · rw [he.2.2] at hc
        cases hc
    · intro henter _
      exact hnext _ hwrite fun x hx => Trace.write hg htrace hfirst henter hx
    · intro henter hok _
      have hgood := good_of_enters hblock hpos henter
      exact ⟨hwrite, .inl ⟨visited g o i, rfl,
        committed_written hg hgood htrace hfirst henter hok⟩⟩
    · intro henter hok hret _
      have hgood := good_of_enters hblock hpos henter
      have hc := committed_written hg hgood htrace hfirst henter hok
      refine ⟨hwrite.erasedBlock hg _ _, .inl ⟨visited g o i, rfl, hgood, ?_, ?_, ?_⟩⟩
      · rw [chunkAt_erasedBlock_ne hg _ _ hret.2]
        exact hc.chunk
      · exact hc.flight.erasedBlock hg o
      · exact fun h0 => absurd hret.1 h0

end

end SynaBoot.FlashRounds
