import SynaBoot.GptLoading

namespace SynaBoot.GptRedundancy

open SynaBoot.EmmcBlocks SynaBoot.EmmcParts SynaBoot.LoadGpt SynaBoot.GptLoading

variable {f : Flash} {env : Env} {l : Loader}

/-- The copies of the GPT in the user area. -/
inductive Copy where
  | primary
  | alternate
  deriving DecidableEq

def altStart (f : Flash) : ℕ := (f.sectors - 33) * mmcBlockSize

def Copy.hdr (f : Flash) : Copy → GptHdr
  | .primary => diskHdr f 0
  | .alternate => gptHdrAt (f.bytes 0) (altStart f + gptPartSize)

def Copy.slot (f : Flash) : Copy → ℕ → GptEnt
  | .primary => diskSlot f 0
  | .alternate => fun k => gptEntAt (f.bytes 0) (altStart f + 128 * k)

def Copy.entries (f : Flash) (c : Copy) : List GptEntPart :=
  usedSlots 0 (c.slot f) 0 (scanned maxGptEntry (c.hdr f).hdrEntries)

def Intact (f : Flash) (es : List GptEntPart) : Prop :=
  ∃ c : Copy, (c.hdr f).valid = true ∧ es.filter (fun e => e.part = 0) = c.entries f

/-- The alternate copy only if the primary one cannot be read. -/
def chosen (env : Env) : Copy := if env.readOk .primary then .primary else .alternate

theorem gppPart_ne_zero (i : Fin 4) : gppPart i ≠ 0 := by
  revert i
  decide

theorem parseBuff_appends (part : UInt32) (hdrPos tablePos : ℕ) (l : Loader) :
    ∃ es, (parseBuff part hdrPos tablePos l).gptes.entries = l.gptes.entries ++ es ∧
      ∀ e ∈ es, e.part = part :=
  ⟨_, parseLoop_eq _ _ _ _ _, fun _ he => part_usedSlots he⟩

theorem readFlashFromPart_gptes (r : GptRead) (part : UInt32) (start : Int) (size : UInt32) :
    (readFlashFromPart env f r part start size l).2.gptes = l.gptes := by
  unfold readFlashFromPart
  dsimp only
  split
  · rfl
  · split
    · rfl
    · split <;> rfl

theorem gppLoop_user (is : List (Fin 4)) (l : Loader) :
    (gppLoop env f is l).gptes.entries.filter (fun e => e.part = 0) =
      l.gptes.entries.filter fun e => e.part = 0 := by
  induction is generalizing l with
  | nil => rfl
  | cons i is ih =>
    have hread : (readFlashFromPart env f (.gpp i) (gppPart i) startAddrGpt gptAltReadSize l).2.gptes =
        l.gptes := readFlashFromPart_gptes _ _ _ _
    rw [gppLoop]
    generalize readFlashFromPart env f (.gpp i) (gppPart i) startAddrGpt gptAltReadSize l = r at hread
    obtain ⟨ret, l'⟩ := r
    dsimp only at hread ⊢
    rw [← hread]
    split
    · split
      · obtain ⟨es, hes, hpart⟩ := parseBuff_appends (gppPart i) gptHeaderOffset gptTableOffset l'
        have hnone : es.filter (fun e => e.part = 0) = [] := by
          apply List.filter_eq_nil_iff.mpr
          intro e he
          rw [hpart e he]
          simpa using gppPart_ne_zero i
        rw [ih, hes, List.filter_append, hnone, List.append_nil]
      · exact ih l'
    · rfl

theorem gptLoadDone_copy {hdrPos tablePos : ℕ} {c : Copy} (hempty : l.gptes.entries = [])
    (hhdr : gptHdrAt l.buff hdrPos = c.hdr f)
    (hslot : ∀ k < 128, gptEntAt l.buff (tablePos + 128 * k) = c.slot f k) :
    (gptLoadDone env f hdrPos tablePos l).1 = 0 ∧
        Intact f (gptLoadDone env f hdrPos tablePos l).2.gptes.entries ↔ (c.hdr f).valid = true := by
  unfold gptLoadDone
  rw [hhdr]
  by_cases hv : (c.hdr f).valid = true
  · rw [if_pos hv]
    refine iff_of_true ⟨rfl, c, hv, ?_⟩ hv
    dsimp only
    rw [gppLoop_user]
    change (parseLoop 0 _ (scanned (maxGptEntry - l.gptes.entries.length)
      (gptHdrAt l.buff hdrPos).hdrEntries) 0 l.gptes.entries).filter _ = _
    have huser : ∀ e ∈ c.entries f, decide (e.part = 0) = true :=
      fun e he => decide_eq_true (part_usedSlots he)
    rw [hempty, hhdr, parseLoop_eq, List.nil_append, List.length_nil, Nat.sub_zero]
    refine Eq.trans (congrArg (List.filter _) ?_) (List.filter_eq_self.mpr huser)
    apply usedSlots_congr
    intro k _ hk
    have hle := scanned_le maxGptEntry (c.hdr f).hdrEntries
    exact hslot k (by unfold maxGptEntry at *; omega)
  · rw [if_neg hv]
    exact iff_of_false (fun h => absurd h.1 (by decide : flashOpErr ≠ 0)) hv

theorem readFlashFromPart_fails {r : GptRead} (part : UInt32) (start : Int) (size : UInt32)
    (hl : Honest l.emmc) (hs : env.switchOk r = true) (hr : env.readOk r = false) (hp : part ≤ 8) :
    ∃ l', readFlashFromPart env f r part start size l = (-1, l') ∧ Honest l'.emmc ∧
      l'.gptes = l.gptes := by
  obtain ⟨emmc, hsw, -, hhon⟩ := hl.switch (UInt32.not_lt.mpr hp)
  unfold readFlashFromPart
  rw [hs, hr, hsw]
  dsimp only
  rw [if_neg (lt_irrefl 0)]
  split
  · exact ⟨_, rfl, hhon, rfl⟩
  · exact ⟨_, rfl, hhon, rfl⟩

section Shift

variable (c : Buffer) (o i : ℕ)

theorem bytesAt_shift (n : ℕ) : bytesAt n (fun k => c (o + k)) i = bytesAt n c (o + i) := by
  apply Subtype.ext
  apply List.map_congr_left
  intro k _
  exact congrArg c (Nat.add_assoc o i k).symm

theorem word32_shift : word32 (fun k => c (o + k)) i = word32 c (o + i) := by
  unfold word32
  rw [bytesAt_shift]

theorem word64_shift : word64 (fun k => c (o + k)) i = word64 c (o + i) := by
  unfold word64
  rw [word32_shift, word32_shift, Nat.add_assoc]

theorem gptHdrAt_shift : gptHdrAt (fun k => c (o + k)) i = gptHdrAt c (o + i) := by
  unfold gptHdrAt
  simp only [bytesAt_shift, word32_shift, Nat.add_assoc]

theorem gptEntAt_shift : gptEntAt (fun k => c (o + k)) i = gptEntAt c (o + i) := by
  unfold gptEntAt
  simp only [bytesAt_shift, word64_shift, Nat.add_assoc]

end Shift

theorem altStart_eq (f : Flash) :
    f.capacity - gptAltReadSize.toNat = (((f.sectors - 33) * mmcBlockSize : ℕ) : Int) := by
  have h := f.sectors_range
  have hsize : gptAltReadSize.toNat = 0x4200 := by decide
  unfold Flash.capacity mmcBlockSize
  rw [hsize]
  omega

/-- `get_gpt` succeeds with the entries of a good copy exactly if the copy that it looks at
is good. -/
theorem get_gpt_recovers_iff (env : Env) (f : Flash) (l : Loader) (hl : Honest l.emmc)
    (hempty : l.gptes.entries = []) (hs : ∀ r, env.switchOk r = true)
    (hr : env.readOk .alternate = true) :
    (getGpt env f l).1 = 0 ∧ Intact f (getGpt env f l).2.gptes.entries ↔
      ((chosen env).hdr f).valid = true := by
  cases hp : env.readOk .primary with
  | true =>
    obtain ⟨l', hload, hget⟩ := getGpt_primary (f := f) hl (hs .primary) hp
    have hc : chosen env = .primary := by rw [chosen, hp]; rfl
    have hsame : Same l'.buff (f.bytes 0) 0 0x6800 := hload.near (by decide)
    rw [hget, hc]
    apply gptLoadDone_copy
    · rw [hload.gptes]
      exact hempty
    · exact Same.gptHdrAt (hsame.mono (by decide) (by decide))
    · intro k hk
      exact Same.gptEntAt (hsame.mono (Nat.zero_le _) (by unfold gptTableOffset; omega))
  | false =>
    obtain ⟨l₁, hfail, hhon, hg₁⟩ := readFlashFromPart_fails (f := f) 0 startAddrGpt gptPriReadSize
      hl (hs .primary) hp (by decide)
    have hfirst : f.sectors - 33 + blksOf gptAltReadSize ≤ 2 ^ 32 := by
      have h := f.sectors_range
      rw [blksOf_alternate]
      omega
    obtain ⟨l', hread, hload⟩ := readFlashFromPart_loads (f := f) 0 _ _ hhon (hs .alternate) hr
      (by decide) hfirst
    rw [blksOf_alternate] at hload
    have hget : getGpt env f l = gptLoadDone env f gptPartSize 0 l' := by
      unfold getGpt
      rw [hfail]
      dsimp only
      rw [if_pos (by decide), altStart_eq, hread]
      rfl
    have hc : chosen env = .alternate := by rw [chosen, hp]; rfl
    have hsame : Same l'.buff (fun k => f.bytes 0 (altStart f + k)) 0 0x4200 := by
      intro k _ hk
      rw [hload.buff k, if_pos (hk.trans_le (by decide))]
      rfl
    rw [hget, hc]
    apply gptLoadDone_copy
    · rw [hload.gptes, hg₁]
      exact hempty
    · rw [Same.gptHdrAt (hsame.mono (Nat.zero_le _) (by decide)), gptHdrAt_shift]
      rfl
    · intro k hk
      rw [Same.gptEntAt (hsame.mono (Nat.zero_le _) (by omega)), gptEntAt_shift, Nat.zero_add]
      rfl

theorem get_gpt_recovers_small :
    (getGpt noFailure smallFlash freshLoader).1 = 0 ∧
      Intact smallFlash (getGpt noFailure smallFlash freshLoader).2.gptes.entries :=
  (get_gpt_recovers_iff noFailure smallFlash freshLoader (honest_poweron 0) rfl (fun _ => rfl)
    rfl).mpr (by decide +kernel)

def damagedFlash : Flash where
  bytes := fun _ i =>
    if 2 ^ 29 - 0x200 ≤ i then
      (gptHdrSig ++ [0, 0, 1, 0, 92, 0, 0, 0] ++ List.replicate 64 0 ++ [1]).getD (i - (2 ^ 29 - 0x200)) 0
    else if i = 2 ^ 29 - 0x4200 then 1
    else 0
  sectors := 2 ^ 20
  sectors_range := smallFlash.sectors_range

theorem alternate_ignored :
    (Copy.alternate.hdr damagedFlash).valid = true ∧
      (Copy.alternate.entries damagedFlash).length = 1 ∧
      (getGpt noFailure damagedFlash freshLoader).1 = flashOpErr := by
  obtain ⟨l', hload, hget⟩ : ∃ l', Loaded damagedFlash 0 0 52 freshLoader l' ∧
      getGpt noFailure damagedFlash freshLoader =
        gptLoadDone noFailure damagedFlash gptHeaderOffset gptTableOffset l' :=
    getGpt_primary (honest_poweron 0) rfl rfl
  have hhdr : gptHdrAt l'.buff gptHeaderOffset = diskHdr damagedFlash 0 :=
    Same.gptHdrAt ((hload.near (by decide)).mono (Nat.zero_le _) le_rfl)
  have hbad : ¬ (diskHdr damagedFlash 0).valid = true := by decide +kernel
  refine ⟨by decide +kernel, by decide +kernel, ?_⟩
  rw [hget, gptLoadDone, hhdr, if_neg hbad]

end SynaBoot.GptRedundancy
