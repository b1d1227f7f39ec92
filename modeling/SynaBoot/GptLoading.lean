import SynaBoot.LoadGpt

namespace SynaBoot.GptLoading

open SynaBoot.BlockRange SynaBoot.EmmcBlocks SynaBoot.EmmcParts SynaBoot.LoadGpt

variable {f : Flash} {env : Env} {l : Loader}

def Same (b c : Buffer) (i j : ℕ) : Prop := ∀ k, i ≤ k → k < j → b k = c k

section Same

variable {b c : Buffer} {i j i' j' n : ℕ}

theorem Same.mono (h : Same b c i j) (hi : i ≤ i') (hj : j' ≤ j) : Same b c i' j' :=
  fun k h₁ h₂ => h k (hi.trans h₁) (h₂.trans_le hj)

theorem Same.trans {d : Buffer} (h : Same b c i j) (h' : Same c d i j) : Same b d i j :=
  fun k h₁ h₂ => (h k h₁ h₂).trans (h' k h₁ h₂)

theorem Same.bytesAt (h : Same b c i (i + n)) : bytesAt n b i = bytesAt n c i := by
  apply Subtype.ext
  apply List.map_congr_left
  intro k hk
  have hlt := List.mem_range.mp hk
  exact h (i + k) (by omega) (by omega)

theorem Same.word32 (h : Same b c i (i + 4)) : word32 b i = word32 c i := by
  unfold LoadGpt.word32
  rw [Same.bytesAt h]

theorem Same.word64 (h : Same b c i (i + 8)) : word64 b i = word64 c i := by
  unfold LoadGpt.word64
  rw [Same.word32 (h.mono le_rfl (by omega)), Same.word32 (h.mono (by omega) (by omega))]

theorem Same.gptHdrAt (h : Same b c i (i + 84)) : gptHdrAt b i = gptHdrAt c i := by
  unfold LoadGpt.gptHdrAt
  rw [Same.bytesAt (h.mono le_rfl (by omega)), Same.word32 (h.mono (by omega) (by omega)),
    Same.word32 (h.mono (by omega) (by omega)), Same.word32 (h.mono (by omega) (by omega))]

theorem Same.gptEntAt (h : Same b c i (i + 128)) : gptEntAt b i = gptEntAt c i := by
  unfold LoadGpt.gptEntAt
  rw [Same.bytesAt (h.mono le_rfl (by omega)), Same.bytesAt (h.mono (by omega) (by omega)),
    Same.word64 (h.mono (by omega) (by omega)), Same.word64 (h.mono (by omega) (by omega)),
    Same.word64 (h.mono (by omega) (by omega)), Same.bytesAt (h.mono (by omega) (by omega))]

end Same

theorem load_blocks (part b : Buffer) {lba n : ℕ} (h : lba + n ≤ 2 ^ 32) (i : ℕ) :
    load part (blocks (2 ^ 32) lba n) b i =
      if i < n * mmcBlockSize then part (lba * mmcBlockSize + i) else b i := by
  unfold load
  rw [length_blocks]
  generalize mmcBlockSize = size
  by_cases hi : i < n * size
  · have hdiv : i / size < n := Nat.div_lt_of_lt_mul (by rwa [Nat.mul_comm])
    have hget : (blocks (2 ^ 32) lba n).getD (i / size) 0 = lba + i / size := by
      rw [List.getD_eq_getElem _ _ (by rwa [length_blocks])]
      simp only [blocks, List.getElem_map, List.getElem_range]
      exact Nat.mod_eq_of_lt (by omega)
    rw [if_pos hi, if_pos hi, hget, Nat.add_mul, Nat.add_assoc, Nat.mul_comm (i / size),
      Nat.div_add_mod]
  · rw [if_neg hi, if_neg hi]

structure Loaded (f : Flash) (part : UInt32) (first n : ℕ) (l l' : Loader) : Prop where
  honest : Honest l'.emmc
  gptes : l'.gptes = l.gptes
  buff : ∀ i, l'.buff i =
    if i < n * mmcBlockSize then f.bytes part (first * mmcBlockSize + i) else l.buff i

variable {l' : Loader} {part : UInt32}

theorem Loaded.near {n j : ℕ} (h : Loaded f part 0 n l l') (hj : j ≤ n * mmcBlockSize) :
    Same l'.buff (f.bytes part) 0 j := by
  intro k _ hk
  rw [h.buff k, if_pos (hk.trans_le hj), Nat.zero_mul, Nat.zero_add]

theorem Loaded.far {first n i : ℕ} (h : Loaded f part first n l l') (hi : n * mmcBlockSize ≤ i)
    (j : ℕ) : Same l'.buff l.buff i j := by
  intro k hk _
  rw [h.buff k, if_neg (Nat.not_lt.mpr (hi.trans hk))]

theorem readFlashFromPart_loads {r : GptRead} (part : UInt32) (first : ℕ) (size : UInt32)
    (hl : Honest l.emmc) (hs : env.switchOk r = true) (hr : env.readOk r = true) (hp : part ≤ 8)
    (hfirst : first + blksOf size ≤ 2 ^ 32) :
    ∃ l', readFlashFromPart env f r part ((first * mmcBlockSize : ℕ) : Int) size l = (0, l') ∧
      Loaded f part first (blksOf size) l l' := by
  obtain ⟨emmc, hsw, hdev, hhon⟩ := hl.switch (UInt32.not_lt.mpr hp)
  have hlba : lbaOf ((first * mmcBlockSize : ℕ) : Int) = first % 2 ^ 32 := by
    unfold lbaOf CText.uint64 mmcBlockSize
    omega
  have hread : readEmmc (0 + ((first * mmcBlockSize : ℕ) : Int)) size =
      some (blocks (2 ^ 32) first (blksOf size)) := by
    have hmod : ¬ (0 + ((first * mmcBlockSize : ℕ) : Int)).tmod mmcBlockSize ≠ 0 := by
      rw [Int.zero_add, not_not, Nat.cast_mul]
      exact Int.mul_tmod_left _ _
    unfold readEmmc
    rw [if_neg hmod, Int.zero_add, doEmmcread_eq, hlba, blocks_mod]
  unfold readFlashFromPart
  rw [hs, hsw]
  dsimp only
  rw [if_neg (lt_irrefl 0), hread]
  dsimp only
  rw [if_pos hr]
  refine ⟨_, rfl, hhon, rfl, fun i => ?_⟩
  dsimp only
  rw [hdev, load_blocks _ _ hfirst]

theorem blksOf_primary : blksOf gptPriReadSize = 52 := by decide
theorem blksOf_alternate : blksOf gptAltReadSize = 33 := by decide

def diskSlot (f : Flash) (part : UInt32) (k : ℕ) : GptEnt :=
  gptEntAt (f.bytes part) (gptTableOffset + 128 * k)

def diskHdr (f : Flash) (part : UInt32) : GptHdr := gptHdrAt (f.bytes part) gptHeaderOffset

def slots (f : Flash) (part : UInt32) : ℕ := (diskHdr f part).hdrEntries.toNat

def onDisk (f : Flash) (part : UInt32) : List GptEntPart :=
  usedSlots part (diskSlot f part) 0 (slots f part)

def hasGpt (f : Flash) (i : Fin 4) : Bool := (diskHdr f (gppPart i)).valid

def gpps (f : Flash) : List (Fin 4) := allGpps.filter (hasGpt f)

def expected (f : Flash) : List GptEntPart :=
  (onDisk f 0 ++ (gpps f).flatMap fun i => onDisk f (gppPart i)).take maxGptEntry

def coveredSlots : ℕ := 124

/-- The first slot that the loop does not take. -/
def cut (f : Flash) (part : UInt32) (room : ℕ) : ℕ :=
  min (scanned room (diskHdr f part).hdrEntries) coveredSlots

def stale (f : Flash) (part : UInt32) (room : ℕ) : List GptEntPart :=
  usedSlots part (diskSlot f 0) (cut f part room)
    (scanned room (diskHdr f part).hdrEntries - cut f part room)

def taken (f : Flash) (part : UInt32) (room : ℕ) : List GptEntPart :=
  usedSlots part (diskSlot f part) 0 (cut f part room)

def missed (f : Flash) (part : UInt32) (room : ℕ) : List GptEntPart :=
  (usedSlots part (diskSlot f part) (cut f part room) (slots f part - cut f part room)).take
    (room - (taken f part room).length)

def Kept (f : Flash) : ℕ → List (Fin 4) → Prop
  | _, [] => True
  | room, i :: is => stale f (gppPart i) room = missed f (gppPart i) room ∧
      Kept f (room - (onDisk f (gppPart i)).length) is

def decideKept (f : Flash) : ∀ (room : ℕ) (is : List (Fin 4)), Decidable (Kept f room is)
  | _, [] => isTrue trivial
  | room, i :: is => @instDecidableAnd _ _ (decEq _ _)
      (decideKept f (room - (onDisk f (gppPart i)).length) is)

instance (f : Flash) (room : ℕ) (is : List (Fin 4)) : Decidable (Kept f room is) :=
  decideKept f room is

theorem usedSlots_append (part : UInt32) (entry : ℕ → GptEnt) (i m n : ℕ) :
    usedSlots part entry i (m + n) = usedSlots part entry i m ++ usedSlots part entry (i + m) n := by
  unfold usedSlots
  rw [List.range'_append_1.symm, List.filter_append, List.map_append]

theorem usedSlots_congr {entry entry' : ℕ → GptEnt} {i n : ℕ}
    (h : ∀ k, i ≤ k → k < i + n → entry k = entry' k) (part : UInt32) :
    usedSlots part entry i n = usedSlots part entry' i n := by
  induction n generalizing i with
  | zero => rfl
  | succ n ih =>
    have hi := h i le_rfl (by omega)
    have hrest := ih (i := i + 1) fun k h₁ h₂ => h k (by omega) (by omega)
    by_cases hu : (entry i).used = true
    · rw [usedSlots_succ_pos hu, usedSlots_succ_pos (hi ▸ hu), hi, hrest]
    · rw [usedSlots_succ_neg hu, usedSlots_succ_neg (hi ▸ hu), hrest]

theorem part_usedSlots {entry : ℕ → GptEnt} {i n : ℕ} {e : GptEntPart}
    (h : e ∈ usedSlots part entry i n) : e.part = part := by
  obtain ⟨k, -, rfl⟩ := List.mem_map.mp h
  rfl

def added (f : Flash) (part : UInt32) (room : ℕ) : List GptEntPart :=
  taken f part room ++ stale f part room

theorem cut_le (f : Flash) (part : UInt32) (room : ℕ) :
    cut f part room ≤ scanned room (diskHdr f part).hdrEntries := Nat.min_le_left _ _

def Leftover (f : Flash) (b : Buffer) : Prop := Same b (f.bytes 0) 0x4200 0x4400

theorem parseBuff_gpp (hload : Loaded f part 0 33 l l') (hleft : Leftover f l.buff) :
    (parseBuff part gptHeaderOffset gptTableOffset l').gptes.entries =
      l.gptes.entries ++ added f part (maxGptEntry - l.gptes.entries.length) := by
  have hnear : Same l'.buff (f.bytes part) 0 0x4200 := hload.near (by decide)
  have hfar : Same l'.buff (f.bytes 0) 0x4200 0x4400 := (hload.far (by decide) 0x4400).trans hleft
  have hhdr : gptHdrAt l'.buff gptHeaderOffset = diskHdr f part :=
    Same.gptHdrAt (hnear.mono (by decide) (by decide))
  have hroom : maxGptEntry - l.gptes.entries.length ≤ 128 := Nat.sub_le _ _
  have hsc :=
    (scanned_le (maxGptEntry - l.gptes.entries.length) (diskHdr f part).hdrEntries).trans hroom
  have hcut := cut_le f part (maxGptEntry - l.gptes.entries.length)
  have hcov : cut f part (maxGptEntry - l.gptes.entries.length) ≤ 124 := Nat.min_le_right _ _
  have hgap : cut f part (maxGptEntry - l.gptes.entries.length) < 124 →
      scanned (maxGptEntry - l.gptes.entries.length) (diskHdr f part).hdrEntries =
        cut f part (maxGptEntry - l.gptes.entries.length) := by
    unfold cut coveredSlots
    omega
  change parseLoop part _ (scanned (maxGptEntry - l'.gptes.entries.length)
    (gptHdrAt l'.buff gptHeaderOffset).hdrEntries) 0 l'.gptes.entries = _
  rw [hload.gptes, hhdr, parseLoop_eq, added, taken, stale]
  generalize scanned (maxGptEntry - l.gptes.entries.length) (diskHdr f part).hdrEntries = n at *
  generalize cut f part (maxGptEntry - l.gptes.entries.length) = c at *
  obtain ⟨m, rfl⟩ := Nat.exists_eq_add_of_le hcut
  rw [usedSlots_append, Nat.add_sub_cancel_left, Nat.zero_add]
  congr 2
  · apply usedSlots_congr
    intro k _ hk
    exact Same.gptEntAt (hnear.mono (Nat.zero_le _) (by unfold gptTableOffset; omega))
  · apply usedSlots_congr
    intro k hk hk'
    apply Same.gptEntAt
    apply hfar.mono
    all_goals
      unfold gptTableOffset
      omega

def addedAll (f : Flash) : ℕ → List (Fin 4) → List GptEntPart
  | _, [] => []
  | room, i :: is => added f (gppPart i) room ++
      addedAll f (room - (added f (gppPart i) room).length) is

theorem gppLoop_entries (hs : ∀ r, env.switchOk r = true) (hr : ∀ r, env.readOk r = true)
    (is : List (Fin 4)) (hl : Honest l.emmc) (hleft : Leftover f l.buff) :
    (gppLoop env f is l).gptes.entries = l.gptes.entries ++
      addedAll f (maxGptEntry - l.gptes.entries.length) (is.filter (hasGpt f)) := by
  induction is generalizing l with
  | nil => exact (List.append_nil _).symm
  | cons i is ih =>
    obtain ⟨l', hread, hload⟩ := readFlashFromPart_loads (f := f) (gppPart i) 0 gptAltReadSize hl
      (hs (.gpp i)) (hr (.gpp i)) (gppPart_le i) (by decide)
    rw [blksOf_alternate] at hload
    have hleft' : Leftover f l'.buff := (hload.far (by decide) 0x4400).trans hleft
    have hvalid : (gptHdrAt l'.buff gptHeaderOffset).valid = hasGpt f i :=
      congrArg GptHdr.valid (Same.gptHdrAt ((hload.near (by decide)).mono (Nat.zero_le _) le_rfl))
    have hread' : readFlashFromPart env f (.gpp i) (gppPart i) startAddrGpt gptAltReadSize l =
        (0, l') := hread
    rw [gppLoop, hread']
    dsimp only
    rw [if_pos rfl, hvalid]
    by_cases hv : hasGpt f i = true
    · have hround := parseBuff_gpp hload hleft
      have hnext := ih (l := parseBuff (gppPart i) gptHeaderOffset gptTableOffset l')
        (by rw [parseBuff_emmc]; exact hload.honest) (by rw [parseBuff_buff]; exact hleft')
      rw [if_pos hv, List.filter_cons_of_pos hv, hnext, hround, addedAll, List.append_assoc,
        List.length_append, Nat.sub_add_eq]
    · rw [if_neg hv, List.filter_cons_of_neg hv, ih hload.honest hleft', hload.gptes]

theorem append_eq_append_tagged {A A' B B' : List GptEntPart} (hA : ∀ e ∈ A, e.part = part)
    (hA' : ∀ e ∈ A', e.part = part) (hB : ∀ e ∈ B, e.part ≠ part) (hB' : ∀ e ∈ B', e.part ≠ part) :
    A ++ B = A' ++ B' ↔ A = A' ∧ B = B' := by
  have hsplit {A B : List GptEntPart} (hA : ∀ e ∈ A, e.part = part) (hB : ∀ e ∈ B, e.part ≠ part) :
      (A ++ B).filter (fun e => e.part = part) = A := by
    rw [List.filter_append, List.filter_eq_self.mpr (by simpa using hA),
      List.filter_eq_nil_iff.mpr (by simpa using hB), List.append_nil]
  constructor
  · intro h
    have hAA := congrArg (List.filter fun e => e.part = part) h
    rw [hsplit hA hB, hsplit hA' hB'] at hAA
    subst hAA
    exact ⟨rfl, List.append_cancel_left h⟩
  · rintro ⟨rfl, rfl⟩
    rfl

theorem part_added {room : ℕ} : ∀ e ∈ added f part room, e.part = part := by
  intro e he
  obtain he | he := List.mem_append.mp he
  · exact part_usedSlots he
  · exact part_usedSlots he

theorem part_addedAll {room : ℕ} {is : List (Fin 4)} :
    ∀ e ∈ addedAll f room is, ∃ i ∈ is, e.part = gppPart i := by
  induction is generalizing room with
  | nil =>
    intro e he
    cases he
  | cons i is ih =>
    intro e he
    obtain he | he := List.mem_append.mp he
    · exact ⟨i, List.mem_cons_self, part_added e he⟩
    · obtain ⟨j, hj, hp⟩ := ih e he
      exact ⟨j, List.mem_cons_of_mem i hj, hp⟩

theorem part_onDisk : ∀ e ∈ onDisk f part, e.part = part :=
  fun _ he => part_usedSlots he

theorem gppPart_injective : Function.Injective gppPart := by decide

theorem scanned_le_slots (f : Flash) (part : UInt32) (room : ℕ) :
    scanned room (diskHdr f part).hdrEntries ≤ slots f part := by
  unfold scanned slots
  split <;> omega

theorem take_onDisk (f : Flash) (part : UInt32) (room : ℕ) :
    (onDisk f part).take room = taken f part room ++ missed f part room := by
  have hc := (cut_le f part room).trans (scanned_le_slots f part room)
  have hle := (cut_le f part room).trans (scanned_le room (diskHdr f part).hdrEntries)
  have hsplit : onDisk f part = taken f part room ++
      usedSlots part (diskSlot f part) (cut f part room) (slots f part - cut f part room) := by
    have h := usedSlots_append part (diskSlot f part) 0 (cut f part room)
      (slots f part - cut f part room)
    rwa [Nat.add_sub_cancel' hc, Nat.zero_add] at h
  have ht : (taken f part room).length ≤ room := (length_usedSlots_le _ _ _ _).trans hle
  rw [hsplit, List.take_append, List.take_of_length_le ht]
  rfl

theorem addedAll_eq_iff {room : ℕ} {is : List (Fin 4)} (hnd : is.Nodup) :
    addedAll f room is = (is.flatMap fun i => onDisk f (gppPart i)).take room ↔ Kept f room is := by
  induction is generalizing room with
  | nil => exact iff_of_true (List.take_nil).symm trivial
  | cons i is ih =>
    obtain ⟨hi, hnd⟩ := List.nodup_cons.mp hnd
    have hother {j : Fin 4} (hj : j ∈ is) : gppPart j ≠ gppPart i :=
      fun h => hi (gppPart_injective h ▸ hj)
    have hrest : ∀ e ∈ ((is.flatMap fun i => onDisk f (gppPart i)).take
        (room - (onDisk f (gppPart i)).length)), e.part ≠ gppPart i := by
      intro e he
      obtain ⟨j, hj, he⟩ := List.mem_flatMap.mp (List.mem_of_mem_take he)
      rw [part_onDisk e he]
      exact hother hj
    have hadd : ∀ e ∈ addedAll f (room - (added f (gppPart i) room).length) is,
        e.part ≠ gppPart i := by
      intro e he
      obtain ⟨j, hj, hp⟩ := part_addedAll e he
      rw [hp]
      exact hother hj
    rw [addedAll, List.flatMap_cons, List.take_append, append_eq_append_tagged part_added
      (fun e he => part_onDisk e (List.mem_of_mem_take he)) hadd hrest, Kept, take_onDisk, added,
      List.append_cancel_left_eq]
    refine and_congr_right fun hkept => ?_
    have hlen : room - (taken f (gppPart i) room ++ stale f (gppPart i) room).length =
        room - (onDisk f (gppPart i)).length := by
      rw [hkept, ← take_onDisk, List.length_take]
      omega
    rw [hlen]
    exact ih hnd

theorem getGpt_primary (hl : Honest l.emmc) (hs : env.switchOk .primary = true)
    (hr : env.readOk .primary = true) :
    ∃ l', Loaded f 0 0 52 l l' ∧
      getGpt env f l = gptLoadDone env f gptHeaderOffset gptTableOffset l' := by
  obtain ⟨l', hread, hload⟩ := readFlashFromPart_loads (f := f) 0 0 gptPriReadSize hl hs hr
    (by decide) (by decide)
  rw [blksOf_primary] at hload
  have hread' : readFlashFromPart env f .primary 0 startAddrGpt gptPriReadSize l = (0, l') := hread
  refine ⟨l', hload, ?_⟩
  unfold getGpt
  rw [hread']
  rfl

theorem parseBuff_primary (hload : Loaded f 0 0 52 l l') (hempty : l.gptes.entries = [])
    (hslots : slots f 0 ≤ maxGptEntry) :
    (parseBuff 0 gptHeaderOffset gptTableOffset l').gptes.entries = onDisk f 0 := by
  have hsame : Same l'.buff (f.bytes 0) 0 0x6800 := hload.near (by decide)
  have hhdr : gptHdrAt l'.buff gptHeaderOffset = diskHdr f 0 :=
    Same.gptHdrAt (hsame.mono (by decide) (by decide))
  have hscan : scanned (maxGptEntry - ([] : List GptEntPart).length) (diskHdr f 0).hdrEntries =
      slots f 0 := by
    unfold scanned slots at *
    rw [List.length_nil, Nat.sub_zero]
    split <;> omega
  change parseLoop 0 _ (scanned (maxGptEntry - l'.gptes.entries.length)
    (gptHdrAt l'.buff gptHeaderOffset).hdrEntries) 0 l'.gptes.entries = _
  rw [hload.gptes, hhdr, hempty, hscan, parseLoop_eq, List.nil_append]
  apply usedSlots_congr
  intro k _ hk
  unfold maxGptEntry at hslots
  exact Same.gptEntAt (hsame.mono (Nat.zero_le _) (by unfold gptTableOffset; omega))

theorem getGpt_entries (hl : Honest l.emmc) (hs : ∀ r, env.switchOk r = true)
    (hr : ∀ r, env.readOk r = true) (hv : (diskHdr f 0).valid = true)
    (hempty : l.gptes.entries = []) (hslots : slots f 0 ≤ maxGptEntry) :
    (getGpt env f l).2.gptes.entries =
      onDisk f 0 ++ addedAll f (maxGptEntry - (onDisk f 0).length) (gpps f) := by
  obtain ⟨l', hload, hget⟩ := getGpt_primary (f := f) hl (hs .primary) (hr .primary)
  have hsame : Same l'.buff (f.bytes 0) 0 0x6800 := hload.near (by decide)
  have hhdr : gptHdrAt l'.buff gptHeaderOffset = diskHdr f 0 :=
    Same.gptHdrAt (hsame.mono (by decide) (by decide))
  have huser := parseBuff_primary hload hempty hslots
  rw [hget, gptLoadDone, hhdr, if_pos hv]
  dsimp only
  rw [gppLoop_entries hs hr _ (by rw [parseBuff_emmc]; exact hload.honest)
    (by rw [parseBuff_buff]; exact hsame.mono (by decide) (by decide)), huser]
  rfl

/-- The table holds the entries in use exactly if the last slots and the room are as assumed. -/
theorem get_gpt_loads_iff (env : Env) (f : Flash) (l : Loader) (hl : Honest l.emmc)
    (hs : ∀ r, env.switchOk r = true) (hr : ∀ r, env.readOk r = true)
    (hv : (diskHdr f 0).valid = true) (hempty : l.gptes.entries = [])
    (hslots : slots f 0 ≤ maxGptEntry) :
    (getGpt env f l).2.gptes.entries = expected f ↔
      Kept f (maxGptEntry - (onDisk f 0).length) (gpps f) := by
  have hlen : (onDisk f 0).length ≤ maxGptEntry := (length_usedSlots_le _ _ _ _).trans hslots
  have hnd : (gpps f).Nodup := List.Nodup.filter _ (by decide)
  rw [getGpt_entries hl hs hr hv hempty hslots, expected, List.take_append,
    List.take_of_length_le hlen, List.append_cancel_left_eq]
  exact addedAll_eq_iff hnd

def sampleGpt (hdrEntries : UInt8) (usedSlot : ℕ → Bool) : Buffer := fun i =>
  if 0x200 ≤ i ∧ i < 0x254 then
    (gptHdrSig ++ [0, 0, 1, 0, 92, 0, 0, 0] ++ List.replicate 64 0 ++ [hdrEntries]).getD (i - 0x200) 0
  else if 0x400 ≤ i ∧ i % 128 = 0 ∧ usedSlot ((i - 0x400) / 128) then UInt8.ofNat (i / 128)
  else 0

def sampleFlash (user gpp1 : Buffer) : Flash where
  bytes := fun part => if part = 0 then user else if part = 4 then gpp1 else fun _ => 0
  sectors := 2 ^ 20
  sectors_range := by decide

def noFailure : Env := ⟨fun _ => true, fun _ => true, fun _ b => b⟩

def freshLoader : Loader := ⟨poweron 0, fun _ => 0, ⟨[], Nat.zero_le _⟩⟩

def smallFlash : Flash := sampleFlash (sampleGpt 1 (· = 0)) (sampleGpt 2 (· = 1))

theorem get_gpt_loads_small :
    (getGpt noFailure smallFlash freshLoader).2.gptes.entries = expected smallFlash :=
  (get_gpt_loads_iff noFailure smallFlash freshLoader (honest_poweron 0) (fun _ => rfl)
    (fun _ => rfl) (by decide +kernel) rfl (by decide +kernel)).mpr (by decide +kernel)

def lateFlash : Flash := sampleFlash (sampleGpt 128 (· = 124)) (sampleGpt 128 (· = 127))

theorem late_slots_lost :
    (getGpt noFailure lateFlash freshLoader).2.gptes.entries =
        [⟨0, diskSlot lateFlash 0 124⟩, ⟨4, diskSlot lateFlash 0 124⟩] ∧
      expected lateFlash = [⟨0, diskSlot lateFlash 0 124⟩, ⟨4, diskSlot lateFlash 4 127⟩] ∧
      (getGpt noFailure lateFlash freshLoader).2.gptes.entries ≠ expected lateFlash := by
  rw [getGpt_entries (honest_poweron 0) (fun _ => rfl) (fun _ => rfl) (by decide +kernel) rfl
    (by decide +kernel)]
  decide +kernel

end SynaBoot.GptLoading
