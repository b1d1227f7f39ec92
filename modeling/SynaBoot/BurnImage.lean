import SynaBoot.BurnLookup

namespace SynaBoot.BurnImage

open SynaBoot.CText SynaBoot.Emmcburn SynaBoot.GptLookup

def blksz : ℕ := 512
def bMax : ℕ := 65535
def verifyBufLba : ℕ := 1024

inductive Kind where
  | erase
  | write
  deriving DecidableEq, Repr

structure Command where
  kind : Kind
  part : ℕ
  start : ℕ
  cnt : ℕ
  deriving DecidableEq, Repr

/-- `hwPart` is the real partition, `currPart` the one the burner assumes. -/
structure Device where
  burner : Burner
  currPart : Option ℕ
  hwPart : ℕ
  lastStartLba : ℤ
  lastPart : ℤ

def Device.init (burner : Burner) : Device := ⟨burner, none, 0, -1, -1⟩

def Device.lba (d : Device) : ℕ :=
  match d.burner.hw d.hwPart with
  | some h => h.lba
  | none => 0

inductive Source where
  | tftp
  | usbh
  | usbs
  | sd
  deriving DecidableEq, Repr

inductive Format where
  | gzip
  | sparse
  | flat
  deriving DecidableEq, Repr

structure Download where
  source : Source
  ok : Bool
  filesize : ℕ
  format : Format

structure Emmc where
  accepts : ℕ → ℕ → Bool
  readsBack : ℕ → ℕ → Bool
  gzwrite : Device → Bool × List Command
  writeSparseImage : Device → Bool × List Command

def switchPart (part : ℕ) (d : Device) : Bool × Device :=
  if d.currPart = some part then (true, d)
  else if (d.burner.hw part).isSome then (true, { d with currPart := some part, hwPart := part })
  else (false, { d with currPart := none })

def mmcWriteBlocks (m : Emmc) (d : Device) (start blkcnt : ℕ) : ℕ × List Command :=
  if d.lba < start + blkcnt then (0, [])
  else if blkcnt = 0 then (0, [])
  else (if m.accepts start blkcnt then blkcnt else 0, [⟨.write, d.hwPart, start, blkcnt⟩])

/-- The loop of `mmc_bwrite`: whether all blocks are written. -/
def writeLoop (m : Emmc) (d : Device) : ℕ → ℕ → ℕ → Bool × List Command
  | 0, _, _ => (false, [])
  | fuel + 1, start, blocksTodo =>
    let cur := if bMax < blocksTodo then bMax else blocksTodo
    let w := mmcWriteBlocks m d start cur
    if w.1 ≠ cur then (false, w.2)
    else if blocksTodo - cur = 0 then (true, w.2)
    else
      let r := writeLoop m d fuel (start + cur) (blocksTodo - cur)
      (r.1, w.2 ++ r.2)

def mmcBwrite (m : Emmc) (d : Device) (start blkcnt : ℕ) : ℕ × List Command :=
  let r := writeLoop m d (blkcnt + 1) start blkcnt
  (if r.1 then blkcnt else 0, r.2)

def mmcBread (m : Emmc) (start blkcnt : ℕ) : Bool := blkcnt = 0 || m.readsBack start blkcnt

def verifyLoop (m : Emmc) : ℕ → ℕ → ℕ → Bool
  | 0, _, _ => false
  | fuel + 1, rstart, rest =>
    let rLba := if verifyBufLba ≤ rest then verifyBufLba else rest
    mmcBread m rstart rLba &&
      (rest - rLba = 0 || verifyLoop m fuel ((rstart + rLba) % 2 ^ 32) (rest - rLba))

def emmcErase (part start cnt : ℕ) (d : Device) : Bool × List Command × Device :=
  match switchPart part d with
  | (false, d) => (false, [], d)
  | (true, d) => (true, [⟨.erase, d.hwPart, start % 2 ^ 32, cnt % 2 ^ 32⟩], d)

def emmcWrite (m : Emmc) (part start cnt : ℕ) (d : Device) : Bool × List Command × Device :=
  match switchPart part d with
  | (false, d) => (false, [], d)
  | (true, d) =>
    let w := mmcBwrite m d (start % 2 ^ 32) cnt
    (cnt = w.1 && verifyLoop m (cnt + 1) (start % 2 ^ 32) cnt, w.2, d)

def blockCount (size : ℕ) : ℕ := (size + blksz - 1) % 2 ^ 32 / blksz

def burnImages (m : Emmc) (format : Format) (part start size : ℕ) (d : Device) :
    Bool × List Command × Device :=
  match format with
  | .gzip => ((m.gzwrite d).1, (m.gzwrite d).2, d)
  | .sparse => ((m.writeSparseImage d).1, (m.writeSparseImage d).2, d)
  | .flat => emmcWrite m part start (blockCount size) d

/-- The tables that are read switch the eMMC. -/
def lookupInfo (name : List Char) (d : Device) : Info × Device :=
  let d := if d.burner.isGptReady then d
    else (gptParts d.burner.hw).foldl (fun d part => (switchPart part d).2) d
  ((getPartitionInfo name d.burner).1, { d with burner := (getPartitionInfo name d.burner).2 })

def Download.load (dl : Download) (d : Device) : Device :=
  if dl.source = .sd then { d with hwPart := 0 } else d

def Download.loaded (dl : Download) : Bool := dl.ok && 0 ≤ int32 dl.filesize

/-- The partition is erased once for the images in a row that go to it. -/
def erases (part start : ℕ) (d : Device) : Bool :=
  start ≠ uint64 d.lastStartLba || part ≠ uint64 d.lastPart

def eraseOnce (part start cnt : ℕ) (d : Device) : Bool × List Command × Device :=
  if erases part start d then
    match emmcErase part start cnt d with
    | (false, cs, d) => (false, cs, d)
    | (true, cs, d) => (true, cs, { d with lastStartLba := int32 start, lastPart := part })
  else (true, [], d)

/-- The return value, the commands and the state. -/
def dlAndBurnImg (m : Emmc) (dl : Download) (pt : List Char) (d : Device) :
    Option (Bool × List Command × Device) :=
  match lookupInfo pt d with
  | (.outOfBounds, _) => none
  | (.failed, d) => some (false, [], d)
  | (.found part start cnt _, d) =>
    let d := dl.load d
    if ¬ dl.loaded then some (false, [], d)
    else
      match eraseOnce part start cnt d with
      | (false, cs, d) => some (false, cs, d)
      | (true, cs, d) =>
        let r := burnImages m dl.format part start (dl.filesize % 2 ^ 32) d
        some (r.1, cs ++ r.2.1, r.2.2)

def Command.Within (part start cnt : ℕ) (c : Command) : Prop :=
  ∀ b, c.start ≤ b → b < c.start + c.cnt → c.part = part ∧ start ≤ b ∧ b < start + cnt

structure Confined (part start cnt filesize : ℕ) (r : Bool × List Command × Device) : Prop where
  within : ∀ c ∈ r.2.1, c.Within part start cnt
  larger : cnt * blksz < filesize → r.1 = false ∧ ∀ c ∈ r.2.1, c.kind ≠ .write

section Write

variable {m : Emmc} {d : Device} {fuel start n : ℕ}

def Starts (d : Device) (start n : ℕ) : Prop := n ≠ 0 ∧ start + min n bMax ≤ d.lba

theorem chunk_eq (n : ℕ) : (if bMax < n then bMax else n) = min n bMax := by
  split <;> omega

variable {c : Command}

theorem mmcWriteBlocks_commands (h : c ∈ (mmcWriteBlocks m d start n).2) :
    c = ⟨.write, d.hwPart, start, n⟩ := by
  unfold mmcWriteBlocks at h
  split at h
  · cases h
  · split at h
    · cases h
    · exact List.mem_singleton.mp h

theorem writeLoop_commands (h : c ∈ (writeLoop m d fuel start n).2) :
    c.kind = .write ∧ c.part = d.hwPart ∧ start ≤ c.start ∧ c.start + c.cnt ≤ start + n := by
  induction fuel generalizing start n with
  | zero => cases h
  | succ fuel ih =>
    rw [writeLoop, chunk_eq] at h
    dsimp only at h
    have hfirst (h : c ∈ (mmcWriteBlocks m d start (min n bMax)).2) :
        c.kind = .write ∧ c.part = d.hwPart ∧ start ≤ c.start ∧ c.start + c.cnt ≤ start + n := by
      obtain rfl := mmcWriteBlocks_commands h
      exact ⟨rfl, rfl, le_rfl, Nat.add_le_add_left (Nat.min_le_left _ _) _⟩
    split at h
    · exact hfirst h
    · split at h
      · exact hfirst h
      · obtain h | h := List.mem_append.mp h
        · exact hfirst h
        · obtain ⟨hkind, hpart, hstart, hend⟩ := ih h
          exact ⟨hkind, hpart, by omega, by omega⟩

theorem mmcBwrite_commands (h : c ∈ (mmcBwrite m d start n).2) :
    c.kind = .write ∧ c.part = d.hwPart ∧ start ≤ c.start ∧ c.start + c.cnt ≤ start + n :=
  writeLoop_commands h

theorem mmcBwrite_zero : mmcBwrite m d start 0 = (0, []) := by
  have hfirst : mmcWriteBlocks m d start 0 = (0, []) := by
    unfold mmcWriteBlocks
    split
    · rfl
    · exact if_pos rfl
  rw [mmcBwrite, writeLoop, chunk_eq, Nat.zero_min]
  dsimp only
  rw [hfirst]
  rfl

theorem mmcBwrite_refused (hn : n ≠ 0) (h : ¬ Starts d start n) :
    mmcBwrite m d start n = (0, []) := by
  have hlba : d.lba < start + min n bMax := by
    by_contra hle
    exact h ⟨hn, by omega⟩
  have hfirst : mmcWriteBlocks m d start (min n bMax) = (0, []) := if_pos hlba
  have hchunk : 0 ≠ min n bMax := by
    unfold bMax
    omega
  rw [mmcBwrite, writeLoop, chunk_eq]
  dsimp only
  rw [hfirst, if_pos hchunk]
  rfl

theorem mmcBwrite_first (h : Starts d start n) :
    ⟨.write, d.hwPart, start, min n bMax⟩ ∈ (mmcBwrite m d start n).2 := by
  obtain ⟨hn, hlba⟩ := h
  have hchunk : min n bMax ≠ 0 := by
    unfold bMax
    omega
  have hfirst : (⟨.write, d.hwPart, start, min n bMax⟩ : Command) ∈
      (mmcWriteBlocks m d start (min n bMax)).2 := by
    rw [mmcWriteBlocks, if_neg (by omega), if_neg hchunk]
    exact List.mem_singleton.mpr rfl
  rw [mmcBwrite, writeLoop, chunk_eq]
  dsimp only
  split
  · exact hfirst
  · split
    · exact hfirst
    · exact List.mem_append_left _ hfirst

theorem mmcBwrite_eq_nil (h : ¬ Starts d start n) : mmcBwrite m d start n = (0, []) := by
  by_cases hn : n = 0
  · rw [hn]
    exact mmcBwrite_zero
  · exact mmcBwrite_refused hn h

theorem writeLoop_ok (haccepts : ∀ s k, m.accepts s k) (hlba : start + n ≤ d.lba)
    (hfuel : n < fuel) : (writeLoop m d fuel start n).1 = true := by
  induction fuel generalizing start n with
  | zero => omega
  | succ fuel ih =>
    have hfirst : (mmcWriteBlocks m d start (min n bMax)).1 = min n bMax := by
      rw [mmcWriteBlocks, if_neg (by omega)]
      split
      · next hzero => exact hzero.symm
      · exact if_pos (haccepts _ _)
    rw [writeLoop, chunk_eq]
    dsimp only
    rw [if_neg (not_not_intro hfirst)]
    split
    · rfl
    · next hrest =>
      have hpos : 0 < min n bMax := by
        unfold bMax
        omega
      exact ih (by omega) (by omega)

theorem verifyLoop_ok (hreads : ∀ s k, m.readsBack s k) (hfuel : n < fuel) :
    verifyLoop m fuel start n = true := by
  induction fuel generalizing start n with
  | zero => omega
  | succ fuel ih =>
    have hread (s k : ℕ) : mmcBread m s k = true := by
      rw [mmcBread, hreads, Bool.or_true]
    rw [verifyLoop, hread, Bool.true_and, Bool.or_eq_true, decide_eq_true_iff]
    by_cases hbuf : verifyBufLba ≤ n
    · rw [if_pos hbuf]
      unfold verifyBufLba at hbuf ⊢
      exact .inr (ih (by omega))
    · rw [if_neg hbuf]
      exact .inl (Nat.sub_self n)

end Write

section Run

variable {m : Emmc} {dl : Download} {part start cnt : ℕ} {d : Device}

def Switchable (part : ℕ) (d : Device) : Prop :=
  d.currPart = some part ∨ (d.burner.hw part).isSome

def switched (part : ℕ) (d : Device) : Device :=
  { d with currPart := some part, hwPart := if d.currPart = some part then d.hwPart else part }

theorem switchPart_of_switchable (h : Switchable part d) :
    switchPart part d = (true, switched part d) := by
  unfold switchPart switched
  by_cases hcurr : d.currPart = some part
  · rw [if_pos hcurr, if_pos hcurr, ← hcurr]
  · rw [if_neg hcurr, if_neg hcurr, if_pos (h.resolve_left hcurr)]

theorem switchPart_of_not_switchable (h : ¬ Switchable part d) :
    switchPart part d = (false, { d with currPart := none }) := by
  have hcurr : d.currPart ≠ some part := fun hcurr => h (.inl hcurr)
  have hhw : ¬ (d.burner.hw part).isSome := fun hhw => h (.inr hhw)
  rw [switchPart, if_neg hcurr, if_neg hhw]

def eraseCommands (part start cnt : ℕ) (d : Device) : List Command :=
  if erases part start d then
    [⟨.erase, (switched part d).hwPart, start % 2 ^ 32, cnt % 2 ^ 32⟩]
  else []

variable {c : Command}

theorem mem_eraseCommands : c ∈ eraseCommands part start cnt d ↔
    erases part start d ∧ c = ⟨.erase, (switched part d).hwPart, start % 2 ^ 32, cnt % 2 ^ 32⟩ := by
  unfold eraseCommands
  split
  · next h => rw [List.mem_singleton, and_iff_right h]
  · next h => exact iff_of_false List.not_mem_nil fun hc => h hc.1

structure Reached (dl : Download) (part : ℕ) (d : Device) : Prop where
  loaded : dl.loaded
  switchable : Switchable part d

theorem eraseOnce_switchable (start cnt : ℕ) (h : Switchable part d) :
    ∃ e, eraseOnce part start cnt d = (true, eraseCommands part start cnt d, e) ∧
      Switchable part e ∧ (switched part e).hwPart = (switched part d).hwPart ∧
        (switched part e).lba = (switched part d).lba := by
  unfold eraseOnce eraseCommands
  by_cases herase : erases part start d
  · refine ⟨{ switched part d with lastStartLba := int32 start, lastPart := part },
      ?_, .inl rfl, ?_⟩
    · rw [if_pos herase, if_pos herase, emmcErase, switchPart_of_switchable h]
    · have hself : switched part { switched part d with
          lastStartLba := int32 start, lastPart := part } =
          { switched part d with lastStartLba := int32 start, lastPart := part } := by
        unfold switched
        dsimp only
        rw [if_pos rfl]
      rw [hself]
      exact ⟨rfl, by unfold Device.lba; dsimp only⟩
  · rw [if_neg herase, if_neg herase]
    exact ⟨d, rfl, h, rfl, rfl⟩

theorem eraseOnce_not_switchable (start cnt : ℕ) (h : ¬ Switchable part d) :
    (∃ e, eraseOnce part start cnt d = (false, [], e)) ∨
      eraseOnce part start cnt d = (true, [], d) := by
  unfold eraseOnce
  by_cases herase : erases part start d
  · rw [if_pos herase, emmcErase, switchPart_of_not_switchable h]
    exact .inl ⟨_, rfl⟩
  · rw [if_neg herase]
    exact .inr rfl

theorem emmcWrite_switchable {n : ℕ} (h : Switchable part d) :
    emmcWrite m part start n d =
      (n = (mmcBwrite m (switched part d) (start % 2 ^ 32) n).1 &&
          verifyLoop m (n + 1) (start % 2 ^ 32) n,
        (mmcBwrite m (switched part d) (start % 2 ^ 32) n).2, switched part d) := by
  rw [emmcWrite, switchPart_of_switchable h]

theorem emmcWrite_not_switchable {n : ℕ} (h : ¬ Switchable part d) :
    emmcWrite m part start n d = (false, [], { d with currPart := none }) := by
  rw [emmcWrite, switchPart_of_not_switchable h]

variable {pt name : List Char} {d₀ : Device}

theorem dlAndBurnImg_stopped (hinfo : lookupInfo pt d₀ = (.found part start cnt name, d))
    (hflat : dl.format = .flat) (h : ¬ Reached dl part (dl.load d)) :
    ∃ e, dlAndBurnImg m dl pt d₀ = some (false, [], e) := by
  unfold dlAndBurnImg
  rw [hinfo]
  dsimp only
  by_cases hload : dl.loaded
  · have hswitch : ¬ Switchable part (dl.load d) := fun hswitch => h ⟨hload, hswitch⟩
    rw [if_neg (not_not_intro hload)]
    obtain ⟨e, herase⟩ | herase := eraseOnce_not_switchable start cnt hswitch
    · rw [herase]
      exact ⟨e, rfl⟩
    · rw [herase]
      dsimp only
      rw [hflat, burnImages, emmcWrite_not_switchable hswitch]
      exact ⟨_, rfl⟩
  · rw [if_pos hload]
    exact ⟨_, rfl⟩

def Download.blocks (dl : Download) : ℕ := blockCount (dl.filesize % 2 ^ 32)

theorem dlAndBurnImg_reached (hinfo : lookupInfo pt d₀ = (.found part start cnt name, d))
    (hflat : dl.format = .flat) (h : Reached dl part (dl.load d)) :
    ∃ e, e.hwPart = (switched part (dl.load d)).hwPart ∧
      e.lba = (switched part (dl.load d)).lba ∧
      dlAndBurnImg m dl pt d₀ =
        some (dl.blocks = (mmcBwrite m e (start % 2 ^ 32) dl.blocks).1 &&
            verifyLoop m (dl.blocks + 1) (start % 2 ^ 32) dl.blocks,
          eraseCommands part start cnt (dl.load d) ++
            (mmcBwrite m e (start % 2 ^ 32) dl.blocks).2, e) := by
  obtain ⟨e, herase, hswitch, hpart, hlba⟩ :=
    eraseOnce_switchable start cnt h.switchable
  refine ⟨switched part e, hpart, hlba, ?_⟩
  unfold dlAndBurnImg
  rw [hinfo]
  dsimp only
  rw [if_neg (not_not_intro h.loaded), herase]
  dsimp only
  rw [hflat, burnImages, emmcWrite_switchable hswitch]
  rfl

theorem blocks_le (hload : dl.loaded) (h : dl.filesize ≤ cnt * blksz) : dl.blocks ≤ cnt := by
  have hsmall : dl.filesize % 2 ^ 32 < 2 ^ 31 := by
    have hint := of_decide_eq_true (Bool.and_eq_true_iff.mp hload).2
    unfold int32 at hint
    rw [Int.bmod_def] at hint
    omega
  unfold Download.blocks blockCount
  unfold blksz at *
  rw [Nat.mod_eq_of_lt (by omega)]
  have := Nat.mod_le dl.filesize (2 ^ 32)
  omega

structure Fits (dl : Download) (part start cnt : ℕ) (d : Device) : Prop where
  size : cnt * blksz < dl.filesize →
    dl.blocks ≠ 0 ∧ ¬ Starts (switched part d) (start % 2 ^ 32) dl.blocks
  place : erases part start d ∧ cnt % 2 ^ 32 ≠ 0 ∨
      Starts (switched part d) (start % 2 ^ 32) dl.blocks →
    (switched part d).hwPart = part ∧ start < 2 ^ 32

theorem within_of_le (hpart : c.part = part) (hstart : start ≤ c.start)
    (hend : c.start + c.cnt ≤ start + cnt) : c.Within part start cnt :=
  fun b hlo hhi => ⟨hpart, by omega, by omega⟩

theorem place_of_within (hcnt : 0 < c.cnt) (hstart : c.start = start % 2 ^ 32)
    (h : c.Within part start cnt) : c.part = part ∧ start < 2 ^ 32 := by
  obtain ⟨hpart, hlo, -⟩ := h c.start le_rfl (by omega)
  exact ⟨hpart, by omega⟩

theorem verifyLoop_zero {rstart : ℕ} : verifyLoop m 1 rstart 0 = true := by
  simp [verifyLoop, mmcBread, verifyBufLba]

theorem dlAndBurnImg_ok (hinfo : lookupInfo pt d₀ = (.found part start cnt name, d))
    (hflat : dl.format = .flat) (h : Reached dl part (dl.load d)) (haccepts : ∀ s k, m.accepts s k)
    (hreads : ∀ s k, m.readsBack s k)
    (hlba : start % 2 ^ 32 + dl.blocks ≤ (switched part (dl.load d)).lba) :
    ∃ cs e, dlAndBurnImg m dl pt d₀ = some (true, cs, e) := by
  obtain ⟨e, -, helba, heq⟩ := dlAndBurnImg_reached (m := m) hinfo hflat h
  have hwritten : (mmcBwrite m e (start % 2 ^ 32) dl.blocks).1 = dl.blocks :=
    if_pos (writeLoop_ok haccepts (helba ▸ hlba) (Nat.lt_succ_self _))
  have hverified : verifyLoop m (dl.blocks + 1) (start % 2 ^ 32) dl.blocks = true :=
    verifyLoop_ok hreads (Nat.lt_succ_self _)
  rw [hwritten, hverified, decide_eq_true rfl] at heq
  exact ⟨_, e, heq⟩

variable {e : Device}

theorem starts_congr {n : ℕ} (h : e.lba = d.lba) : Starts e start n ↔ Starts d start n := by
  rw [Starts, Starts, h]

theorem erase_within (h : Fits dl part start cnt d) (hc : c ∈ eraseCommands part start cnt d) :
    c.Within part start cnt := by
  obtain ⟨herase, rfl⟩ := mem_eraseCommands.mp hc
  by_cases hcnt : cnt % 2 ^ 32 = 0
  · intro b hlo hhi
    dsimp only at hlo hhi
    omega
  · obtain ⟨htarget, hstart⟩ := h.place (.inl ⟨herase, hcnt⟩)
    refine within_of_le htarget ?_ ?_
    · exact (Nat.mod_eq_of_lt hstart).ge
    · exact Nat.add_le_add (Nat.mod_le _ _) (Nat.mod_le _ _)

theorem write_within (hload : dl.loaded) (hpart : e.hwPart = (switched part d).hwPart)
    (hlba : e.lba = (switched part d).lba) (h : Fits dl part start cnt d)
    (hc : c ∈ (mmcBwrite m e (start % 2 ^ 32) dl.blocks).2) : c.Within part start cnt := by
  by_cases hfirst : Starts e (start % 2 ^ 32) dl.blocks
  · rw [starts_congr hlba] at hfirst
    obtain ⟨htarget, hstart⟩ := h.place (.inr hfirst)
    have hsize : dl.filesize ≤ cnt * blksz := by
      by_contra hlarger
      exact (h.size (by omega)).2 hfirst
    have hle := blocks_le hload hsize
    obtain ⟨-, hcpart, hcstart, hcend⟩ := mmcBwrite_commands hc
    rw [Nat.mod_eq_of_lt hstart] at hcstart hcend
    exact within_of_le (hcpart.trans (hpart.trans htarget)) hcstart (by omega)
  · rw [mmcBwrite_eq_nil hfirst] at hc
    cases hc

theorem confined_of_fits (hload : dl.loaded) (hpart : e.hwPart = (switched part d).hwPart)
    (hlba : e.lba = (switched part d).lba) (h : Fits dl part start cnt d) :
    Confined part start cnt dl.filesize
      (dl.blocks = (mmcBwrite m e (start % 2 ^ 32) dl.blocks).1 &&
          verifyLoop m (dl.blocks + 1) (start % 2 ^ 32) dl.blocks,
        eraseCommands part start cnt d ++ (mmcBwrite m e (start % 2 ^ 32) dl.blocks).2, e) := by
  refine ⟨fun c hc => ?_, fun hlarger => ?_⟩
  · obtain hc | hc := List.mem_append.mp hc
    · exact erase_within h hc
    · exact write_within hload hpart hlba h hc
  · obtain ⟨hblocks, hfirst⟩ := h.size hlarger
    rw [← starts_congr hlba] at hfirst
    rw [mmcBwrite_eq_nil hfirst]
    refine ⟨?_, fun c hc => ?_⟩
    · dsimp only
      rw [decide_eq_false hblocks]
      rfl
    · rw [List.append_nil] at hc
      obtain ⟨-, rfl⟩ := mem_eraseCommands.mp hc
      exact Kind.noConfusion

theorem fits_of_confined (hpart : e.hwPart = (switched part d).hwPart)
    (hlba : e.lba = (switched part d).lba)
    (h : Confined part start cnt dl.filesize
      (dl.blocks = (mmcBwrite m e (start % 2 ^ 32) dl.blocks).1 &&
          verifyLoop m (dl.blocks + 1) (start % 2 ^ 32) dl.blocks,
        eraseCommands part start cnt d ++ (mmcBwrite m e (start % 2 ^ 32) dl.blocks).2, e)) :
    Fits dl part start cnt d := by
  have hmem (hfirst : Starts (switched part d) (start % 2 ^ 32) dl.blocks) :=
    List.mem_append_right (eraseCommands part start cnt d)
      (mmcBwrite_first (m := m) ((starts_congr hlba).mpr hfirst))
  refine ⟨fun hlarger => ⟨fun hblocks => ?_, fun hfirst => ?_⟩, ?_⟩
  · -- an image of no blocks is written without an error
    have hok := (h.larger hlarger).1
    rw [hblocks, mmcBwrite_zero, verifyLoop_zero] at hok
    cases hok
  · exact (h.larger hlarger).2 _ (hmem hfirst) rfl
  · rintro (⟨herase, hcnt⟩ | hfirst)
    · have herased := h.within _ (List.mem_append_left _ (mem_eraseCommands.mpr ⟨herase, rfl⟩))
      exact place_of_within (Nat.pos_of_ne_zero hcnt) rfl herased
    · have hcnt : 0 < min dl.blocks bMax := by
        have := hfirst.1
        unfold bMax
        omega
      rw [← hpart]
      exact place_of_within hcnt rfl (h.within _ (hmem hfirst))

end Run

/-- A flat image is kept to its partition exactly if nothing is sent to the eMMC or the
image fits. -/
theorem burn_confined_iff (m : Emmc) (dl : Download) (pt name : List Char) (part start cnt : ℕ)
    (d₀ d : Device) (hinfo : lookupInfo pt d₀ = (.found part start cnt name, d))
    (hflat : dl.format = .flat) :
    (∃ r, dlAndBurnImg m dl pt d₀ = some r ∧ Confined part start cnt dl.filesize r) ↔
      (Reached dl part (dl.load d) → Fits dl part start cnt (dl.load d)) := by
  by_cases h : Reached dl part (dl.load d)
  · obtain ⟨e, hpart, hlba, heq⟩ := dlAndBurnImg_reached (m := m) hinfo hflat h
    rw [heq]
    constructor
    · rintro ⟨r, hr, hconf⟩ -
      obtain rfl := Option.some.inj hr
      exact fits_of_confined hpart hlba hconf
    · exact fun hfits => ⟨_, rfl, confined_of_fits h.loaded hpart hlba (hfits h)⟩
  · obtain ⟨e, heq⟩ := dlAndBurnImg_stopped (m := m) hinfo hflat h
    refine iff_of_true ⟨_, heq, ?_⟩ fun hreached => absurd hreached h
    have hnone (P : Command → Prop) : ∀ c ∈ ([] : List Command), P c :=
      fun c hc => absurd hc List.not_mem_nil
    exact ⟨hnone _, fun _ => ⟨rfl, hnone _⟩⟩

def sound : Emmc := ⟨fun _ _ => true, fun _ _ => true, fun _ => (true, []), fun _ => (true, [])⟩

def oneImported : Device := .init (Schedules.run step (poweron blank 0) [.partImport oneList])

theorem burn_confined_full :
    ∃ r, dlAndBurnImg sound ⟨.usbs, true, 0x800000, .flat⟩ "sd1".toList oneImported = some r ∧
      Confined 0 32768 16384 0x800000 r := by
  refine (burn_confined_iff sound ⟨.usbs, true, 0x800000, .flat⟩ "sd1".toList "boot".toList
    0 32768 16384 oneImported (lookupInfo "sd1".toList oneImported).2 ?_ rfl).mpr fun _ => ⟨?_, ?_⟩
  · exact Prod.ext (by decide +kernel) rfl
  · exact fun h => absurd h (by decide)
  · intro _
    decide +kernel

def bootDevice : ℕ → Option HwPart
  | 0 => blank 0
  | 1 => some ⟨8192, none, by decide⟩
  | _ => none

theorem larger_image_written :
    (dlAndBurnImg sound ⟨.usbs, true, 0x800200, .flat⟩ "sd1".toList oneImported).map
        (fun r => (r.1, r.2.1)) =
      some (true, [⟨.erase, 0, 32768, 16384⟩, ⟨.write, 0, 32768, 16385⟩]) ∧
    ((dlAndBurnImg sound ⟨.sd, true, 0x400, .flat⟩ "b1".toList
        (.init (poweron bootDevice (8192 * 512)))).bind fun r =>
      (dlAndBurnImg sound ⟨.sd, true, 0x400, .flat⟩ "b1".toList r.2.2).map fun r => (r.1, r.2.1)) =
      some (true, [⟨.write, 0, 0, 2⟩]) := by
  decide +kernel

end SynaBoot.BurnImage
