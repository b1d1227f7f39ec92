import SynaBoot.EarlyLoader
import SynaBoot.UBootSlots

namespace SynaBoot.SlotAgreement

open SynaBoot.BootControl

/-- The only bootable slot wins, and the preferred one of two. -/
def choose (ok : Slot → Bool) (preferred : Slot) : BootSel :=
  if ok .a && ok .b then .slot preferred
  else if ok .a then .slot .a
  else if ok .b then .slot .b
  else .invalid

theorem choose_eq_slot_iff (ok : Slot → Bool) (p s : Slot) :
    choose ok p = .slot s ↔ ok s = true ∧ (ok s.other = true → p = s) := by
  cases s <;> cases p <;> cases ha : ok .a <;> cases hb : ok .b <;>
    simp [choose, Slot.other, ha, hb]

theorem choose_eq_invalid_iff (ok : Slot → Bool) (p : Slot) :
    choose ok p = .invalid ↔ ∀ s, ok s = false := by
  constructor
  · intro h s
    unfold choose at h
    split_ifs at h with hab ha hb
    cases s
    · exact Bool.eq_false_of_not_eq_true ha
    · exact Bool.eq_false_of_not_eq_true hb
  · intro h
    simp only [choose, h, Bool.and_self, Bool.false_eq_true, if_false]

theorem eq_other_of_ne {s t : Slot} (h : t ≠ s) : t = s.other := by
  cases s <;> cases t <;> first | rfl | exact absurd rfl h

theorem other_other (s : Slot) : s.other.other = s := by
  cases s <;> rfl

theorem choose_eq_choose_iff (strict lenient : Slot → Bool) (p : Slot)
    (hsub : ∀ s, strict s = true → lenient s = true) :
    choose strict p = choose lenient p ↔
      ∀ s, lenient s = true → strict s = false → strict s.other = true ∧ p = s.other := by
  constructor
  · intro h s hl hs
    -- the strict choice is not `s`, so the lenient one is the other slot
    have hne : choose lenient p ≠ .slot s := by
      rw [← h, ne_eq, choose_eq_slot_iff, hs]
      exact fun h => Bool.false_ne_true h.1
    rw [ne_eq, choose_eq_slot_iff, not_and, Classical.not_imp] at hne
    obtain ⟨hol, hp⟩ := hne hl
    have hother : p = s.other := eq_other_of_ne hp
    have hc : choose lenient p = .slot s.other :=
      (choose_eq_slot_iff _ _ _).mpr ⟨hol, fun _ => hother⟩
    rw [← h] at hc
    exact ⟨((choose_eq_slot_iff _ _ _).mp hc).1, hother⟩
  · intro h
    cases hc : choose strict p with
    | slot s =>
      obtain ⟨hs, hp⟩ := (choose_eq_slot_iff _ _ _).mp hc
      refine ((choose_eq_slot_iff _ _ _).mpr ⟨hsub s hs, fun hol => ?_⟩).symm
      cases ho : strict s.other with
      | true => exact hp ho
      | false =>
        have := (h s.other hol ho).2
        rwa [other_other] at this
    | invalid =>
      have hn := (choose_eq_invalid_iff _ _).mp hc
      refine ((choose_eq_invalid_iff _ _).mpr fun s => ?_).symm
      rw [← Bool.not_eq_true]
      intro hl
      have := (h s hl (hn s)).1
      rw [hn] at this
      cases this

theorem bootabSlotSelect_eq (l : EarlyLoader.Loader) (hexist : EarlyLoader.bootctrlIsExist l = true) :
    EarlyLoader.bootabSlotSelect l = UBootSlots.selectSlot l.miscBctrl := by
  simp only [EarlyLoader.bootabSlotSelect, UBootSlots.selectSlot, hexist, if_true]

theorem checkAndroidAbcommand_valid (env : EarlyLoader.Env) (l : EarlyLoader.Loader)
    (hexist : EarlyLoader.bootctrlIsExist l = true)
    (hvalid : UBootSlots.isValidBootctrl l.miscBctrl = true)
    (hflag : l.rebootMode ≠ EarlyLoader.rebootModeDeviceCorrupted) :
    (EarlyLoader.checkAndroidAbcommand env l).1 =
      choose (fun s => EarlyLoader.bootable (l.miscBctrl.slotInfo s))
        (UBootSlots.selectSlot l.miscBctrl) := by
  have hv : EarlyLoader.bootctrlIsValid l = true := by
    unfold EarlyLoader.bootctrlIsValid
    unfold UBootSlots.isValidBootctrl at hvalid
    rw [hexist, hvalid]
    rfl
  have hb : ∀ s, EarlyLoader.slotIsBootable l s = EarlyLoader.bootable (l.miscBctrl.slotInfo s) := by
    intro s
    simp [EarlyLoader.slotIsBootable, hexist]
  unfold EarlyLoader.checkAndroidAbcommand choose
  simp only [hv, hb, bootabSlotSelect_eq l hexist,
    EarlyLoader.checkDmverity_no_flag _ _ _ hflag, if_true]
  split
  · rfl
  · split
    · rfl
    · split <;> rfl

theorem early_eq_choose (env : EarlyLoader.Env) (l : EarlyLoader.Loader)
    (hexist : EarlyLoader.bootctrlIsExist l = true) (hread : env.readOk = true)
    (hvalid : UBootSlots.isValidBootctrl l.misc = true)
    (hflag : l.rebootMode ≠ EarlyLoader.rebootModeDeviceCorrupted) :
    (EarlyLoader.checkAbmode env (EarlyLoader.initAbmode env l)).1 =
      choose (fun s => EarlyLoader.bootable (l.misc.slotInfo s)) (UBootSlots.selectSlot l.misc) := by
  have hi : EarlyLoader.initAbmode env l = { l with miscBctrl := l.misc } := by
    simp [EarlyLoader.initAbmode, hexist, hread]
  rw [hi]
  exact checkAndroidAbcommand_valid env { l with miscBctrl := l.misc } hexist hvalid hflag

theorem uboot_eq_choose (env : UBootSlots.Env) (m : BootCtrl) (hread : env.readOk = true)
    (hvalid : UBootSlots.isValidBootctrl m = true) :
    (UBootSlots.getCurrentSlot env m).1 =
      choose (fun s => UBootSlots.slotIsBootable (m.slotInfo s)) (UBootSlots.selectSlot m) := by
  simp only [UBootSlots.getCurrentSlot, UBootSlots.getBootctrlMetadata, hread, hvalid, if_true, choose]
  split
  · rfl
  · split
    · rfl
    · split <;> rfl

/-- Priority 1, or marked corrupted by dm-verity. -/
def Disputed (m : SlotMetadata) : Prop :=
  (m.priority = 1 ∨ 1 < m.priority ∧ m.verityCorrupted ≠ 0) ∧
    (m.successfulBoot ≠ 0 ∨ 0 < m.triesRemaining)

theorem priority_pos_iff (p : UInt8) : 0 < p ↔ p = 1 ∨ 1 < p := by
  rw [UInt8.lt_iff_toNat_lt, UInt8.lt_iff_toNat_lt, ← UInt8.toNat_inj]
  change 0 < p.toNat ↔ p.toNat = 1 ∨ 1 < p.toNat
  omega

theorem bootable_of_early (m : SlotMetadata) (h : EarlyLoader.bootable m = true) :
    UBootSlots.slotIsBootable m = true := by
  simp only [EarlyLoader.bootable, Bool.and_eq_true, decide_eq_true_eq] at h
  obtain ⟨⟨hp, -⟩, ht⟩ := h
  have hp' : 0 < m.priority := (priority_pos_iff _).mpr (.inr hp)
  simp only [UBootSlots.slotIsBootable, hp', decide_true, Bool.true_and]
  exact ht

theorem disputed_iff (m : SlotMetadata) :
    Disputed m ↔ UBootSlots.slotIsBootable m = true ∧ EarlyLoader.bootable m = false := by
  unfold Disputed UBootSlots.slotIsBootable EarlyLoader.bootable
  rw [← Bool.not_eq_true]
  simp only [Bool.and_eq_true, Bool.or_eq_true, decide_eq_true_eq, bne_iff_ne, beq_iff_eq,
    priority_pos_iff m.priority]
  constructor
  · rintro ⟨h1 | ⟨hlt, hv⟩, ht⟩
    · refine ⟨⟨.inl h1, ht⟩, fun h => ?_⟩
      rw [h1] at h
      exact absurd h.1.1 (by decide)
    · exact ⟨⟨.inr hlt, ht⟩, fun h => hv h.1.2⟩
  · rintro ⟨⟨h1 | hlt, ht⟩, hn⟩
    · exact ⟨.inl h1, ht⟩
    · exact ⟨.inr ⟨hlt, fun hv => hn ⟨⟨hlt, hv⟩, ht⟩⟩, ht⟩

/-- Priority, then booted, then tries, then slot A. -/
def Outranks (m : BootCtrl) (s : Slot) : Prop :=
  let p := m.slotInfo s
  let q := m.slotInfo s.other
  q.priority < p.priority ∨ q.priority = p.priority ∧
    (q.successfulBoot < p.successfulBoot ∨ q.successfulBoot = p.successfulBoot ∧
      (q.triesRemaining < p.triesRemaining ∨ q.triesRemaining = p.triesRemaining ∧ s = .a))

theorem selectSlot_eq_iff (m : BootCtrl) (s : Slot) :
    UBootSlots.selectSlot m = s ↔ Outranks m s := by
  unfold UBootSlots.selectSlot Outranks
  by_cases hp : (m.slotInfo .a).priority = (m.slotInfo .b).priority
  · by_cases hb : (m.slotInfo .a).successfulBoot = (m.slotInfo .b).successfulBoot
    · by_cases ht : (m.slotInfo .a).triesRemaining = (m.slotInfo .b).triesRemaining
      · cases s <;> simp [hp, hb, ht, Slot.other, bootselDefault]
      · cases s <;> simp [hp, hb, ht, Slot.other, prefer_eq_a, prefer_eq_b _ _ ht, Ne.symm ht]
    · cases s <;> simp [hp, hb, Slot.other, prefer_eq_a, prefer_eq_b _ _ hb, Ne.symm hb]
  · cases s <;> simp [hp, Slot.other, prefer_eq_a, prefer_eq_b _ _ hp, Ne.symm hp]

/-- Both stages agree exactly when a slot only U-Boot holds bootable is outranked. -/
theorem stages_agree_iff (env : EarlyLoader.Env) (l : EarlyLoader.Loader) (u : UBootSlots.Env)
    (hexist : EarlyLoader.bootctrlIsExist l = true) (hread : env.readOk = true)
    (huread : u.readOk = true) (hvalid : UBootSlots.isValidBootctrl l.misc = true)
    (hflag : l.rebootMode ≠ EarlyLoader.rebootModeDeviceCorrupted) :
    (EarlyLoader.checkAbmode env (EarlyLoader.initAbmode env l)).1 =
        (UBootSlots.getCurrentSlot u l.misc).1 ↔
      ∀ s, Disputed (l.misc.slotInfo s) →
        EarlyLoader.bootable (l.misc.slotInfo s.other) = true ∧ Outranks l.misc s.other := by
  simp only [← selectSlot_eq_iff]
  rw [early_eq_choose env l hexist hread hvalid hflag, uboot_eq_choose u l.misc huread hvalid,
    choose_eq_choose_iff _ _ _ (fun s => bootable_of_early (l.misc.slotInfo s))]
  constructor
  · intro h s hd
    obtain ⟨hu, he⟩ := (disputed_iff _).mp hd
    exact h s hu he
  · intro h s hu he
    exact h s ((disputed_iff _).mpr ⟨hu, he⟩)

def corruptedPreferred : BootCtrl where
  magic := bootctrlMagic
  version := miscBootControlVersion
  recoveryTriesRemaining := 0
  slotInfo := fun
    | .a => ⟨15, 2, 0, 1, 0⟩
    | .b => ⟨14, 2, 1, 0, 0⟩
  reserved := Vector.replicate 16 0

def earlyEnv : EarlyLoader.Env where
  readOk := true
  writeOk := true
  tempBuf := corruptedPreferred
  configSm := true
  genxBootSlot := .invalid

def ubootEnv : UBootSlots.Env where
  readOk := true
  write := .stored
  bootSlot := .invalid

def loaderWith (m : BootCtrl) : EarlyLoader.Loader where
  devinfoExist := false
  miscExist := true
  miscBctrl := corruptedPreferred
  misc := m
  rebootMode := EarlyLoader.rebootModeNormal
  bootAbSel := .slot .a

theorem stages_disagree_corrupted :
    EarlyLoader.bootctrlIsExist (loaderWith corruptedPreferred) = true ∧
    UBootSlots.isValidBootctrl (loaderWith corruptedPreferred).misc = true ∧
    (loaderWith corruptedPreferred).rebootMode ≠ EarlyLoader.rebootModeDeviceCorrupted ∧
    (EarlyLoader.checkAbmode earlyEnv
        (EarlyLoader.initAbmode earlyEnv (loaderWith corruptedPreferred))).1 ≠
      (UBootSlots.getCurrentSlot ubootEnv (loaderWith corruptedPreferred).misc).1 := by
  decide

theorem stages_agree_default :
    (EarlyLoader.checkAbmode earlyEnv
        (EarlyLoader.initAbmode earlyEnv (loaderWith (defaultBootctrl .b)))).1 =
      (UBootSlots.getCurrentSlot ubootEnv (defaultBootctrl .b)).1 := by
  apply (stages_agree_iff earlyEnv (loaderWith (defaultBootctrl .b)) ubootEnv
    (by decide) rfl rfl (by decide) (by decide)).mpr
  intro s hd
  have h := (disputed_iff _).mp hd
  cases s <;> exact absurd h (by decide)

end SynaBoot.SlotAgreement
