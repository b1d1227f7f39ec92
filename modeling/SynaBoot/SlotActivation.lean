import SynaBoot.SlotAgreement

namespace SynaBoot.SlotActivation

open SynaBoot.BootControl SynaBoot.SlotAgreement

theorem selectSlot_of_priority (m : BootCtrl) (s : Slot)
    (h : (m.slotInfo s.other).priority < (m.slotInfo s).priority) : UBootSlots.selectSlot m = s := by
  have hne : (m.slotInfo .a).priority ≠ (m.slotInfo .b).priority := by
    intro he
    cases s with
    | a => exact absurd h (by simp [Slot.other, he])
    | b => exact absurd h (by simp [Slot.other, he])
  have hsel : UBootSlots.selectSlot m =
      prefer (m.slotInfo .a).priority (m.slotInfo .b).priority := by
    simp [UBootSlots.selectSlot, hne]
  rw [hsel]
  cases s with
  | a => exact (prefer_eq_a _ _).mpr h
  | b =>
    cases hp : prefer (m.slotInfo .a).priority (m.slotInfo .b).priority with
    | b => rfl
    | a =>
      have hlt := (prefer_eq_a _ _).mp hp
      exact absurd (UInt8.lt_trans h hlt) (UInt8.lt_irrefl _)

theorem activate_target (m : BootCtrl) (s : Slot) :
    (UBootSlots.activate m s).slotInfo s =
      { m.slotInfo s with successfulBoot := 0, priority := 15, triesRemaining := 2 } := by
  simp [UBootSlots.activate]

theorem activate_rival_priority (m : BootCtrl) (s : Slot) :
    ((UBootSlots.activate m s).slotInfo s.other).priority < 15 := by
  have hne : s.other ≠ s := by cases s <;> simp [Slot.other]
  simp only [UBootSlots.activate, hne, if_false]
  split
  · change (14 : UInt8) < 15
    decide
  · rename_i h
    exact UInt8.not_le.mp h

theorem selectSlot_activate (m : BootCtrl) (s : Slot) :
    UBootSlots.selectSlot (UBootSlots.activate m s) = s := by
  apply selectSlot_of_priority
  rw [activate_target]
  exact activate_rival_priority m s

theorem selectSlot_defaultBootctrl (s : Slot) : UBootSlots.selectSlot (defaultBootctrl s) = s := by
  cases s <;> decide

theorem bootable_activate (m : BootCtrl) (s : Slot) :
    EarlyLoader.bootable ((UBootSlots.activate m s).slotInfo s) = true ↔
      (m.slotInfo s).verityCorrupted = 0 := by
  rw [activate_target]
  have h1 : (1 : UInt8) < 15 := by decide
  have h2 : (0 : UInt8) < 2 := by decide
  simp [EarlyLoader.bootable, h1, h2]

theorem slotIsBootable_activate (m : BootCtrl) (s : Slot) :
    UBootSlots.slotIsBootable ((UBootSlots.activate m s).slotInfo s) = true := by
  rw [activate_target]
  have h1 : (0 : UInt8) < 15 := by decide
  have h2 : (0 : UInt8) < 2 := by decide
  simp [UBootSlots.slotIsBootable, h1, h2]

theorem setActiveSlot_stored (u : UBootSlots.Env) (i : Nat) (s : Slot) (m : BootCtrl)
    (hi : UBootSlots.slotOfIndex i = some s) (hstored : u.write = .stored)
    (hset : (UBootSlots.setActiveSlot u i m).1 = true) :
    (UBootSlots.setActiveSlot u i m).2 =
      if UBootSlots.isValidBootctrl m then UBootSlots.activate m s else defaultBootctrl s := by
  cases hr : u.readOk with
  | false => simp [UBootSlots.setActiveSlot, UBootSlots.getBootctrlMetadata, hi, hr] at hset
  | true =>
    simp only [UBootSlots.setActiveSlot, UBootSlots.getBootctrlMetadata, hi, hr, if_true,
      UBootSlots.initBootctrl, UBootSlots.writeBootctrlMetadata, hstored]
    split <;> rfl

theorem isValidBootctrl_activate (m : BootCtrl) (s : Slot) :
    UBootSlots.isValidBootctrl (UBootSlots.activate m s) = UBootSlots.isValidBootctrl m := rfl

/-- An activated slot is selected by both stages, unless it carried a dm-verity mark. -/
theorem activation_effective_iff (u : UBootSlots.Env) (i : Nat) (s : Slot) (m : BootCtrl)
    (hi : UBootSlots.slotOfIndex i = some s) (hstored : u.write = .stored)
    (hset : (UBootSlots.setActiveSlot u i m).1 = true)
    (env : EarlyLoader.Env) (l : EarlyLoader.Loader) (hmisc : l.misc = (UBootSlots.setActiveSlot u i m).2)
    (hexist : EarlyLoader.bootctrlIsExist l = true) (hread : env.readOk = true)
    (hflag : l.rebootMode ≠ EarlyLoader.rebootModeDeviceCorrupted)
    (next : UBootSlots.Env) (hnext : next.readOk = true) :
    ((EarlyLoader.checkAbmode env (EarlyLoader.initAbmode env l)).1 = .slot s ∧
        (UBootSlots.getCurrentSlot next l.misc).1 = .slot s) ↔
      (UBootSlots.isValidBootctrl m = true → (m.slotInfo s).verityCorrupted = 0) := by
  rw [setActiveSlot_stored u i s m hi hstored hset] at hmisc
  by_cases hv : UBootSlots.isValidBootctrl m = true
  · rw [if_pos hv] at hmisc
    have hvalid : UBootSlots.isValidBootctrl l.misc = true := by
      rw [hmisc, isValidBootctrl_activate]
      exact hv
    rw [early_eq_choose env l hexist hread hvalid hflag, uboot_eq_choose next l.misc hnext hvalid,
      choose_eq_slot_iff, choose_eq_slot_iff, hmisc, selectSlot_activate, bootable_activate,
      slotIsBootable_activate]
    simp [hv]
  · rw [if_neg hv] at hmisc
    have hvalid : UBootSlots.isValidBootctrl l.misc = true := by
      rw [hmisc]
      rfl
    rw [early_eq_choose env l hexist hread hvalid hflag, uboot_eq_choose next l.misc hnext hvalid,
      choose_eq_slot_iff, choose_eq_slot_iff, hmisc, selectSlot_defaultBootctrl]
    have he : EarlyLoader.bootable ((defaultBootctrl s).slotInfo s) = true := by
      cases s <;> decide
    have hu : UBootSlots.slotIsBootable ((defaultBootctrl s).slotInfo s) = true := by
      cases s <;> decide
    simp [hv, he, hu]

theorem activation_effective_default :
    (EarlyLoader.checkAbmode earlyEnv (EarlyLoader.initAbmode earlyEnv
        (loaderWith (UBootSlots.setActiveSlot ubootEnv 1 (defaultBootctrl .a)).2))).1 = .slot .b ∧
      (UBootSlots.getCurrentSlot ubootEnv
        (UBootSlots.setActiveSlot ubootEnv 1 (defaultBootctrl .a)).2).1 = .slot .b :=
  (activation_effective_iff ubootEnv 1 .b (defaultBootctrl .a) rfl rfl (by decide) earlyEnv
    (loaderWith (UBootSlots.setActiveSlot ubootEnv 1 (defaultBootctrl .a)).2) rfl
    (by decide) rfl (by decide) ubootEnv rfl).mpr (fun _ => by decide)

theorem activation_ignored_corrupted :
    (UBootSlots.setActiveSlot ubootEnv 0 corruptedPreferred).1 = true ∧
    ubootEnv.write = .stored ∧
    (EarlyLoader.checkAbmode earlyEnv (EarlyLoader.initAbmode earlyEnv
      (loaderWith (UBootSlots.setActiveSlot ubootEnv 0 corruptedPreferred).2))).1 ≠ .slot .a := by
  decide

end SynaBoot.SlotActivation
