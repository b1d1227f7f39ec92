import SynaBoot.SlotAgreement

namespace SynaBoot.VerityFallback

open SynaBoot.BootControl SynaBoot.EarlyLoader SynaBoot.SlotAgreement

def boot (env : Env) (l : Loader) : BootSel × Loader := checkAbmode env (initAbmode env l)

def boots (l : Loader) : List Env → Loader
  | [] => l
  | env :: envs => boots (boot env l).2 envs

def reported (env : Env) (l : Loader) (s : Slot) : BootCtrl :=
  if l.devinfoExist = true ∧ env.writeOk = true then setVerityCorrupted l.misc s else l.misc

theorem initAbmode_read (env : Env) (l : Loader) (hexist : bootctrlIsExist l = true)
    (hread : env.readOk = true) : initAbmode env l = { l with miscBctrl := l.misc } := by
  simp [initAbmode, hexist, hread]

theorem bootctrlIsValid_eq (l : Loader) (hexist : bootctrlIsExist l = true)
    (hvalid : UBootSlots.isValidBootctrl l.miscBctrl = true) : bootctrlIsValid l = true := by
  unfold bootctrlIsValid
  rw [Bool.and_eq_true]
  exact ⟨hexist, hvalid⟩

theorem boot_quiet (env : Env) (l : Loader) (hexist : bootctrlIsExist l = true)
    (hread : env.readOk = true) (hvalid : UBootSlots.isValidBootctrl l.misc = true)
    (hflag : l.rebootMode ≠ rebootModeDeviceCorrupted) :
    ∃ sel, (boot env l).2 = { l with miscBctrl := l.misc, bootAbSel := sel } := by
  have hv := bootctrlIsValid_eq { l with miscBctrl := l.misc } hexist hvalid
  unfold boot
  rw [initAbmode_read env l hexist hread]
  obtain ⟨s, -, h⟩ | h := checkAbmode_valid env { l with miscBctrl := l.misc } hv hflag
  · exact ⟨_, by rw [h]⟩
  · exact ⟨_, by rw [h]⟩

theorem boots_quiet (envs : List Env) (l : Loader) (hexist : bootctrlIsExist l = true)
    (hread : ∀ env ∈ envs, env.readOk = true) (hvalid : UBootSlots.isValidBootctrl l.misc = true)
    (hflag : l.rebootMode ≠ rebootModeDeviceCorrupted) :
    ∃ m sel, boots l envs = { l with miscBctrl := m, bootAbSel := sel } := by
  induction envs generalizing l with
  | nil => exact ⟨l.miscBctrl, l.bootAbSel, rfl⟩
  | cons env envs ih =>
    obtain ⟨sel, h⟩ := boot_quiet env l hexist (hread env (by simp)) hvalid hflag
    obtain ⟨m, sel', h'⟩ := ih (boot env l).2 (by rw [h]; exact hexist)
      (fun e he => hread e (by simp [he])) (by rw [h]; exact hvalid) (by rw [h]; exact hflag)
    refine ⟨m, sel', ?_⟩
    rw [boots, h', h]

theorem checkAbmode_both (env : Env) (l : Loader) (hvalid : bootctrlIsValid l = true)
    (hboth : ∀ t, slotIsBootable l t = true) :
    checkAbmode env l =
      ((checkDmverityDeviceCorrupted env (.slot (bootabSlotSelect l)) l).1,
        { (checkDmverityDeviceCorrupted env (.slot (bootabSlotSelect l)) l).2 with
          bootAbSel := (checkDmverityDeviceCorrupted env (.slot (bootabSlotSelect l)) l).1 }) := by
  unfold checkAbmode checkAndroidAbcommand
  simp only [hvalid, hboth, if_true, Bool.and_self]

theorem checkDmverity_reported (env : Env) (s : Slot) (l : Loader) (hsm : env.configSm = true)
    (hflag : l.rebootMode = rebootModeDeviceCorrupted) (hother : slotIsBootable l s.other = true) :
    checkDmverityDeviceCorrupted env (.slot s) l = (.slot s.other,
      { (if l.devinfoExist = true then
          (writeBootctrlMetadata env { l with miscBctrl := setVerityCorrupted l.miscBctrl s }).2
        else l) with rebootMode := rebootModeNormal }) := by
  have hfinal : (if BootSel.slot s = .slot .a then Slot.b else .a) = s.other := by
    cases s <;> rfl
  unfold checkDmverityDeviceCorrupted
  simp only [hsm, hflag, hfinal, hother, beq_self_eq_true, Bool.and_self, if_true]
  cases l.devinfoExist <;> rfl

theorem writeBootctrlMetadata_eq (env : Env) (l : Loader) (hexist : bootctrlIsExist l = true) :
    (writeBootctrlMetadata env l).2 =
      { l with misc := if env.writeOk = true then l.miscBctrl else l.misc } := by
  unfold writeBootctrlMetadata
  rw [if_pos hexist]
  cases env.writeOk <;> rfl

theorem boot_reported (env : Env) (l : Loader) (s : Slot) (hexist : bootctrlIsExist l = true)
    (hread : env.readOk = true) (hvalid : UBootSlots.isValidBootctrl l.misc = true)
    (hboth : ∀ t, bootable (l.misc.slotInfo t) = true)
    (hflag : l.rebootMode = rebootModeDeviceCorrupted)
    (hselected : UBootSlots.selectSlot l.misc = s) (hswitch : (boot env l).1 = .slot s.other) :
    (boot env l).2.misc = reported env l s ∧ bootctrlIsExist (boot env l).2 = true ∧
      (boot env l).2.rebootMode = rebootModeNormal := by
  have hb : ∀ t, slotIsBootable { l with miscBctrl := l.misc } t = true := by
    intro t
    unfold slotIsBootable
    rw [Bool.and_eq_true]
    exact ⟨hexist, hboth t⟩
  have hsel : bootabSlotSelect { l with miscBctrl := l.misc } = s :=
    (bootabSlotSelect_eq { l with miscBctrl := l.misc } hexist).trans hselected
  have hcheck := checkAbmode_both env { l with miscBctrl := l.misc }
    (bootctrlIsValid_eq { l with miscBctrl := l.misc } hexist hvalid) hb
  rw [hsel] at hcheck
  unfold boot at hswitch ⊢
  rw [initAbmode_read env l hexist hread] at hswitch ⊢
  have hsm : env.configSm = true := by
    by_contra hsm
    have hskip : checkDmverityDeviceCorrupted env (.slot s) { l with miscBctrl := l.misc } =
        (.slot s, { l with miscBctrl := l.misc }) := by
      unfold checkDmverityDeviceCorrupted
      rw [if_neg (by simp [hsm])]
    rw [hcheck, hskip] at hswitch
    cases s <;> cases hswitch
  rw [hcheck, checkDmverity_reported env s { l with miscBctrl := l.misc } hsm hflag (hb s.other)]
  unfold reported
  by_cases hd : l.devinfoExist = true
  · dsimp only
    rw [if_pos hd, writeBootctrlMetadata_eq env
      { l with miscBctrl := setVerityCorrupted l.misc s } hexist]
    refine ⟨?_, hexist, rfl⟩
    simp only [hd, true_and]
  · dsimp only
    rw [if_neg hd]
    refine ⟨?_, hexist, rfl⟩
    rw [if_neg (fun h => hd h.1)]

theorem isValidBootctrl_reported (env : Env) (l : Loader) (s : Slot)
    (hvalid : UBootSlots.isValidBootctrl l.misc = true) :
    UBootSlots.isValidBootctrl (reported env l s) = true := by
  unfold reported
  split <;> exact hvalid

theorem choose_reported (env : Env) (l : Loader) (s : Slot)
    (hboth : ∀ t, bootable (l.misc.slotInfo t) = true)
    (hselected : UBootSlots.selectSlot l.misc = s) :
    choose (fun t => bootable ((reported env l s).slotInfo t))
        (UBootSlots.selectSlot (reported env l s)) ≠ .slot s ↔
      l.devinfoExist = true ∧ env.writeOk = true := by
  rw [ne_eq, choose_eq_slot_iff]
  unfold reported
  by_cases h : l.devinfoExist = true ∧ env.writeOk = true
  · rw [if_pos h]
    refine iff_of_true (fun hc => ?_) h
    have hmark : bootable ((setVerityCorrupted l.misc s).slotInfo s) = false := by
      simp [setVerityCorrupted, setSlot_self, bootable]
    rw [hmark] at hc
    exact Bool.false_ne_true hc.1
  · rw [if_neg h]
    exact iff_of_false (fun hc => hc ⟨hboth s, fun _ => hselected⟩) h

/-- A reported slot stays avoided exactly when devinfo exists and the metadata were written. -/
theorem fallback_sticks_iff (env : Env) (l : Loader) (s : Slot) (hexist : bootctrlIsExist l = true)
    (hread : env.readOk = true) (hvalid : UBootSlots.isValidBootctrl l.misc = true)
    (hboth : ∀ t, bootable (l.misc.slotInfo t) = true)
    (hflag : l.rebootMode = rebootModeDeviceCorrupted)
    (hselected : UBootSlots.selectSlot l.misc = s) (hswitch : (boot env l).1 = .slot s.other) :
    (∀ (envs : List Env) (next : Env), (∀ e ∈ envs, e.readOk = true) → next.readOk = true →
        (boot next (boots (boot env l).2 envs)).1 ≠ .slot s) ↔
      l.devinfoExist = true ∧ env.writeOk = true := by
  obtain ⟨hmisc, hexist', hnormal⟩ :=
    boot_reported env l s hexist hread hvalid hboth hflag hselected hswitch
  have hflag' : (boot env l).2.rebootMode ≠ rebootModeDeviceCorrupted := by
    rw [hnormal]
    decide
  have hvalid' : UBootSlots.isValidBootctrl (boot env l).2.misc = true := by
    rw [hmisc]
    exact isValidBootctrl_reported env l s hvalid
  -- every later boot reads the same metadata, so all of them select alike
  have hlater : ∀ (envs : List Env) (next : Env), (∀ e ∈ envs, e.readOk = true) →
      next.readOk = true → (boot next (boots (boot env l).2 envs)).1 =
        choose (fun t => bootable ((reported env l s).slotInfo t))
          (UBootSlots.selectSlot (reported env l s)) := by
    intro envs next henvs hnext
    obtain ⟨m, sel, h⟩ := boots_quiet envs (boot env l).2 hexist' henvs hvalid' hflag'
    rw [h, ← hmisc]
    exact early_eq_choose next { (boot env l).2 with miscBctrl := m, bootAbSel := sel } hexist'
      hnext hvalid' hflag'
  rw [← choose_reported env l s hboth hselected]
  constructor
  · intro h hc
    refine h [] env (fun e he => absurd he List.not_mem_nil) hread ?_
    rw [hlater [] env (fun e he => absurd he List.not_mem_nil) hread]
    exact hc
  · intro h envs next henvs hnext
    rw [hlater envs next henvs hnext]
    exact h

def corruptedLoader (devinfo : Bool) : Loader where
  devinfoExist := devinfo
  miscExist := true
  miscBctrl := defaultBootctrl .a
  misc := defaultBootctrl .a
  rebootMode := rebootModeDeviceCorrupted
  bootAbSel := .slot .a

theorem fallback_sticks_devinfo :
    (boot earlyEnv (boots (boot earlyEnv (corruptedLoader true)).2 [earlyEnv, earlyEnv])).1 ≠
      .slot .a :=
  (fallback_sticks_iff earlyEnv (corruptedLoader true) .a rfl rfl (by decide)
    (fun t => by cases t <;> decide) rfl (by decide) (by decide)).mpr ⟨rfl, rfl⟩
    [earlyEnv, earlyEnv] earlyEnv (by decide) rfl

theorem fallback_forgotten_without_devinfo :
    bootctrlIsExist (corruptedLoader false) = true ∧
      UBootSlots.isValidBootctrl (corruptedLoader false).misc = true ∧
      bootable ((corruptedLoader false).misc.slotInfo .a) = true ∧
      bootable ((corruptedLoader false).misc.slotInfo .b) = true ∧
      (corruptedLoader false).rebootMode = rebootModeDeviceCorrupted ∧
      (boot earlyEnv (corruptedLoader false)).1 = .slot .b ∧
      (boot earlyEnv (boot earlyEnv (corruptedLoader false)).2).1 = .slot .a := by
  decide

end SynaBoot.VerityFallback
