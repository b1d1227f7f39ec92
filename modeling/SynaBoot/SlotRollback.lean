import SynaBoot.SlotAgreement

namespace SynaBoot.SlotRollback

open SynaBoot.BootControl SynaBoot.EarlyLoader SynaBoot.SlotAgreement

/-- A slot is selected and then charged for the attempt. -/
def attempt (env : Env) (l : Loader) : Loader :=
  match checkAbmode env l with
  | (.slot s, l) => (tryAbmode env s l).2
  | (.invalid, l) => l

def charged (m : SlotMetadata) : SlotMetadata :=
  if 0 < m.triesRemaining then { m with triesRemaining := m.triesRemaining - 1 }
  else { m with priority := m.priority - 2 }

def slotRank (m : SlotMetadata) : Nat := m.triesRemaining.toNat + (m.priority.toNat + 1) / 2

def rank (l : Loader) : Nat := slotRank (l.miscBctrl.slotInfo .a) + slotRank (l.miscBctrl.slotInfo .b)

def Below (m n : SlotMetadata) : Prop :=
  m.priority.toNat ≤ n.priority.toNat ∧ m.triesRemaining.toNat ≤ n.triesRemaining.toNat

theorem priority_of_bootable (m : SlotMetadata) (h : bootable m = true) : 1 < m.priority.toNat := by
  simp only [bootable, Bool.and_eq_true, decide_eq_true_eq] at h
  exact UInt8.lt_iff_toNat_lt.mp h.1.1

theorem charged_lowers (m : SlotMetadata) (h : ¬ 0 < m.triesRemaining → 2 ≤ m.priority.toNat) :
    slotRank (charged m) + 1 = slotRank m ∧ Below (charged m) m := by
  unfold charged Below slotRank
  split
  case isTrue ht =>
    have ht' : 1 ≤ m.triesRemaining.toNat := UInt8.lt_iff_toNat_lt.mp ht
    have hsub : (m.triesRemaining - 1).toNat = m.triesRemaining.toNat - 1 :=
      UInt8.toNat_sub_of_le _ _ (UInt8.le_iff_toNat_le.mpr ht')
    simp only [hsub]
    omega
  case isFalse ht =>
    have hp := h ht
    have hsub : (m.priority - 2).toNat = m.priority.toNat - 2 :=
      UInt8.toNat_sub_of_le _ _ (UInt8.le_iff_toNat_le.mpr hp)
    simp only [hsub]
    omega

theorem charged_of_bootable (m : SlotMetadata) (h : bootable m = true) :
    slotRank (charged m) + 1 = slotRank m ∧ Below (charged m) m :=
  charged_lowers m fun _ => priority_of_bootable m h

theorem writeBootctrlMetadata_frame (env : Env) (l : Loader) :
    ∃ misc, (writeBootctrlMetadata env l).2 = { l with misc := misc } := by
  unfold writeBootctrlMetadata
  split
  · split
    · exact ⟨_, rfl⟩
    · exact ⟨l.misc, rfl⟩
  · exact ⟨l.misc, rfl⟩

theorem tryAbmode_eq (env : Env) (s : Slot) (l : Loader) (hvalid : bootctrlIsValid l = true) :
    ∃ misc, (tryAbmode env s l).2 = { l with
      miscBctrl := setSlot l.miscBctrl s (charged (l.miscBctrl.slotInfo s)), misc := misc } := by
  have hexist : bootctrlIsExist l = true := by
    simp only [bootctrlIsValid, Bool.and_eq_true] at hvalid
    exact hvalid.1
  unfold tryAbmode charged
  simp only [hexist, hvalid, if_true, Bool.true_and, decide_eq_true_eq]
  split
  · exact writeBootctrlMetadata_frame env _
  · exact writeBootctrlMetadata_frame env _

theorem attempt_cases (env : Env) (l : Loader) (hvalid : bootctrlIsValid l = true)
    (hflag : l.rebootMode ≠ rebootModeDeviceCorrupted) :
    ((checkAbmode env l).1 = .invalid ∧ attempt env l = { l with bootAbSel := .invalid }) ∨
      ∃ s misc, bootable (l.miscBctrl.slotInfo s) = true ∧ attempt env l = { l with
        miscBctrl := setSlot l.miscBctrl s (charged (l.miscBctrl.slotInfo s)), misc := misc,
        bootAbSel := .slot s } := by
  obtain ⟨s, hs, hcheck⟩ | hcheck := checkAbmode_valid env l hvalid hflag
  · right
    obtain ⟨misc, htry⟩ := tryAbmode_eq env s { l with bootAbSel := .slot s } hvalid
    simp only [slotIsBootable, Bool.and_eq_true] at hs
    refine ⟨s, misc, hs.2, ?_⟩
    unfold attempt
    rw [hcheck]
    exact htry
  · left
    refine ⟨by rw [hcheck], ?_⟩
    unfold attempt
    rw [hcheck]

theorem below_refl (m : SlotMetadata) : Below m m := ⟨le_rfl, le_rfl⟩

theorem below_charged (m : BootCtrl) (s t : Slot) (h : bootable (m.slotInfo s) = true) :
    Below ((setSlot m s (charged (m.slotInfo s))).slotInfo t) (m.slotInfo t) := by
  by_cases hts : t = s
  · subst hts
    rw [setSlot_self]
    exact (charged_of_bootable _ h).2
  · rw [setSlot_of_ne _ _ _ _ hts]
    exact below_refl _

theorem rank_charged (l : Loader) (s : Slot) (misc : BootCtrl) (sel : BootSel)
    (h : bootable (l.miscBctrl.slotInfo s) = true) :
    rank { l with
      miscBctrl := setSlot l.miscBctrl s (charged (l.miscBctrl.slotInfo s)), misc := misc,
      bootAbSel := sel } + 1 = rank l := by
  have hc := (charged_of_bootable _ h).1
  cases s with
  | a =>
    simp only [rank, setSlot_self, setSlot_of_ne _ .a .b _ nofun]
    omega
  | b =>
    simp only [rank, setSlot_self, setSlot_of_ne _ .b .a _ nofun]
    omega

def Quiet (l : Loader) : Prop :=
  bootctrlIsValid l = true ∧ l.rebootMode ≠ rebootModeDeviceCorrupted

theorem attempt_quiet (env : Env) (l : Loader) (h : Quiet l) : Quiet (attempt env l) := by
  obtain ⟨_, heq⟩ | ⟨s, misc, _, heq⟩ := attempt_cases env l h.1 h.2
  · rw [heq]
    exact h
  · rw [heq]
    exact h

theorem attempt_below (env : Env) (l : Loader) (h : Quiet l) (t : Slot) :
    Below ((attempt env l).miscBctrl.slotInfo t) (l.miscBctrl.slotInfo t) := by
  obtain ⟨_, heq⟩ | ⟨s, misc, hs, heq⟩ := attempt_cases env l h.1 h.2
  · rw [heq]
    exact below_refl _
  · rw [heq]
    exact below_charged l.miscBctrl s t hs

theorem attempts_quiet (env : Env) (l : Loader) (h : Quiet l) (k : Nat) :
    Quiet ((attempt env)^[k] l) := by
  induction k with
  | zero => exact h
  | succ k ih =>
    rw [Function.iterate_succ_apply']
    exact attempt_quiet env _ ih

theorem attempts_reach_invalid (env : Env) (n : Nat) (l : Loader) (h : Quiet l) (hn : rank l = n) :
    ∃ k ≤ n, (checkAbmode env ((attempt env)^[k] l)).1 = .invalid := by
  induction n generalizing l with
  | zero =>
    obtain ⟨hinv, _⟩ | ⟨s, misc, hs, _⟩ := attempt_cases env l h.1 h.2
    · exact ⟨0, le_rfl, hinv⟩
    · have hc := rank_charged l s misc .invalid hs
      omega
  | succ n ih =>
    obtain ⟨hinv, _⟩ | ⟨s, misc, hs, heq⟩ := attempt_cases env l h.1 h.2
    · exact ⟨0, Nat.zero_le _, hinv⟩
    · have hc := rank_charged l s misc (.slot s) hs
      rw [← heq] at hc
      obtain ⟨k, hk, hinv⟩ := ih (attempt env l) (attempt_quiet env l h) (by omega)
      exact ⟨k + 1, by omega, hinv⟩

/-- Attempts that never succeed use up both slots within a bound. -/
theorem rollback_bounded (env : Env) (l : Loader) (hvalid : bootctrlIsValid l = true)
    (hflag : l.rebootMode ≠ rebootModeDeviceCorrupted) :
    (∃ k ≤ (l.miscBctrl.slotInfo .a).triesRemaining.toNat +
        (l.miscBctrl.slotInfo .b).triesRemaining.toNat +
        ((l.miscBctrl.slotInfo .a).priority.toNat + 1) / 2 +
        ((l.miscBctrl.slotInfo .b).priority.toNat + 1) / 2,
      (checkAbmode env ((attempt env)^[k] l)).1 = .invalid) ∧
    ∀ k s, Below (((attempt env)^[k + 1] l).miscBctrl.slotInfo s)
      (((attempt env)^[k] l).miscBctrl.slotInfo s) := by
  constructor
  · obtain ⟨k, hk, hinv⟩ := attempts_reach_invalid env (rank l) l ⟨hvalid, hflag⟩ rfl
    refine ⟨k, ?_, hinv⟩
    simp only [rank, slotRank] at hk
    omega
  · intro k s
    rw [Function.iterate_succ_apply']
    exact attempt_below env _ (attempts_quiet env l ⟨hvalid, hflag⟩ k) s

theorem rollback_bounded_default :
    ∃ k ≤ 10, (checkAbmode earlyEnv
      ((attempt earlyEnv)^[k] (initAbmode earlyEnv (loaderWith (defaultBootctrl .a))))).1 = .invalid :=
  (rollback_bounded earlyEnv (initAbmode earlyEnv (loaderWith (defaultBootctrl .a)))
    (by decide) (by decide)).1

end SynaBoot.SlotRollback
