import SynaBoot.SlotRollback
import SynaBoot.UBootSlots

namespace SynaBoot.SlotDemotion

open SynaBoot.BootControl SynaBoot.UBootSlots
open SynaBoot.SlotRollback (charged slotRank Below charged_lowers)

def round (env : Env) (misc : BootCtrl) : BootCtrl :=
  match getCurrentSlot env misc with
  | (.slot s, misc) => (tryAbmode env s misc).2
  | (.invalid, misc) => misc

def rank (m : BootCtrl) : Nat := slotRank (m.slotInfo .a) + slotRank (m.slotInfo .b)

def charge (m : BootCtrl) (s : Slot) : BootCtrl :=
  { m with slotInfo := Function.update m.slotInfo s (charged (m.slotInfo s)) }

/-- Steps of 2 bring the priority to zero, or it stops at its last try. -/
def Bounded (m : SlotMetadata) : Prop := m.successfulBoot = 0 ∨ 2 ∣ m.priority.toNat

instance (m : SlotMetadata) : Decidable (Bounded m) := inferInstanceAs (Decidable (_ ∨ _))

structure Demotes (env : Env) (m : BootCtrl) : Prop where
  selected : ∀ s, (getCurrentSlot env m).1 = .slot s →
    Below ((tryAbmode env s m).2.slotInfo s) (m.slotInfo s) ∧
      (tryAbmode env s m).2.slotInfo s.other = m.slotInfo s.other
  ends : ∃ k, ∀ s, slotIsBootable (((round env)^[k] m).slotInfo s) = false

variable {env : Env} {m : BootCtrl}

@[simp]
theorem charge_self (m : BootCtrl) (s : Slot) : (charge m s).slotInfo s = charged (m.slotInfo s) :=
  Function.update_self ..

theorem charge_of_ne (m : BootCtrl) {s t : Slot} (h : t ≠ s) :
    (charge m s).slotInfo t = m.slotInfo t :=
  Function.update_of_ne h ..

theorem other_ne (s : Slot) : s.other ≠ s := by
  cases s <;> decide

theorem charged_successfulBoot (m : SlotMetadata) :
    (charged m).successfulBoot = m.successfulBoot := by
  unfold charged
  split <;> rfl

theorem even_sub_two (p : UInt8) : 2 ∣ (p - 2).toNat ↔ 2 ∣ p.toNat := by
  have h := p.toNat_lt
  rw [UInt8.toNat_sub]
  have h2 : (2 : UInt8).toNat = 2 := rfl
  rw [h2]
  omega

theorem charged_even (m : SlotMetadata) :
    2 ∣ (charged m).priority.toNat ↔ 2 ∣ m.priority.toNat := by
  unfold charged
  split
  · rfl
  · exact even_sub_two m.priority

theorem charged_bounded (m : SlotMetadata) : Bounded (charged m) ↔ Bounded m := by
  unfold Bounded
  rw [charged_successfulBoot, charged_even]

theorem charged_falls (m : SlotMetadata) (hboot : slotIsBootable m = true) (hb : Bounded m) :
    slotRank (charged m) + 1 = slotRank m ∧ Below (charged m) m := by
  simp only [slotIsBootable, Bool.and_eq_true, decide_eq_true_eq, Bool.or_eq_true, bne_iff_ne,
    ne_eq] at hboot
  obtain ⟨hprio, htry⟩ := hboot
  have hp : 0 < m.priority.toNat := UInt8.lt_iff_toNat_lt.mp hprio
  refine charged_lowers m fun ht => ?_
  have heven : 2 ∣ m.priority.toNat := hb.resolve_left (htry.resolve_right ht)
  omega

theorem charged_odd_bootable (m : SlotMetadata) (hs : m.successfulBoot ≠ 0)
    (hodd : ¬2 ∣ m.priority.toNat) :
    slotIsBootable m = true ∧ (charged m).successfulBoot ≠ 0 ∧ ¬2 ∣ (charged m).priority.toNat := by
  refine ⟨?_, ?_, ?_⟩
  · have hp : 0 < m.priority.toNat := by omega
    simp only [slotIsBootable, Bool.and_eq_true, decide_eq_true_eq, Bool.or_eq_true, bne_iff_ne]
    exact ⟨UInt8.lt_iff_toNat_lt.mpr hp, .inl hs⟩
  · rw [charged_successfulBoot]
    exact hs
  · rw [charged_even]
    exact hodd

section Working

variable (hr : env.readOk = true) (hw : env.write = .stored)

include hr hw in
theorem tryAbmode_eq (hv : isValidBootctrl m = true) (s : Slot) :
    (tryAbmode env s m).2 = charge m s := by
  unfold tryAbmode getBootctrlMetadata writeBootctrlMetadata charge charged
  simp only [hr, hw, hv, if_true, Bool.true_and, decide_eq_true_eq]
  split <;> rfl

include hr in
theorem getCurrentSlot_cases (hv : isValidBootctrl m = true) :
    (∃ s, slotIsBootable (m.slotInfo s) = true ∧ getCurrentSlot env m = (.slot s, m)) ∨
      (∀ s, slotIsBootable (m.slotInfo s) = false) ∧ getCurrentSlot env m = (.invalid, m) := by
  unfold getCurrentSlot getBootctrlMetadata
  simp only [hr, hv, if_true]
  cases ha : slotIsBootable (m.slotInfo .a) with
  | true =>
    left
    cases hb : slotIsBootable (m.slotInfo .b) with
    | true =>
      refine ⟨selectSlot m, ?_, rfl⟩
      cases selectSlot m with
      | a => exact ha
      | b => exact hb
    | false => exact ⟨.a, ha, rfl⟩
  | false =>
    cases hb : slotIsBootable (m.slotInfo .b) with
    | true => exact .inl ⟨.b, hb, rfl⟩
    | false =>
      refine .inr ⟨fun s => ?_, rfl⟩
      cases s with
      | a => exact ha
      | b => exact hb

include hr hw in
theorem round_cases (hv : isValidBootctrl m = true) :
    (∃ s, slotIsBootable (m.slotInfo s) = true ∧ round env m = charge m s) ∨
      (∀ s, slotIsBootable (m.slotInfo s) = false) ∧ round env m = m := by
  unfold round
  obtain ⟨s, hs, heq⟩ | ⟨hn, heq⟩ := getCurrentSlot_cases hr hv
  · rw [heq]
    exact .inl ⟨s, hs, tryAbmode_eq hr hw hv s⟩
  · rw [heq]
    exact .inr ⟨hn, rfl⟩

theorem charge_bounded (s : Slot) (hb : ∀ t, Bounded (m.slotInfo t)) (t : Slot) :
    Bounded ((charge m s).slotInfo t) := by
  by_cases hts : t = s
  · subst hts
    rw [charge_self, charged_bounded]
    exact hb t
  · rw [charge_of_ne m hts]
    exact hb t

theorem rank_charge (s : Slot) (hs : slotIsBootable (m.slotInfo s) = true)
    (hb : Bounded (m.slotInfo s)) : rank (charge m s) + 1 = rank m := by
  have hfall := (charged_falls _ hs hb).1
  have hother := charge_of_ne m (other_ne s)
  unfold rank
  cases s with
  | a =>
    rw [charge_self, show (charge m .a).slotInfo .b = m.slotInfo .b from hother]
    omega
  | b =>
    rw [charge_self, show (charge m .b).slotInfo .a = m.slotInfo .a from hother]
    omega

include hr hw in
theorem rounds_end (n : Nat) (hv : isValidBootctrl m = true) (hb : ∀ s, Bounded (m.slotInfo s))
    (hn : rank m = n) : ∃ k ≤ n, ∀ s, slotIsBootable (((round env)^[k] m).slotInfo s) = false := by
  induction n generalizing m with
  | zero =>
    obtain ⟨s, hs, -⟩ | ⟨hnone, -⟩ := round_cases hr hw hv
    · have := rank_charge s hs (hb s)
      omega
    · exact ⟨0, le_rfl, hnone⟩
  | succ n ih =>
    obtain ⟨s, hs, heq⟩ | ⟨hnone, -⟩ := round_cases hr hw hv
    · have hrank := rank_charge s hs (hb s)
      obtain ⟨k, hk, hend⟩ := ih (m := charge m s) hv (charge_bounded s hb) (by omega)
      refine ⟨k + 1, by omega, ?_⟩
      rw [Function.iterate_succ_apply, heq]
      exact hend
    · exact ⟨0, Nat.zero_le _, hnone⟩

include hr hw in
theorem rounds_odd (hv : isValidBootctrl m = true) {s : Slot} (hb : ¬Bounded (m.slotInfo s))
    (k : Nat) : slotIsBootable (((round env)^[k] m).slotInfo s) = true := by
  induction k generalizing m with
  | zero =>
    unfold Bounded at hb
    rw [not_or] at hb
    exact (charged_odd_bootable _ hb.1 hb.2).1
  | succ k ih =>
    rw [Function.iterate_succ_apply]
    obtain ⟨t, -, heq⟩ | ⟨-, heq⟩ := round_cases hr hw hv
    · rw [heq]
      refine ih (m := charge m t) hv ?_
      by_cases hst : s = t
      · subst hst
        rw [charge_self, charged_bounded]
        exact hb
      · rw [charge_of_ne m hst]
        exact hb
    · rw [heq]
      exact ih hv hb

end Working

theorem round_stuck (hv : isValidBootctrl m = true)
    (h : ¬(env.readOk = true ∧ env.write = .stored)) : round env m = m := by
  have htry (s : Slot) : (tryAbmode env s m).2 = m := by
    unfold tryAbmode getBootctrlMetadata writeBootctrlMetadata
    cases hr : env.readOk with
    | false => rfl
    | true =>
      cases hw : env.write with
      | stored => exact absurd ⟨hr, hw⟩ h
      | error =>
        simp only [hv, if_true, Bool.true_and]
        split <;> rfl
      | lost =>
        simp only [hv, if_true, Bool.true_and]
        split <;> rfl
  have hcur : (getCurrentSlot env m).2 = m := by
    cases hr : env.readOk with
    | false =>
      unfold getCurrentSlot getBootctrlMetadata
      simp [hr]
    | true =>
      obtain ⟨s, -, heq⟩ | ⟨-, heq⟩ := getCurrentSlot_cases hr hv
      · rw [heq]
      · rw [heq]
  unfold round
  split
  case h_1 s misc heq =>
    rw [heq] at hcur
    subst hcur
    exact htry s
  case h_2 misc heq =>
    rw [heq] at hcur
    exact hcur

theorem rounds_stuck (hv : isValidBootctrl m = true)
    (h : ¬(env.readOk = true ∧ env.write = .stored)) (k : Nat) : (round env)^[k] m = m :=
  Function.iterate_fixed (round_stuck hv h) k

theorem demotes_of_bounded (hr : env.readOk = true) (hw : env.write = .stored)
    (hv : isValidBootctrl m = true) (hb : ∀ s, Bounded (m.slotInfo s)) : Demotes env m where
  selected s hs := by
    rw [tryAbmode_eq hr hw hv, charge_self, charge_of_ne m (other_ne s)]
    refine ⟨?_, rfl⟩
    obtain ⟨t, ht, heq⟩ | ⟨-, heq⟩ := getCurrentSlot_cases hr hv
    · rw [heq] at hs
      obtain rfl := BootSel.slot.inj hs
      exact (charged_falls _ ht (hb t)).2
    · rw [heq] at hs
      cases hs
  ends := by
    obtain ⟨k, -, hk⟩ := rounds_end hr hw _ hv hb rfl
    exact ⟨k, hk⟩

theorem demotes_of_none (hv : isValidBootctrl m = true)
    (hn : ∀ s, slotIsBootable (m.slotInfo s) = false) : Demotes env m where
  selected s hs := by
    cases hr : env.readOk with
    | false =>
      have heq : (tryAbmode env s m).2 = m := by
        unfold tryAbmode getBootctrlMetadata
        rw [hr]
        rfl
      rw [heq]
      exact ⟨⟨le_rfl, le_rfl⟩, rfl⟩
    | true =>
      obtain ⟨t, ht, -⟩ | ⟨-, heq⟩ := getCurrentSlot_cases hr hv
      · rw [hn t] at ht
        cases ht
      · rw [heq] at hs
        cases hs
  ends := ⟨0, hn⟩

/-- Failed loads use up a slot unless it has booted before and its priority is odd. -/
theorem demotes_iff (env : Env) (m : BootCtrl) (hv : isValidBootctrl m = true) :
    Demotes env m ↔ (∀ s, slotIsBootable (m.slotInfo s) = false) ∨
      env.readOk = true ∧ env.write = .stored ∧
        ∀ s, (m.slotInfo s).successfulBoot = 0 ∨ 2 ∣ (m.slotInfo s).priority.toNat := by
  constructor
  · intro h
    obtain ⟨k, hk⟩ := h.ends
    by_cases hwork : env.readOk = true ∧ env.write = .stored
    · refine .inr ⟨hwork.1, hwork.2, fun s => ?_⟩
      by_contra hb
      have hboot := rounds_odd hwork.1 hwork.2 hv hb k
      rw [hk s] at hboot
      cases hboot
    · rw [rounds_stuck hv hwork] at hk
      exact .inl hk
  · rintro (hn | ⟨hr, hw, hb⟩)
    · exact demotes_of_none hv hn
    · exact demotes_of_bounded hr hw hv hb

def workingEnv : Env := ⟨true, .stored, .invalid⟩

theorem default_demotes : Demotes workingEnv (defaultBootctrl .a) :=
  (demotes_iff workingEnv (defaultBootctrl .a) (by decide)).mpr
    (.inr ⟨rfl, rfl, fun s => .inl (by cases s <;> rfl)⟩)

def lastPriority : BootCtrl :=
  { defaultBootctrl .a with
    slotInfo := fun s => if s = .a then ⟨1, 0, 1, 0, 0⟩ else .zero }

theorem failed_load_promotes : isValidBootctrl lastPriority = true ∧
    (getCurrentSlot workingEnv lastPriority).1 = .slot .a ∧
    (lastPriority.slotInfo .a).priority = 1 ∧
    ((tryAbmode workingEnv .a lastPriority).2.slotInfo .a).priority = 255 ∧
    ∀ k, slotIsBootable (((round workingEnv)^[k] lastPriority).slotInfo .a) = true := by
  refine ⟨by decide, by decide, rfl, by decide, fun k => ?_⟩
  exact rounds_odd rfl rfl (by decide) (by decide) k

end SynaBoot.SlotDemotion
