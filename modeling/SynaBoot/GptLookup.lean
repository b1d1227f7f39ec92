import SynaBoot.Emmcburn

namespace SynaBoot.GptLookup

open SynaBoot.CText SynaBoot.Emmcburn

variable {hw : Nat → Option HwPart} {b : Burner}

def table (hw : Nat → Option HwPart) (part : Nat) : List GptEntry :=
  ((hw part).bind HwPart.gpt).getD []

def inUse (hw : Nat → Option HwPart) (part : Nat) : List GptEntry :=
  (table hw part).filter GptEntry.used

inductive Target where
  | sd (n : Nat)
  | gp (m : Fin 4) (sep : Char) (n : Nat)

def Target.name : Target → List Char
  | .sd n => 's' :: 'd' :: Nat.toDigits 10 n
  | .gp m sep n => 'g' :: 'p' :: Nat.digitChar (m + 1) :: sep :: Nat.toDigits 10 n

def Target.part : Target → Nat
  | .sd _ => emmcPartUser
  | .gp m _ _ => 4 + m

def Target.index : Target → Nat
  | .sd n | .gp _ _ n => n

def nth (n : Nat) (es : List GptEntry) : Option GptEntry := if n = 0 then none else es[n - 1]?

def answer (miss : Info) (part : Nat) : Option GptEntry → Info
  | none => miss
  | some e => .found part e.startingLba e.cnt e.name

def expected (hw : Nat → Option HwPart) (t : Target) : Info :=
  answer .failed t.part (nth t.index (inUse hw t.part))

/-- What does not fit into the table is not in use. -/
def Room (hw : Nat → Option HwPart) : Nat → List Nat → Prop
  | _, [] => True
  | k, p :: ps => (∀ e ∈ (table hw p).drop (maxGptPtNum - k), e.used = false) ∧
      Room hw (k + (inUse hw p).length) ps

def decideRoom (hw : Nat → Option HwPart) :
    ∀ (k : Nat) (parts : List Nat), Decidable (Room hw k parts)
  | _, [] => isTrue trivial
  | k, p :: ps => @instDecidableAnd _ _ (List.decidableBAll _ _)
      (decideRoom hw (k + (inUse hw p).length) ps)

instance (hw : Nat → Option HwPart) (k : Nat) (parts : List Nat) : Decidable (Room hw k parts) :=
  decideRoom hw k parts

theorem inUse_eq_take {n p : Nat} (h : ∀ e ∈ (table hw p).drop n, e.used = false) :
    inUse hw p = ((table hw p).take n).filter GptEntry.used := by
  have hdrop := List.filter_eq_nil_iff.mpr fun e he => Bool.eq_false_iff.mp (h e he)
  unfold inUse
  conv_lhs => rw [← List.take_append_drop n (table hw p), List.filter_append, hdrop]
  exact List.append_nil _

theorem readPart_entries {cache : GptCache} {p : Nat}
    (h : ∀ e ∈ (table hw p).drop (maxGptPtNum - cache.entries.length), e.used = false) :
    (readPartGptPartitionInfo hw cache p).entries =
      cache.entries ++ (inUse hw p).map (p, ·) := by
  rw [inUse_eq_take h]
  unfold readPartGptPartitionInfo table
  cases (hw p).bind HwPart.gpt with
  | none => simp
  | some es => rfl

variable {parts : List Nat}

theorem foldl_entries {cache : GptCache} (h : Room hw cache.entries.length parts) :
    (parts.foldl (readPartGptPartitionInfo hw) cache).entries =
      cache.entries ++ parts.flatMap fun p => (inUse hw p).map (p, ·) := by
  induction parts generalizing cache with
  | nil => simp
  | cons p ps ih =>
    have hp := readPart_entries h.1
    rw [List.foldl_cons, ih, hp, List.append_assoc, List.flatMap_cons]
    rw [hp, List.length_append, List.length_map]
    exact h.2

theorem filter_flatMap {α : Type} (f : Nat → List α) (p : Nat) (hnd : parts.Nodup) :
    (parts.flatMap fun q => (f q).map (q, ·)).filter (fun e => e.1 = p) =
      if p ∈ parts then (f p).map (p, ·) else [] := by
  induction parts with
  | nil => rfl
  | cons q qs ih =>
    rw [List.nodup_cons] at hnd
    rw [List.flatMap_cons, List.filter_append, ih hnd.2]
    by_cases hq : q = p
    · subst hq
      rw [if_neg hnd.1, if_pos List.mem_cons_self, List.append_nil]
      exact List.filter_eq_self.mpr fun e he => by
        obtain ⟨a, -, rfl⟩ := List.mem_map.mp he
        exact decide_eq_true rfl
    · have hnil : ((f q).map (q, ·)).filter (fun e => e.1 = p) = [] :=
        List.filter_eq_nil_iff.mpr fun e he => by
          obtain ⟨a, -, rfl⟩ := List.mem_map.mp he
          exact fun h => hq (of_decide_eq_true h)
      rw [hnil, List.nil_append]
      simp only [List.mem_cons, Ne.symm hq, false_or]

theorem getPartitionNum_spec (part index j : Nat) (pre es : List (Nat × GptEntry)) :
    ((getPartitionNum part index pre.length j es).bind fun i => (pre ++ es)[i]?) =
      if index ≤ j then none else (es.filter fun e => e.1 = part)[index - j - 1]? := by
  induction es generalizing pre j with
  | nil => simp [getPartitionNum]
  | cons e es ih =>
    have hpre : pre ++ e :: es = (pre ++ [e]) ++ es := by simp
    have hlen : pre.length + 1 = (pre ++ [e]).length := by simp
    rw [getPartitionNum]
    by_cases he : e.1 = part
    · have hfil : (e :: es).filter (fun e => e.1 = part) = e :: es.filter fun e => e.1 = part :=
        List.filter_cons_of_pos (decide_eq_true he)
      rw [if_pos he, hfil]
      by_cases hi : index = j + 1
      · subst hi
        rw [if_pos rfl, if_neg (by omega), Nat.add_sub_cancel_left]
        simp
      · rw [if_neg hi, hpre, hlen, ih]
        by_cases hj : index ≤ j
        · rw [if_pos hj, if_pos (by omega)]
        · rw [if_neg hj, if_neg (by omega)]
          obtain ⟨d, rfl⟩ : ∃ d, index = j + 2 + d := ⟨index - j - 2, by omega⟩
          rw [show j + 2 + d - (j + 1) - 1 = d by omega, show j + 2 + d - j - 1 = d + 1 by omega,
            List.getElem?_cons_succ]
    · rw [if_neg he, hpre, hlen, ih, List.filter_cons_of_neg (by simpa using he)]

theorem findEntry_eq (part index : Nat) (cache : GptCache) :
    findEntry part index cache = answer .outOfBounds part
      (nth index ((cache.entries.filter fun e => e.1 = part).map Prod.snd)) := by
  have h := getPartitionNum_spec part index 0 [] cache.entries
  rw [List.length_nil, List.nil_append, Nat.sub_zero] at h
  unfold findEntry nth
  rw [h, List.getElem?_map]
  by_cases hi : index = 0
  · rw [if_pos hi, if_pos (Nat.le_zero.mpr hi)]
    rfl
  · rw [if_neg hi, if_neg (mt Nat.le_zero.mp hi)]
    cases (cache.entries.filter fun e => e.1 = part)[index - 1]? <;> rfl

def gather (hw : Nat → Option HwPart) : GptCache :=
  (gptParts hw).foldl (readPartGptPartitionInfo hw) ⟨[], Nat.zero_le _⟩

def Current (b : Burner) : Prop := b.isGptReady = true → b.cache = gather b.hw

def Fresh (b : Burner) : Event → Prop
  | .lookup _ => b.isGptReady = true ∨ b.cache.entries = []
  | .partImport text => (parsePartAndGenGpt text b).isSome = true
  | .clean _ => True

instance (b : Burner) (e : Event) : Decidable (Fresh b e) :=
  match e with
  | .lookup _ => inferInstanceAs (Decidable (_ ∨ _))
  | .partImport _ => inferInstanceAs (Decidable (_ = _))
  | .clean _ => .isTrue trivial

theorem clean_not_ready (part : Nat) (b : Burner) :
    (cleanMbrGptTable part b).2.isGptReady = false := by
  unfold cleanMbrGptTable
  dsimp only
  split <;> rfl

theorem parseSections_ready {n : Nat} {lines : List (List Char)} {r : Int × Burner}
    (h : parseSections n lines b = some r) : r.2 = b ∨ r.2.isGptReady = false := by
  induction n generalizing lines b with
  | zero =>
    cases h
    exact .inl rfl
  | succ n ih =>
    rw [parseSections] at h
    split at h
    · cases h
      exact .inl rfl
    · next part named _ =>
      have hc := clean_not_ready part b
      generalize cleanMbrGptTable part b = c at h hc
      obtain ⟨ok, b'⟩ := c
      right
      cases ok with
      | false =>
        cases h
        exact hc
      | true =>
        dsimp only at h
        split at h
        · cases h
        · cases h
          exact hc
        · split at h
          · cases h
            exact hc
          · obtain hr | hr := ih h
            · rw [hr]
            · exact hr

theorem import_ready {text : List Char} {r : Int × Burner}
    (h : parsePartAndGenGpt text b = some r) : r.2 = b ∨ r.2.isGptReady = false := by
  unfold parsePartAndGenGpt at h
  dsimp only at h
  split at h
  · cases h
    exact .inl rfl
  · split at h
    · cases h
      exact .inl rfl
    · exact parseSections_ready h

theorem Current.readAll (h : Current b) (hf : b.isGptReady = true ∨ b.cache.entries = []) :
    (readAllGptPartitionInfo b).cache = gather b.hw ∧
      (readAllGptPartitionInfo b).hw = b.hw := by
  unfold readAllGptPartitionInfo
  by_cases hr : b.isGptReady = true
  · rw [if_pos hr]
    exact ⟨h hr, rfl⟩
  · rw [if_neg hr]
    have hc : b.cache = ⟨[], Nat.zero_le _⟩ := GptCache.ext (hf.resolve_left hr)
    refine ⟨?_, rfl⟩
    dsimp only
    rw [hc]
    rfl

theorem Current.step {e : Event} (h : Current b) (hf : Fresh b e) : Current (step e b) := by
  cases e with
  | partImport text =>
    obtain ⟨r, hr⟩ := Option.isSome_iff_exists.mp hf
    have hs : Emmcburn.step (.partImport text) b = r.2 := by
      change ((parsePartAndGenGpt text b).map Prod.snd).getD b = r.2
      rw [hr]
      rfl
    rw [hs]
    obtain hb | hb := import_ready hr
    · rw [hb]
      exact h
    · exact fun hready => absurd (hb.symm.trans hready) Bool.false_ne_true
  | clean part =>
    exact fun hready => absurd ((clean_not_ready part b).symm.trans hready) Bool.false_ne_true
  | lookup name =>
    obtain ⟨hc, hh⟩ := h.readAll hf
    intro _
    exact hc.trans (congrArg gather hh.symm)

theorem nodup_gptParts (hw : Nat → Option HwPart) : (gptParts hw).Nodup := by
  unfold gptParts
  split <;> decide

theorem gather_filter (part : Nat) (h : Room hw 0 (gptParts hw)) :
    ((gather hw).entries.filter fun e => e.1 = part).map Prod.snd =
      if part ∈ gptParts hw then inUse hw part else [] := by
  unfold gather
  rw [foldl_entries h, List.nil_append, filter_flatMap _ _ (nodup_gptParts hw)]
  split
  · simp
  · rfl

theorem getPartitionInfo_name (t : Target) (b : Burner) :
    (getPartitionInfo t.name b).1 = findEntry t.part (t.index % 2 ^ 32)
      (readAllGptPartitionInfo b).cache := by
  have hmod : ∀ n, strtoull (Nat.toDigits 10 n) % 2 ^ 32 = n % 2 ^ 32 := fun n => by
    rw [strtoull, digits_toDigits]
    exact Nat.mod_mod_of_dvd n (by decide)
  cases t with
  | sd n =>
    change findEntry _ (strtoull (Nat.toDigits 10 n) % 2 ^ 32) _ = _
    rw [hmod]
    rfl
  | gp m sep n =>
    have hm := m.2
    have hnum : uint32 ((Nat.digitChar (m + 1)).toNat - '0'.toNat : Int) = m + 1 := by
      revert m
      decide
    change (if _ ∨ _ then _ else findEntry _ (strtoull (Nat.toDigits 10 n) % 2 ^ 32) _) = _
    rw [hmod, hnum, if_neg (by omega)]
    rw [show 3 + ((m : Nat) + 1) = 4 + m by omega]
    rfl

theorem nth_nil (n : Nat) : nth n [] = none := by
  unfold nth
  split <;> rfl

theorem answer_ne_failed (part : Nat) (e : Option GptEntry) :
    answer .outOfBounds part e ≠ .failed := by
  cases e <;> exact Info.noConfusion

theorem length_inUse_le {k part : Nat} (h : Room hw k parts) (hp : part ∈ parts) :
    (inUse hw part).length ≤ maxGptPtNum := by
  induction parts generalizing k with
  | nil => cases hp
  | cons p ps ih =>
    obtain rfl | hp := List.mem_cons.mp hp
    · rw [inUse_eq_take h.1]
      exact ((List.length_filter_le _ _).trans (List.length_take_le _ _)).trans (Nat.sub_le _ _)
    · exact ih h.2 hp

theorem nth_mod {k n part : Nat} {e : GptEntry} (h : Room hw k parts) (hp : part ∈ parts)
    (he : nth n (inUse hw part) = some e) : nth (n % 2 ^ 32) (inUse hw part) = some e := by
  have hlen := length_inUse_le h hp
  have hn : n < 2 ^ 32 := by
    unfold nth at he
    split at he
    · cases he
    · have hlt := (List.getElem?_eq_some_iff.mp he).1
      unfold maxGptPtNum at hlen
      omega
  rw [Nat.mod_eq_of_lt hn, he]

/-- A lookup gives what is on flash exactly if that is there. -/
theorem lookup_current_iff (hw : Nat → Option HwPart) (capacityBoot : Nat) (es : List Event)
    (t : Target) (hok : Schedules.Meets step Fresh (poweron hw capacityBoot) es)
    (hfresh : Fresh (Schedules.run step (poweron hw capacityBoot) es) (.lookup t.name))
    (hroom : Room (Schedules.run step (poweron hw capacityBoot) es).hw 0
      (gptParts (Schedules.run step (poweron hw capacityBoot) es).hw)) :
    (getPartitionInfo t.name (Schedules.run step (poweron hw capacityBoot) es)).1 =
        expected (Schedules.run step (poweron hw capacityBoot) es).hw t ↔
      t.part ∈ gptParts (Schedules.run step (poweron hw capacityBoot) es).hw ∧
        (nth t.index (inUse (Schedules.run step (poweron hw capacityBoot) es).hw t.part)).isSome := by
  have hcur : Current (Schedules.run step (poweron hw capacityBoot) es) :=
    Schedules.run_invariant (fun _ _ h hf => h.step hf) (fun h => absurd h Bool.false_ne_true) hok
  generalize Schedules.run step (poweron hw capacityBoot) es = b at hcur hfresh hroom ⊢
  rw [getPartitionInfo_name, (hcur.readAll hfresh).1, findEntry_eq, gather_filter _ hroom, expected]
  by_cases hp : t.part ∈ gptParts b.hw
  · rw [if_pos hp]
    constructor
    · intro h
      refine ⟨hp, Option.isSome_iff_ne_none.mpr fun hnone => ?_⟩
      rw [hnone] at h
      exact answer_ne_failed _ _ h
    · rintro ⟨-, hsome⟩
      obtain ⟨e, he⟩ := Option.isSome_iff_exists.mp hsome
      rw [he, nth_mod hroom hp he]
      rfl
  · rw [if_neg hp, nth_nil]
    refine ⟨fun h => absurd h ?_, fun h => absurd h.1 hp⟩
    cases nth t.index (inUse b.hw t.part) <;> exact Info.noConfusion

def blank : Nat → Option HwPart
  | 0 => some ⟨2 ^ 21, none, by decide⟩
  | _ => none

def oneList : List Char := "#GPT\nboot,16,8,\n".toList
def otherList : List Char := "#GPT\nboot,32,8,\nroot,0,64,\n".toList

theorem lookup_current_second :
    Schedules.Meets step Fresh (poweron blank 0) [.partImport otherList, .lookup ['s', 'd', '1']] ∧
      (getPartitionInfo (Target.sd 2).name (Schedules.run step (poweron blank 0)
        [.partImport otherList, .lookup ['s', 'd', '1']])).1 =
      expected (Schedules.run step (poweron blank 0)
        [.partImport otherList, .lookup ['s', 'd', '1']]).hw (.sd 2) :=
  ⟨by decide +kernel, (lookup_current_iff blank 0 _ (.sd 2) (by decide +kernel) (by decide +kernel)
    (by decide +kernel)).mpr (by decide +kernel)⟩

theorem import_leaves_stale_entries :
    (getPartitionInfo (Target.sd 1).name (Schedules.run step (poweron blank 0)
      [.partImport oneList, .lookup ['s', 'd', '1'], .partImport otherList])).1 ≠
    expected (Schedules.run step (poweron blank 0)
      [.partImport oneList, .lookup ['s', 'd', '1'], .partImport otherList]).hw (.sd 1) ∧
    (getPartitionInfo (Target.sd 2).name (Schedules.run step (poweron blank 0)
      [.partImport oneList])).1 ≠
    expected (Schedules.run step (poweron blank 0) [.partImport oneList]).hw (.sd 2) := by
  decide +kernel

end SynaBoot.GptLookup
