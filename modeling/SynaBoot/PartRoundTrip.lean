import SynaBoot.PartList

namespace SynaBoot.PartRoundTrip

open SynaBoot.CText SynaBoot.PartTool SynaBoot.Emmcburn SynaBoot.GptLookup SynaBoot.PartList

section Fill

variable {e : TableEntry} {es : List TableEntry} {last m : Nat}

def total (m : Nat) (es : List TableEntry) : Nat := m + (es.map sizeInM).sum

theorem total_cons (m : Nat) (e : TableEntry) (es : List TableEntry) :
    total m (e :: es) = total (m + sizeInM e) es := by
  simp only [total, List.map_cons, List.sum_cons, Nat.add_assoc]

theorem le_total (m : Nat) (es : List TableEntry) : m ≤ total m es := Nat.le_add_right _ _

def filled (last : Nat) : Nat → List TableEntry → List GptEntry
  | _, [] => []
  | m, e :: es =>
    ⟨basicDataGuid, toM * m,
      if es.length = 0 ∧ sizeInM e = 0 then last else toM * (m + sizeInM e) - 1,
      nameStart e.name⟩ :: filled last (m + sizeInM e) es

theorem length_laid (m : Nat) (es : List TableEntry) : (laid m es).length = es.length := by
  induction es generalizing m with
  | nil => rfl
  | cons e es ih => rw [laid, List.length_cons, List.length_cons, ih]

theorem gptFillPte_cons {offset z : Nat} {name : List Char} {ps : List DiskPartition} (hm : 1 ≤ m)
    (hlast : last + 1 < 2 ^ 64) (hb : m + z < 2 ^ 50) :
    gptFillPte last offset (⟨toM * m, toM * z, name⟩ :: ps) =
      if last + 1 < toM * (m + z) then none
      else (gptFillPte last (toM * (m + z)) ps).map fun es =>
        ⟨basicDataGuid, toM * m, if ps.length = 0 ∧ z = 0 then last else toM * (m + z) - 1, name⟩ ::
          es := by
  have hpos : toM * m ≠ 0 := by
    unfold toM
    omega
  have hsum : uint64 ((toM * m : Nat) + (toM * z : Nat)) = toM * (m + z) := by
    unfold uint64 toM
    omega
  have hone : uint64 ((last : Int) + 1) = last + 1 := by
    unfold uint64
    omega
  have hsub : uint64 ((toM * (m + z) : Nat) - 1) = toM * (m + z) - 1 := by
    unfold uint64 toM
    omega
  have hfree : ¬(toM * m < gptHeaderLba + 1 ∧ gptHeaderLba < toM * (m + z) ∨
      toM * m < firstUsableLba ∧ partitionEntryLba < toM * (m + z)) := by
    unfold toM gptHeaderLba firstUsableLba partitionEntryLba
    omega
  have hz : toM * z = 0 ↔ z = 0 := by
    unfold toM
    omega
  rw [gptFillPte]
  dsimp only
  rw [if_pos hpos, hsum, if_neg hfree, hone, hsub]
  simp only [hz]
  cases gptFillPte last (toM * (m + z)) ps <;> rfl

theorem gptFillPte_laid {offset : Nat} (hm : 1 ≤ m) (hlast : last + 1 < 2 ^ 64)
    (hb : total m (e :: es) < 2 ^ 50) :
    gptFillPte last offset (laid m (e :: es)) =
      if toM * total m (e :: es) ≤ last + 1 then some (filled last m (e :: es)) else none := by
  induction es generalizing e m offset with
  | nil =>
    have ht : total m [e] = m + sizeInM e := by simp [total]
    rw [ht] at hb
    rw [laid, gptFillPte_cons hm hlast hb, ht]
    by_cases hle : toM * (m + sizeInM e) ≤ last + 1
    · rw [if_neg (by omega), if_pos hle]
      rfl
    · rw [if_pos (by omega), if_neg hle]
  | cons f es ih =>
    rw [total_cons] at hb ⊢
    have hle := le_total (m + sizeInM e) (f :: es)
    rw [laid, gptFillPte_cons hm hlast (by omega), ih (by omega) hb, length_laid]
    have hmul : toM * (m + sizeInM e) ≤ toM * total (m + sizeInM e) (f :: es) :=
      Nat.mul_le_mul_left _ hle
    by_cases hfit : toM * total (m + sizeInM e) (f :: es) ≤ last + 1
    · rw [if_neg (by omega), if_pos hfit, if_pos hfit]
      rfl
    · rw [if_neg hfit, if_neg hfit]
      split <;> rfl

theorem filled_used (last m : Nat) (es : List TableEntry) :
    (filled last m es).filter GptEntry.used = filled last m es := by
  induction es generalizing m with
  | nil => rfl
  | cons e es ih =>
    rw [filled, List.filter_cons_of_pos rfl, ih]

def EndsOn (lba s : Nat) (e : TableEntry) : Prop :=
  toM ∣ sectors e ∧ 0 < sectors e ∧ s + sectors e + 33 ≤ lba ∨
    sectors e < toM ∧ s + sectors e + 33 = lba
  deriving Decidable

def Tight (lba : Nat) : Nat → List TableEntry → Prop
  | _, [] => True
  | s, [e] => startSector e = s ∧ EndsOn lba s e
  | s, e :: f :: es => startSector e = s ∧ toM ∣ sectors e ∧ Tight lba (s + sectors e) (f :: es)

def decideTight (lba : Nat) : ∀ (s : Nat) (es : List TableEntry), Decidable (Tight lba s es)
  | _, [] => isTrue trivial
  | s, [e] => inferInstanceAs (Decidable (startSector e = s ∧ EndsOn lba s e))
  | s, e :: f :: es => @instDecidableAnd (startSector e = s) _ _
      (@instDecidableAnd (toM ∣ sectors e) _ _ (decideTight lba (s + sectors e) (f :: es)))

instance (lba s : Nat) (es : List TableEntry) : Decidable (Tight lba s es) := decideTight lba s es

theorem Tight.start_eq {lba s : Nat} (h : Tight lba s (e :: es)) : startSector e = s := by
  cases es with
  | nil => exact h.1
  | cons f es => exact h.1

def place (e : GptEntry) : Nat × Nat := (e.startingLba, e.cnt)

theorem place_eq {m z : Nat} {name : List Char} (hm : 1 ≤ m) (hb : m + z < 2 ^ 50) :
    place ⟨basicDataGuid, toM * m, toM * (m + z) - 1, name⟩ = (toM * m, toM * z) := by
  refine Prod.ext rfl ?_
  change uint64 ((toM * (m + z) - 1 : Nat) - (toM * m : Nat) + 1) = toM * z
  unfold uint64 toM
  omega

theorem place_rest {lba m : Nat} {name : List Char} (h : 1 ≤ m) (hm : toM * m + 33 ≤ lba)
    (hl : lba < 2 ^ 64) :
    place ⟨basicDataGuid, toM * m, lba - 34, name⟩ = (toM * m, lba - 33 - toM * m) := by
  refine Prod.ext rfl ?_
  change uint64 ((lba - 34 : Nat) - (toM * m : Nat) + 1) = lba - 33 - toM * m
  unfold toM at hm ⊢
  unfold uint64
  omega

theorem tight_iff {lba : Nat} (hm : 1 ≤ m) (hl : lba < 2 ^ 64) (hb : total m (e :: es) < 2 ^ 50)
    (h : ∀ f ∈ e :: es, InTable f) :
    toM * total m (e :: es) + 33 ≤ lba ∧
        (filled (lba - 34) m (e :: es)).map place = (e :: es).map partRecord ↔
      Tight lba (toM * m) (e :: es) := by
  induction es generalizing e m with
  | nil =>
    have he := h e List.mem_cons_self
    have hz := he.sizeInM_eq
    have ht : total m [e] = m + sizeInM e := by simp [total]
    rw [ht] at hb ⊢
    simp only [filled, List.map_cons, List.map_nil, List.length_nil, true_and, Tight,
      EndsOn, List.cons.injEq, and_true, he.partRecord_eq]
    by_cases h0 : sizeInM e = 0
    · rw [if_pos h0, h0, Nat.add_zero]
      by_cases hfit : toM * m + 33 ≤ lba
      · rw [place_rest hm hfit hl, Prod.mk.injEq]
        unfold toM at hz hfit ⊢
        omega
      · refine ⟨fun hc => absurd hc.1 hfit, fun hc => ?_⟩
        unfold toM at hz hfit hc
        omega
    · rw [if_neg h0, place_eq hm hb, Prod.mk.injEq]
      unfold toM at hz ⊢
      omega
  | cons f es ih =>
    have he := h e List.mem_cons_self
    have hz := he.sizeInM_eq
    have hih := ih (e := f) (m := m + sizeInM e) (by omega) (by rwa [total_cons] at hb)
      fun g hg => h g (List.mem_cons_of_mem _ hg)
    rw [total_cons] at hb ⊢
    have hle := le_total (m + sizeInM e) (f :: es)
    have hsec : toM * sizeInM e = sectors e ↔ toM ∣ sectors e := by
      rw [hz]
      unfold toM
      omega
    rw [filled, if_neg (fun hc => Nat.succ_ne_zero _ hc.1), List.map_cons, List.map_cons,
      place_eq hm (by omega), he.partRecord_eq, List.cons.injEq, Prod.mk.injEq, Tight]
    constructor
    · rintro ⟨hfit, ⟨hs, hd⟩, hrest⟩
      refine ⟨hs.symm, hsec.mp hd, ?_⟩
      rw [← hd, ← Nat.mul_add]
      exact hih.mp ⟨hfit, hrest⟩
    · rintro ⟨hs, hd, hrest⟩
      rw [← hsec.mpr hd, ← Nat.mul_add] at hrest
      obtain ⟨hfit, hrest⟩ := hih.mpr hrest
      exact ⟨hfit, ⟨hs.symm, hsec.mpr hd⟩, hrest⟩

end Fill

section Import

variable {b : Burner} {h : HwPart} {e : TableEntry} {es : List TableEntry}

def Creates (b : Burner) (text : List Char) (records : List (Nat × Nat)) : Prop :=
  match parsePartAndGenGpt text b with
  | none => False
  | some r => records <+: (inUse r.2.hw emmcPartUser).map place

instance (b : Burner) (text : List Char) (records : List (Nat × Nat)) :
    Decidable (Creates b text records) := by
  unfold Creates
  split <;> infer_instance

theorem sectionPart_of_head {line : List Char} (hl : line.head? ≠ some '#') :
    sectionPart line = some (emmcPartUser, false) := by
  cases line with
  | nil => rfl
  | cons c cs =>
    have hc : c ≠ '#' := fun h => hl (congrArg some h)
    unfold sectionPart
    rw [if_neg, if_neg]
    · exact fun h => hc (List.cons.inj h).1
    · exact fun h => hc (List.cons.inj h).1

theorem head_rowText (hn : Named e) (start size option : List Char) :
    (rowText (nameStart e.name) start size option).head? ≠ some '#' := by
  have hname : '#' ∉ nameStart e.name := by
    intro hm
    refine (hn.char '#' ?_).2.2.1 rfl
    unfold nameStart at hm
    split at hm
    · exact (List.dropWhile_sublist _).mem (List.mem_of_mem_tail hm)
    · exact hm
  unfold rowText
  cases hc : nameStart e.name with
  | nil => exact fun h => absurd (Option.some.inj h) (by decide)
  | cons c cs =>
    rw [hc] at hname
    exact fun h => hname (Option.some.inj h ▸ List.mem_cons_self)

def cleaned (b : Burner) : Burner := setGpt emmcPartUser none { b with isGptReady := false }

theorem table_setGpt (hdev : b.hw emmcPartUser = some h) (g : Option (List GptEntry)) :
    table (setGpt emmcPartUser g b).hw emmcPartUser = g.getD [] := by
  unfold table setGpt
  dsimp only
  rw [Function.update_self, hdev]
  rfl

theorem cleaned_hw (hdev : b.hw emmcPartUser = some h) :
    (cleaned b).hw emmcPartUser = some { h with gpt := none } := by
  unfold cleaned setGpt
  dsimp only
  rw [Function.update_self, hdev]
  rfl

theorem parseSections_user {n : Nat} {line : List Char} {lines : List (List Char)}
    (hdev : b.hw emmcPartUser = some h) (hl : 1 < line.length)
    (hs : sectionPart line = some (emmcPartUser, false)) :
    parseSections (n + 1) (line :: lines) b =
      match parseRows [] 0 0 (line :: lines) with
      | .overrun => none
      | .invalid => some (-1, cleaned b)
      | .done ps rest =>
        match gptRestore h.lba ps with
        | none => some (-1, cleaned b)
        | some t => parseSections n rest
            { setGpt emmcPartUser (some t) (cleaned b) with isGptReady := false } := by
  have hline : getLine (line :: lines) = some line := if_neg (by omega)
  have hclean : cleanMbrGptTable emmcPartUser b = (true, cleaned b) := by
    unfold cleanMbrGptTable
    dsimp only
    rw [hdev]
    rfl
  rw [parseSections, hline, Option.bind_some, hs]
  dsimp only
  rw [hclean]
  dsimp only
  rw [if_neg Bool.false_ne_true, cleaned_hw hdev]
  rfl

theorem parse_genEmmcPartList (half : Option Nat) (htab : ∀ f ∈ e :: es, InTable f ∧ Named f)
    (hdev : b.hw emmcPartUser = some h) :
    parsePartAndGenGpt (genEmmcPartList (e :: es) half) b =
      if (e :: es).length ≤ maxGptPtNum then
        match gptRestore h.lba (laid (startInM e) (e :: es)) with
        | none => some (-1, cleaned b)
        | some t => some (0, { setGpt emmcPartUser (some t) (cleaned b) with isGptReady := false })
      else none := by
  have hn := (htab e List.mem_cons_self).2
  have hrows := parseRows_first half htab
  have hlines := lines_genEmmcPartList half htab
  rw [rowTexts] at hrows hlines
  have hl := length_rowText (nameStart e.name) (startColumn 0 (startInM e))
    (decimal (int32 (sizeInM e))) (partOption half 0)
  have hs := sectionPart_of_head (head_rowText hn (startColumn 0 (startInM e))
    (decimal (int32 (sizeInM e))) (partOption half 0))
  unfold parsePartAndGenGpt
  rw [hlines]
  generalize rowText _ _ _ _ = line at hl hs hrows ⊢
  change parseSections 5 (line :: _) b = _
  rw [parseSections_user hdev hl hs, hrows]
  by_cases hlen : (e :: es).length ≤ maxGptPtNum
  · rw [if_pos hlen, if_pos hlen]
    rfl
  · rw [if_neg hlen, if_neg hlen]

theorem gptRestore_laid {m : Nat} (hm : 1 ≤ m) (hb : total m (e :: es) < 2 ^ 50) (h : HwPart) :
    gptRestore h.lba (laid m (e :: es)) =
      if toM * total m (e :: es) + 33 ≤ h.lba then
        some (filled (h.lba - 34) m (e :: es) ++ List.replicate
          (gptEntryNumbers - (filled (h.lba - 34) m (e :: es)).length) unusedEntry)
      else none := by
  have hr := h.lba_range
  have hlast : uint64 ((h.lba : Int) - 34) = h.lba - 34 := by
    unfold uint64
    omega
  unfold gptRestore
  rw [hlast, gptFillPte_laid hm (by omega) hb]
  by_cases hfit : toM * total m (e :: es) + 33 ≤ h.lba
  · rw [if_pos hfit, if_pos (by omega)]
    rfl
  · rw [if_neg hfit, if_neg (by omega)]
    rfl

theorem total_le (m : Nat) (htab : ∀ f ∈ es, InTable f) :
    total m es ≤ m + 2 ^ 21 * es.length := by
  induction es generalizing m with
  | nil => simp [total]
  | cons e es ih =>
    obtain ⟨he, hes⟩ := List.forall_mem_cons.mp htab
    have hlt := sectors_div_lt he
    have hle := ih (m + sizeInM e) hes
    rw [total_cons, List.length_cons]
    omega

theorem length_filled (last m : Nat) (es : List TableEntry) :
    (filled last m es).length = es.length := by
  induction es generalizing m with
  | nil => rfl
  | cons e es ih => rw [filled, List.length_cons, List.length_cons, ih]

theorem creates_iff (half : Option Nat) (htab : ∀ f ∈ e :: es, InTable f ∧ Named f)
    (hdev : b.hw emmcPartUser = some h) (hm : 1 ≤ startInM e) :
    Creates b (genEmmcPartList (e :: es) half) ((e :: es).map partRecord) ↔
      (e :: es).length ≤ maxGptPtNum ∧ Tight h.lba (toM * startInM e) (e :: es) := by
  unfold Creates
  rw [parse_genEmmcPartList half htab hdev]
  by_cases hlen : (e :: es).length ≤ maxGptPtNum
  · have hin := fun f hf => (htab f hf).1
    have hb : total (startInM e) (e :: es) < 2 ^ 50 := by
      have hle := total_le (startInM e) hin
      have hlt := startSector_div_lt (hin e List.mem_cons_self)
      unfold maxGptPtNum at hlen
      omega
    have ht := tight_iff hm h.lba_range.2 hb hin
    rw [if_pos hlen, gptRestore_laid hm hb]
    simp only [hlen, true_and]
    rw [← ht]
    by_cases hfit : toM * total (startInM e) (e :: es) + 33 ≤ h.lba
    · have hun : (List.replicate (gptEntryNumbers - (filled (h.lba - 34) (startInM e)
          (e :: es)).length) unusedEntry).filter GptEntry.used = [] := by
        refine List.filter_eq_nil_iff.mpr fun f hf => ?_
        rw [List.eq_of_mem_replicate hf]
        decide
      rw [if_pos hfit]
      dsimp only
      unfold inUse
      rw [table_setGpt (cleaned_hw hdev), Option.getD_some, List.filter_append, filled_used, hun,
        List.append_nil]
      refine ⟨fun hp => ⟨hfit, (hp.eq_of_length ?_).symm⟩, fun hp => hp.2 ▸ List.prefix_rfl⟩
      rw [List.length_map, List.length_map, length_filled]
    · rw [if_neg hfit]
      dsimp only
      unfold inUse cleaned
      rw [table_setGpt (b := { b with isGptReady := false }) hdev]
      refine ⟨fun hp => ?_, fun hp => absurd hp.1 hfit⟩
      exact absurd (List.prefix_nil.mp hp) (List.cons_ne_nil _ _)
  · rw [if_neg hlen]
    exact ⟨False.elim, fun hc => hlen hc.1⟩

end Import

def oneGiB : Args := ⟨1, 0, 2 ^ 19, 2 ^ 30, by decide, by decide⟩

end SynaBoot.PartRoundTrip
