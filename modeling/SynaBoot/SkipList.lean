import Mathlib.Data.List.GetD
import SynaBoot.PartBuffer

namespace SynaBoot.SkipList

open SynaBoot.CString SynaBoot.CText SynaBoot.Emmcburn SynaBoot.GptLookup
open SynaBoot.PartBuffer (linesOf parseRows_cons_done parseSections_succ turn turn_spec)

/-- The text is compared only up to its own end. -/
def findStr (str : List Char) : ℕ → List Char → Bool
  | 0, _ => false
  | fuel + 1, list =>
    if list = [] then false
    else
      let behind := list.getD str.length '\x00'
      if (behind = ',' ∨ behind = '\x00') ∧ list.take str.length = str then true
      else
        match list.dropWhile (· ≠ ',') with
        | [] => false
        | _ :: next => findStr str fuel next

def findStrInList (list str : List Char) : Bool := findStr str (list.length + 1) list

def sdName (n : ℕ) : List Char := (Target.sd n).name

def addName (list name : List Char) : List Char :=
  if list = [] then name else list ++ ',' :: name

/-- The names `sdN` of the listed rows, or -1 for a short row. -/
def partlistLoop (imgname : List Char) :
    List (List Char) → ℕ → List Char → Option (Option (List Char))
  | [], _, list => some (some list)
  | line :: lines, num, list =>
    if line.length ≤ 1 then some (some list)
    else
      let argv := fields ',' line
      if 4 < argv.length then none
      else if argv.length < 3 then some none
      else if findStrInList imgname (argv.headD []) then
        let list := addName list (sdName (num + 1))
        if (sdName (num + 1)).length < 8 ∧ list.length < 128 then
          partlistLoop imgname lines (num + 1) list
        else none
      else partlistLoop imgname lines (num + 1) list

def getPartNameFromImgName (text imgname : List Char) (room : ℕ) : Option (Option (List Char)) :=
  match getLine (linesOf text) with
  | none => some none
  | some line =>
    if line.length ≠ 4 ∧ line.take 4 ≠ "#GPT".toList then some none
    else
      match partlistLoop imgname (linesOf text).tail 0 [] with
      | some (some list) =>
        if list = [] then some (some imgname)
        else if list.length < room then some (some list) else none
      | r => r

inductive Op where
  | burnImage
  | erasePt
  | formatPt
  deriving DecidableEq, Repr

structure PtOperation where
  op : Op
  ptName : List Char
  imgname : List Char
  deriving DecidableEq, Repr

def operation (first pt : List Char) : PtOperation :=
  if first = "erase".toList then ⟨.erasePt, pt, []⟩
  else if first = "format".toList then ⟨.formatPt, pt, []⟩
  else ⟨.burnImage, pt, first⟩

def serializeLoop : List (List Char) → List PtOperation → Option (Option (List PtOperation))
  | [], ptop => some (some ptop)
  | line :: lines, ptop =>
    if line.length ≤ 1 then some (some ptop)
    else
      match fields ',' line with
      | [first, pt] =>
        if pt.length < 8 ∧ (operation first pt).imgname.length < 32 ∧ ptop.length < maxGptPtNum then
          serializeLoop lines (ptop ++ [operation first pt])
        else none
      | argv => if 4 < argv.length then none else some none

def ptOperationSerialization (text : List Char) : Option (Option (List PtOperation)) :=
  serializeLoop (linesOf text) []

def img2sd (succeeds : PtOperation → Bool) (ignored : List Char) :
    List PtOperation → Bool × List PtOperation
  | [] => (true, [])
  | o :: ptop =>
    if findStrInList ignored o.ptName then img2sd succeeds ignored ptop
    else if succeeds o then
      let r := img2sd succeeds ignored ptop
      (r.1, o :: r.2)
    else (false, [o])

def userNames : ℕ → List (List Char) → Burner → Option (List (List Char))
  | 0, _, _ => none
  | n + 1, lines, b =>
    match turn lines b with
    | .restored part _ partitions rest b =>
      (userNames n rest b).or
        (if part = emmcPartUser then some (partitions.map DiskPartition.name) else none)
    | _ => none

def userNamesOf (text : List Char) (b : Burner) : Option (List (List Char)) :=
  match getLine (linesOf text) with
  | none => none
  | some line =>
    if line.length ≠ 4 ∧ line.take 4 ≠ "#GPT".toList then none
    else userNames 5 (linesOf text).tail b

def numbers (listed : List (List Char)) : ℕ → List (List Char) → List ℕ
  | _, [] => []
  | k, name :: names =>
    if name ∈ listed then (k + 1) :: numbers listed (k + 1) names else numbers listed (k + 1) names

def wanted (imgname : List Char) (names : List (List Char)) : List (List Char) :=
  (numbers (fields ',' imgname) 0 names).map sdName

def Honoured (text imgname : List Char) (room : ℕ) (names : List (List Char)) : Prop :=
  ∃ list, getPartNameFromImgName text imgname room = some (some list) ∧
    ∀ images ptop succeeds, ptOperationSerialization images = some (some ptop) →
      img2sd succeeds list ptop =
        img2sd succeeds [] (ptop.filter fun o => o.ptName ∉ wanted imgname names)

section Find

variable {str list f s : List Char}

theorem first_iff (hstr : ',' ∉ str) (hf : ',' ∉ f) (hnul : '\x00' ∉ f)
    (hs : s = [] ∨ ∃ s', s = ',' :: s') :
    (((f ++ s).getD str.length '\x00' = ',' ∨ (f ++ s).getD str.length '\x00' = '\x00') ∧
      (f ++ s).take str.length = str) ↔ str = f := by
  constructor
  · rintro ⟨hbehind, htake⟩
    obtain hlt | heq | hgt := Nat.lt_trichotomy str.length f.length
    · have hmem : (f ++ s).getD str.length '\x00' ∈ f := by
        rw [List.getD_append _ _ _ _ hlt, List.getD_eq_getElem _ _ hlt]
        exact List.getElem_mem hlt
      obtain h | h := hbehind
      · exact absurd (h ▸ hmem) hf
      · exact absurd (h ▸ hmem) hnul
    · rw [← htake, heq, List.take_left]
    · obtain rfl | ⟨s', rfl⟩ := hs
      · have hlen := congrArg List.length htake
        rw [List.append_nil, List.length_take] at hlen
        omega
      · refine absurd ?_ hstr
        rw [← htake, List.take_append, List.take_of_length_le hgt.le]
        refine List.mem_append_right _ ?_
        obtain ⟨k, hk⟩ := Nat.exists_eq_add_of_lt hgt
        rw [hk, Nat.add_assoc, Nat.add_sub_cancel_left]
        exact List.mem_cons_self
  · rintro rfl
    refine ⟨?_, List.take_left⟩
    rw [List.getD_append_right _ _ _ _ le_rfl, Nat.sub_self]
    obtain rfl | ⟨s', rfl⟩ := hs
    · exact .inr rfl
    · exact .inl rfl

theorem findStr_iff (hstr : ',' ∉ str) (hnul : '\x00' ∉ list) {fuel : ℕ}
    (hfuel : list.length < fuel) : findStr str fuel list ↔ str ∈ fields ',' list := by
  induction list using fields_induction ',' generalizing fuel with
  | nil =>
    cases fuel with
    | zero => cases hfuel
    | succ fuel => simp [findStr, fields]
  | last f hne hf =>
    cases fuel with
    | zero => cases hfuel
    | succ fuel =>
      have hfirst := first_iff hstr hf hnul (.inl rfl)
      rw [List.append_nil] at hfirst
      rw [findStr, if_neg hne, fields_last hne hf, List.mem_singleton]
      dsimp only
      by_cases heq : str = f
      · rw [if_pos (hfirst.mpr heq)]
        exact iff_of_true rfl heq
      · have hdrop : f.dropWhile (· ≠ ',') = [] := by
          rw [List.dropWhile_eq_nil_iff]
          intro c hc
          exact decide_eq_true fun h => hf (h ▸ hc)
        rw [if_neg (mt hfirst.mp heq), hdrop]
        exact iff_of_false Bool.false_ne_true heq
  | next f s hf ih =>
    rw [List.mem_append, List.mem_cons, not_or, not_or] at hnul
    rw [List.length_append, List.length_cons] at hfuel
    cases fuel with
    | zero => cases hfuel
    | succ fuel =>
      have hfirst := first_iff hstr hf hnul.1 (.inr ⟨s, rfl⟩)
      have hne : f ++ ',' :: s ≠ [] := by simp
      rw [findStr, if_neg hne, fields_append s hf, List.mem_cons]
      dsimp only
      by_cases heq : str = f
      · rw [if_pos (hfirst.mpr heq)]
        exact iff_of_true rfl (.inl heq)
      · have hdrop : (f ++ ',' :: s).dropWhile (· ≠ ',') = ',' :: s := by
          rw [List.dropWhile_append_of_pos, List.dropWhile_cons_of_neg (by simp)]
          intro c hc
          exact decide_eq_true fun h => hf (h ▸ hc)
        rw [if_neg (mt hfirst.mp heq), hdrop, or_iff_right heq]
        exact ih hnul.2.2 (by omega)

theorem findStrInList_iff (hstr : ',' ∉ str) (hnul : '\x00' ∉ list) :
    findStrInList list str ↔ str ∈ fields ',' list :=
  findStr_iff hstr hnul (Nat.lt_succ_self _)

end Find

section Names

def Plain (c : Char) : Prop := c ∉ [',', '\n', ' ', '\t', '\r', '\x00']

instance (c : Char) : Decidable (Plain c) := inferInstanceAs (Decidable (_ ∉ _))

theorem sdName_plain (n : ℕ) : ∀ c ∈ sdName n, Plain c := by
  have hdigit (c : Char) (hc : c.isDigit) : Plain c := by
    intro hmem
    simp only [List.mem_cons, List.not_mem_nil, or_false] at hmem
    obtain rfl | rfl | rfl | rfl | rfl | rfl := hmem <;> exact absurd hc (by decide)
  intro c hc
  obtain rfl | rfl | hc := by simpa [sdName, Target.name] using hc
  · decide
  · decide
  · exact hdigit c (Nat.isDigit_of_mem_toDigits (by decide) (by decide) hc)

theorem Plain.ne {c x : Char} (h : Plain c) (hx : x ∈ [',', '\n', ' ', '\t', '\r', '\x00']) :
    c ≠ x := fun heq => h (heq ▸ hx)

theorem comma_not_mem_sdName (n : ℕ) : ',' ∉ sdName n := fun h =>
  (sdName_plain n _ h).ne (by decide) rfl

theorem sdName_ne_nil (n : ℕ) : sdName n ≠ [] := List.cons_ne_nil _ _

theorem sdName_injective : Function.Injective sdName := by
  intro m n h
  have hdigits : Nat.toDigits 10 m = Nat.toDigits 10 n := (List.cons.inj (List.cons.inj h).2).2
  rw [← digits_toDigits m, hdigits, digits_toDigits]

variable {listed names : List (List Char)} {k n : ℕ}

theorem mem_numbers_iff : n ∈ numbers listed k names ↔
    ∃ i name, n = k + i + 1 ∧ names[i]? = some name ∧ name ∈ listed := by
  induction names generalizing k with
  | nil =>
    refine iff_of_false List.not_mem_nil ?_
    rintro ⟨i, name, -, hname, -⟩
    cases hname
  | cons name names ih =>
    have hrest : n ∈ numbers listed (k + 1) names ↔ ∃ i x, n = k + (i + 1) + 1 ∧
        (name :: names)[i + 1]? = some x ∧ x ∈ listed := by
      rw [ih]
      refine exists_congr fun i => exists_congr fun x => ?_
      rw [List.getElem?_cons_succ, Nat.add_right_comm k 1 i, Nat.add_assoc k i 1]
    have hhead : (∃ i x, n = k + i + 1 ∧ (name :: names)[i]? = some x ∧ x ∈ listed) ↔
        n = k + 1 ∧ name ∈ listed ∨ n ∈ numbers listed (k + 1) names := by
      rw [hrest]
      constructor
      · rintro ⟨i, x, hn, hx, hmem⟩
        cases i with
        | zero =>
          obtain rfl := Option.some.inj hx
          exact .inl ⟨hn, hmem⟩
        | succ i => exact .inr ⟨i, x, hn, hx, hmem⟩
      · rintro (⟨hn, hmem⟩ | ⟨i, x, hn, hx, hmem⟩)
        · exact ⟨0, name, hn, rfl, hmem⟩
        · exact ⟨i + 1, x, hn, hx, hmem⟩
    rw [hhead, numbers]
    by_cases hmem : name ∈ listed
    · rw [if_pos hmem, List.mem_cons, and_iff_left hmem]
    · rw [if_neg hmem]
      exact (or_iff_right fun h => hmem h.2).symm

end Names

section Translate

variable {list imgname : List Char} {lines : List (List Char)} {num : ℕ}

def addNames (list : List Char) (ns : List ℕ) : List Char :=
  ns.foldl (fun list n => addName list (sdName n)) list

theorem length_addName_le (list name : List Char) : list.length ≤ (addName list name).length := by
  unfold addName
  split
  · next h => exact h ▸ Nat.zero_le _
  · exact List.length_append ▸ Nat.le_add_right _ _

theorem length_addNames_le (list : List Char) (ns : List ℕ) :
    list.length ≤ (addNames list ns).length := by
  induction ns generalizing list with
  | nil => exact le_rfl
  | cons n ns ih => exact (length_addName_le _ _).trans (ih _)

def Closed (list : List Char) : Prop :=
  ∀ s, fields ',' (list ++ ',' :: s) = fields ',' list ++ fields ',' s

theorem closed_sdName (n : ℕ) : Closed (sdName n) := by
  intro s
  have hcomma := comma_not_mem_sdName n
  rw [fields_append s hcomma, fields_last (sdName_ne_nil n) hcomma]
  rfl

theorem Closed.fields_snoc (h : Closed list) (n : ℕ) :
    fields ',' (list ++ ',' :: sdName n) = fields ',' list ++ [sdName n] := by
  rw [h, fields_last (sdName_ne_nil n) (comma_not_mem_sdName n)]

theorem Closed.snoc (h : Closed list) (n : ℕ) : Closed (list ++ ',' :: sdName n) := by
  intro s
  rw [List.append_assoc, List.cons_append, h, closed_sdName, h.fields_snoc,
    fields_last (sdName_ne_nil n) (comma_not_mem_sdName n), List.append_assoc]

theorem fields_addNames (ns : List ℕ) (h : list = [] ∨ Closed list) :
    fields ',' (addNames list ns) = fields ',' list ++ ns.map sdName := by
  induction ns generalizing list with
  | nil => exact (List.append_nil _).symm
  | cons n ns ih =>
    have hstep : fields ',' (addName list (sdName n)) = fields ',' list ++ [sdName n] ∧
        Closed (addName list (sdName n)) := by
      unfold addName
      split
      · next hnil =>
        rw [hnil, fields_last (sdName_ne_nil n) (comma_not_mem_sdName n)]
        exact ⟨rfl, closed_sdName n⟩
      · next hne =>
        have hclosed := h.resolve_left hne
        exact ⟨hclosed.fields_snoc n, hclosed.snoc n⟩
    have hnext := ih (.inr hstep.2)
    rw [hstep.1, List.append_assoc] at hnext
    exact hnext

def block (lines : List (List Char)) : List (List Char) := lines.takeWhile (1 < ·.length)

def rowName (line : List Char) : List Char := (fields ',' line).headD []

def found (imgname : List Char) (num : ℕ) (lines : List (List Char)) : List ℕ :=
  numbers (fields ',' imgname) num ((block lines).map rowName)

structure Fits (list : List Char) (ns : List ℕ) : Prop where
  names : ∀ n ∈ ns, (sdName n).length < 8
  whole : (addNames list ns).length < 128

theorem fits_cons {n : ℕ} {ns : List ℕ} : Fits list (n :: ns) ↔
    (sdName n).length < 8 ∧ Fits (addName list (sdName n)) ns := by
  constructor
  · intro h
    exact ⟨h.names n List.mem_cons_self, fun m hm => h.names m (List.mem_cons_of_mem n hm), h.whole⟩
  · rintro ⟨hn, h⟩
    exact ⟨List.forall_mem_cons.mpr ⟨hn, h.names⟩, h.whole⟩

theorem rowName_mem {line : List Char} (h : 3 ≤ (fields ',' line).length) :
    rowName line ∈ fields ',' line := by
  unfold rowName
  cases hfields : fields ',' line with
  | nil =>
    rw [hfields] at h
    cases h
  | cons f fs => exact List.mem_cons_self

theorem comma_not_mem_rowName {line : List Char} (h : 3 ≤ (fields ',' line).length) :
    ',' ∉ rowName line := fun hmem => (mem_of_mem_fields (rowName_mem h) hmem).2 rfl

def Translates (imgname : List Char) (num : ℕ) (lines : List (List Char)) (list : List Char) :
    Prop :=
  (∀ line ∈ block lines, 3 ≤ (fields ',' line).length ∧ (fields ',' line).length ≤ 4) ∧
    Fits list (found imgname num lines)

theorem translates_stop (hblock : block lines = []) (hlist : list.length < 128) {r : List Char} :
    some (some list) = some (some r) ↔
      Translates imgname num lines list ∧ r = addNames list (found imgname num lines) := by
  have hfound : found imgname num lines = [] := by
    rw [found, hblock]
    rfl
  rw [Translates, hblock, hfound, Option.some.injEq, Option.some.injEq]
  constructor
  · rintro rfl
    exact ⟨⟨List.forall_mem_nil _, List.forall_mem_nil _, hlist⟩, rfl⟩
  · exact fun h => h.2.symm

theorem partlistLoop_iff (hnul : '\x00' ∉ imgname) (hlist : list.length < 128) {r : List Char} :
    partlistLoop imgname lines num list = some (some r) ↔
      Translates imgname num lines list ∧ r = addNames list (found imgname num lines) := by
  induction lines generalizing num list with
  | nil => exact translates_stop rfl hlist
  | cons line lines ih =>
    rw [partlistLoop]
    by_cases hshort : line.length ≤ 1
    · rw [if_pos hshort]
      exact translates_stop (List.takeWhile_cons_of_neg (by simpa using hshort)) hlist
    · have hblock : block (line :: lines) = line :: block lines :=
        List.takeWhile_cons_of_pos (by simpa using hshort)
      have hfound : found imgname num (line :: lines) = if rowName line ∈ fields ',' imgname then
          (num + 1) :: found imgname (num + 1) lines else found imgname (num + 1) lines := by
        rw [found, hblock]
        rfl
      rw [if_neg hshort, Translates, hblock, List.forall_mem_cons, hfound]
      dsimp only
      by_cases hmany : 4 < (fields ',' line).length
      · rw [if_pos hmany]
        exact iff_of_false (fun h => by cases h) fun h => absurd h.1.1.1.2 (by omega)
      · rw [if_neg hmany]
        by_cases hfew : (fields ',' line).length < 3
        · rw [if_pos hfew]
          exact iff_of_false (fun h => by cases h) fun h => absurd h.1.1.1.1 (by omega)
        · have hcount : 3 ≤ (fields ',' line).length ∧ (fields ',' line).length ≤ 4 := by omega
          rw [if_neg hfew, and_iff_right hcount]
          have hfind : findStrInList imgname ((fields ',' line).headD []) ↔
              rowName line ∈ fields ',' imgname :=
            findStrInList_iff (comma_not_mem_rowName hcount.1) hnul
          by_cases hmem : rowName line ∈ fields ',' imgname
          · rw [if_pos (hfind.mpr hmem), if_pos hmem, fits_cons]
            by_cases hroom : (sdName (num + 1)).length < 8 ∧
                (addName list (sdName (num + 1))).length < 128
            · rw [if_pos hroom, ih hroom.2, and_iff_right hroom.1]
              rfl
            · rw [if_neg hroom]
              refine iff_of_false (fun h => by cases h) fun h => hroom ⟨h.1.2.1, ?_⟩
              exact (length_addNames_le _ _).trans_lt h.1.2.2.whole
          · rw [if_neg (mt hfind.mp hmem), if_neg hmem]
            exact ih hlist

theorem addNames_eq_nil {ns : List ℕ} : addNames [] ns = [] ↔ ns = [] := by
  refine ⟨fun h => ?_, fun h => h ▸ rfl⟩
  have hfields := fields_addNames ns (.inl rfl)
  rw [h] at hfields
  exact List.map_eq_nil_iff.mp hfields.symm

theorem nul_not_mem_addNames (ns : List ℕ) (h : '\x00' ∉ list) : '\x00' ∉ addNames list ns := by
  induction ns generalizing list with
  | nil => exact h
  | cons n ns ih =>
    have hname : '\x00' ∉ sdName n := fun hmem => (sdName_plain n _ hmem).ne (by decide) rfl
    refine ih ?_
    change '\x00' ∉ if list = [] then sdName n else list ++ ',' :: sdName n
    split
    · exact hname
    · rw [List.mem_append, List.mem_cons, not_or, not_or]
      exact ⟨h, by decide, hname⟩

end Translate

section List

variable {text imgname : List Char} {room : ℕ}

def foundIn (text imgname : List Char) : List ℕ := found imgname 0 (linesOf text).tail

def IsGpt (text : List Char) : Prop :=
  ∃ line, getLine (linesOf text) = some line ∧ ¬ (line.length ≠ 4 ∧ line.take 4 ≠ "#GPT".toList)

structure Translatable (text imgname : List Char) (room : ℕ) : Prop where
  gpt : IsGpt text
  rows : ∀ line ∈ block (linesOf text).tail,
    3 ≤ (fields ',' line).length ∧ (fields ',' line).length ≤ 4
  fits : Fits [] (foundIn text imgname)
  room : foundIn text imgname ≠ [] → (addNames [] (foundIn text imgname)).length < room

/-- A list of which nothing is found stays as it is. -/
def translation (text imgname : List Char) : List Char :=
  if foundIn text imgname = [] then imgname else addNames [] (foundIn text imgname)

theorem getPartNameFromImgName_iff (hnul : '\x00' ∉ imgname) {list : List Char} :
    getPartNameFromImgName text imgname room = some (some list) ↔
      Translatable text imgname room ∧ list = translation text imgname := by
  unfold getPartNameFromImgName
  cases hline : getLine (linesOf text) with
  | none =>
    refine iff_of_false (fun h => by cases h) fun h => ?_
    obtain ⟨line, hsome, -⟩ := h.1.gpt
    cases hline.symm.trans hsome
  | some line =>
    dsimp only
    by_cases hgpt : line.length ≠ 4 ∧ line.take 4 ≠ "#GPT".toList
    · rw [if_pos hgpt]
      refine iff_of_false (fun h => by cases h) fun h => ?_
      obtain ⟨line', hsome, hok⟩ := h.1.gpt
      obtain rfl := Option.some.inj (hline.symm.trans hsome)
      exact hok hgpt
    · rw [if_neg hgpt]
      have hloop (r : List Char) : partlistLoop imgname (linesOf text).tail 0 [] = some (some r) ↔
          Translates imgname 0 (linesOf text).tail [] ∧ r = addNames [] (foundIn text imgname) :=
        partlistLoop_iff hnul (by decide)
      have hnone (h : ∀ r, partlistLoop imgname (linesOf text).tail 0 [] ≠ some (some r)) :
          ¬ (Translatable text imgname room ∧ list = translation text imgname) := fun ht =>
        h _ ((hloop _).mpr ⟨⟨ht.1.rows, ht.1.fits⟩, rfl⟩)
      cases hres : partlistLoop imgname (linesOf text).tail 0 [] with
      | none =>
        refine iff_of_false (fun h => by cases h) (hnone fun r h => ?_)
        cases hres.symm.trans h
      | some o =>
        cases o with
        | none =>
          refine iff_of_false (fun h => by cases h) (hnone fun r h => ?_)
          cases hres.symm.trans h
        | some l =>
          obtain ⟨htrans, rfl⟩ := (hloop l).mp hres
          have hable (hroom : foundIn text imgname ≠ [] →
              (addNames [] (foundIn text imgname)).length < room) :
              Translatable text imgname room :=
            ⟨⟨line, hline, hgpt⟩, htrans.1, htrans.2, hroom⟩
          dsimp only
          unfold translation
          by_cases hfound : foundIn text imgname = []
          · rw [if_pos (addNames_eq_nil.mpr hfound), if_pos hfound, Option.some.injEq,
              Option.some.injEq, and_iff_right (hable fun h => absurd hfound h)]
            exact eq_comm
          · rw [if_neg (mt addNames_eq_nil.mp hfound), if_neg hfound]
            by_cases hroom : (addNames [] (foundIn text imgname)).length < room
            · rw [if_pos hroom, Option.some.injEq, Option.some.injEq,
                and_iff_right (hable fun _ => hroom)]
              exact eq_comm
            · rw [if_neg hroom]
              exact iff_of_false (fun h => by cases h) fun h => hroom (h.1.room hfound)

theorem fields_translation : fields ',' (translation text imgname) =
    if foundIn text imgname = [] then fields ',' imgname
    else (foundIn text imgname).map sdName := by
  unfold translation
  split
  · rfl
  · exact fields_addNames _ (.inl rfl)

theorem nul_not_mem_translation (hnul : '\x00' ∉ imgname) : '\x00' ∉ translation text imgname := by
  unfold translation
  split
  · exact hnul
  · exact nul_not_mem_addNames _ List.not_mem_nil

end List

section Images

variable {ignored pt : List Char} {ptop : List PtOperation}

def IsTarget (pt : List Char) : Prop := pt.length < 8 ∧ ∀ c ∈ pt, Plain c

theorem operation_ptName (first pt : List Char) : (operation first pt).ptName = pt := by
  unfold operation
  split_ifs <;> rfl

theorem plain_of_processInput {text : List Char} {c : Char} (h : c ∈ processInput text) :
    c = ',' ∨ c = '\n' ∨ Plain c := by
  have hmem := List.mem_filter.mp h
  have hnul := List.mem_takeWhile_imp hmem.1
  have hkept := hmem.2
  simp only [ne_eq, decide_not, Bool.not_eq_true', Bool.and_eq_true, decide_eq_false_iff_not]
    at hnul hkept
  by_cases hcomma : c = ','
  · exact .inl hcomma
  · by_cases hnewline : c = '\n'
    · exact .inr (.inl hnewline)
    · refine .inr (.inr ?_)
      simp only [Plain, List.mem_cons, List.not_mem_nil, not_or, or_false]
      exact ⟨hcomma, hnewline, hkept.1.1, hkept.1.2, hkept.2, hnul⟩

theorem serializeLoop_targets {text : List Char} {lines : List (List Char)}
    {r : List PtOperation} (hlines : ∀ line ∈ lines, line ∈ linesOf text)
    (hptop : ∀ o ∈ ptop, IsTarget o.ptName) (h : serializeLoop lines ptop = some (some r)) :
    ∀ o ∈ r, IsTarget o.ptName := by
  induction lines generalizing ptop with
  | nil =>
    obtain rfl := Option.some.inj (Option.some.inj h)
    exact hptop
  | cons line lines ih =>
    rw [serializeLoop] at h
    rw [List.forall_mem_cons] at hlines
    split at h
    · obtain rfl := Option.some.inj (Option.some.inj h)
      exact hptop
    · split at h
      · next first pt hfields =>
        split at h
        · next hroom =>
          refine ih hlines.2 (fun o ho => ?_) h
          obtain ho | ho := List.mem_append.mp ho
          · exact hptop o ho
          · obtain rfl := List.mem_singleton.mp ho
            rw [operation_ptName]
            refine ⟨hroom.1, fun c hc => ?_⟩
            have hfield : pt ∈ fields ',' line := by
              rw [hfields]
              exact List.mem_cons_of_mem _ List.mem_cons_self
            obtain ⟨hcline, hcomma⟩ := mem_of_mem_fields hfield hc
            obtain ⟨hctext, hnewline⟩ := mem_of_mem_fields hlines.1 hcline
            exact ((plain_of_processInput hctext).resolve_left hcomma).resolve_left hnewline
        · cases h
      · split at h <;> cases h

theorem serialization_targets {images : List Char}
    (h : ptOperationSerialization images = some (some ptop)) : ∀ o ∈ ptop, IsTarget o.ptName :=
  serializeLoop_targets (fun _ h => h) (List.forall_mem_nil _) h

def oneImage (pt : List Char) : List Char := 'x' :: ',' :: (pt ++ [',', '\n'])

theorem serialization_oneImage (h : IsTarget pt) :
    ptOperationSerialization (oneImage pt) = some (some [⟨.burnImage, pt, ['x']⟩]) := by
  have hchar : ∀ c ∈ oneImage pt, c = 'x' ∨ c = ',' ∨ c = '\n' ∨ Plain c := by
    intro c hc
    simp only [oneImage, List.mem_cons, List.mem_append, List.not_mem_nil, or_false] at hc
    obtain hc | hc | hc | hc | hc := hc
    · exact .inl hc
    · exact .inr (.inl hc)
    · exact .inr (.inr (.inr (h.2 c hc)))
    · exact .inr (.inl hc)
    · exact .inr (.inr (.inl hc))
  have hself : processInput (oneImage pt) = oneImage pt := by
    rw [processInput, List.takeWhile_eq_self_iff.mpr, List.filter_eq_self.mpr]
    · intro c hc
      obtain rfl | rfl | rfl | hplain := hchar c hc
      · decide
      · decide
      · decide
      · simp [hplain.ne]
    · intro c hc
      obtain rfl | rfl | rfl | hplain := hchar c hc
      · decide
      · decide
      · decide
      · simp [hplain.ne]
  have hcomma : ',' ∉ pt := fun hmem => (h.2 _ hmem).ne (by decide) rfl
  have hnewline : '\n' ∉ 'x' :: ',' :: (pt ++ [',']) := by
    have hpt : '\n' ∉ pt := fun hmem => (h.2 _ hmem).ne (by decide) rfl
    simp [hpt]
  have hlines : fields '\n' (oneImage pt) = ['x' :: ',' :: (pt ++ [','])] := by
    have happend := fields_append [] hnewline
    simpa [oneImage, fields] using happend
  have hfields : fields ',' ('x' :: ',' :: (pt ++ [','])) = [['x'], pt] := by
    have hrest : fields ',' (pt ++ [',']) = [pt] := fields_append [] hcomma
    rw [fields, if_neg (by decide), fields, if_pos rfl, hrest]
  have hop : operation ['x'] pt = ⟨.burnImage, pt, ['x']⟩ := by
    rw [operation, if_neg (by decide), if_neg (by decide)]
  rw [ptOperationSerialization, linesOf, hself, hlines, serializeLoop, if_neg (by simp), hfields]
  dsimp only
  have hsmall : ['x'].length < 32 ∧ ([] : List PtOperation).length < maxGptPtNum := by decide
  rw [hop, if_pos ⟨h.1, hsmall⟩]
  rfl

theorem img2sd_filter (succeeds : PtOperation → Bool) {targets : List (List Char)}
    (h : ∀ o ∈ ptop, findStrInList ignored o.ptName ↔ o.ptName ∈ targets) :
    img2sd succeeds ignored ptop =
      img2sd succeeds [] (ptop.filter fun o => o.ptName ∉ targets) := by
  induction ptop with
  | nil => rfl
  | cons o ptop ih =>
    rw [List.forall_mem_cons] at h
    rw [img2sd]
    by_cases hmem : o.ptName ∈ targets
    · rw [if_pos (h.1.mpr hmem), List.filter_cons_of_neg (by simpa using hmem)]
      exact ih h.2
    · have hnone : ¬ findStrInList [] o.ptName := Bool.false_ne_true
      rw [if_neg (mt h.1.mp hmem), List.filter_cons_of_pos (by simpa using hmem), img2sd,
        if_neg hnone, ih h.2]

end Images

section Import

variable {n : ℕ} {lines rest names : List (List Char)} {b b' : Burner}
  {ps ps' : List DiskPartition} {ptStart ptSize : ℤ}

theorem parseRows_done (h : parseRows ps ptStart ptSize lines = .done ps' rest)
    (hps : ps.length ≤ maxGptPtNum) :
    ps'.length ≤ maxGptPtNum ∧
      ps'.map DiskPartition.name = ps.map DiskPartition.name ++ (block lines).map rowName ∧
      ∀ line ∈ block lines, 3 ≤ (fields ',' line).length ∧ (fields ',' line).length ≤ 4 := by
  induction lines generalizing ps ptStart ptSize with
  | nil =>
    cases h
    exact ⟨hps, (List.append_nil _).symm, List.forall_mem_nil _⟩
  | cons line lines ih =>
    by_cases hshort : line.length ≤ 1
    · have hblock : block (line :: lines) = [] :=
        List.takeWhile_cons_of_neg (by simpa using hshort)
      rw [parseRows, if_pos hshort] at h
      cases h
      rw [hblock]
      exact ⟨hps, (List.append_nil _).symm, List.forall_mem_nil _⟩
    · have hblock : block (line :: lines) = line :: block lines :=
        List.takeWhile_cons_of_pos (by simpa using hshort)
      obtain ⟨name, start, size, option, _, _, hfields, hoption, hroom, hrest⟩ :=
        parseRows_cons_done hshort h
      obtain ⟨hlen, hnames, hrows⟩ := ih hrest (by simpa using hroom)
      rw [hblock, List.forall_mem_cons, List.map_cons, rowName, hfields]
      refine ⟨hlen, ?_, ⟨?_, ?_⟩, hrows⟩
      · rw [hnames, List.map_append, List.append_assoc]
        rfl
      · simp
      · simp only [List.length_cons]
        omega

theorem gptFillPte_names {last offset : ℕ} {es : List GptEntry}
    (h : gptFillPte last offset ps = some es) :
    es.map GptEntry.name = ps.map DiskPartition.name ∧ ∀ e ∈ es, e.used := by
  induction ps generalizing offset es with
  | nil =>
    cases h
    exact ⟨rfl, List.forall_mem_nil _⟩
  | cons p ps ih =>
    rw [gptFillPte] at h
    dsimp only at h
    generalize (if p.start ≠ 0 then p.start else offset) = start at h
    split at h
    · cases h
    · split at h
      · cases h
      · obtain ⟨fs, hfs, heq⟩ := Option.bind_eq_some_iff.mp h
        obtain rfl := Option.some.inj heq
        obtain ⟨hnames, hused⟩ := ih hfs
        have hguid : basicDataGuid ≠ 0 := by decide
        exact ⟨congrArg (p.name :: ·) hnames,
          List.forall_mem_cons.mpr ⟨decide_eq_true hguid, hused⟩⟩

theorem gptRestore_names {lba : ℕ} {es : List GptEntry} (h : gptRestore lba ps = some es) :
    (es.filter GptEntry.used).map GptEntry.name = ps.map DiskPartition.name := by
  obtain ⟨fs, hfs, heq⟩ := Option.bind_eq_some_iff.mp h
  obtain rfl := Option.some.inj heq
  obtain ⟨hnames, hused⟩ := gptFillPte_names hfs
  have hpad : (List.replicate (gptEntryNumbers - fs.length) unusedEntry).filter GptEntry.used =
      [] := by
    refine List.filter_eq_nil_iff.mpr fun e he => ?_
    rw [(List.mem_replicate.mp he).2]
    decide
  rw [List.filter_append, hpad, List.append_nil, List.filter_eq_self.mpr hused, hnames]

theorem userNames_length (h : userNames n lines b = some names) : names.length ≤ maxGptPtNum := by
  induction n generalizing lines b with
  | zero => cases h
  | succ n ih =>
    have hspec := turn_spec lines b
    rw [userNames] at h
    split at h
    · next hturn =>
      rw [hturn] at hspec
      obtain h | ⟨-, h⟩ := Option.or_eq_some_iff.mp h
      · exact ih h
      · split at h
        · obtain rfl := Option.some.inj h
          rw [List.length_map]
          exact (parseRows_done hspec.1 (Nat.zero_le _)).1
        · cases h
    · cases h

theorem inUse_setGpt {part : ℕ} {h : HwPart} (hdev : b.hw part = some h) (es : List GptEntry) :
    inUse (setGpt part (some es) b).hw part = es.filter GptEntry.used := by
  unfold inUse table setGpt
  dsimp only
  rw [Function.update_self, hdev]
  rfl

theorem inUse_setGpt_of_ne {part q : ℕ} (hne : q ≠ part) (gpt : Option (List GptEntry)) :
    inUse (setGpt part gpt b).hw q = inUse b.hw q := by
  unfold inUse table setGpt
  dsimp only
  rw [Function.update_of_ne hne]

theorem inUse_clean {part q : ℕ} (hne : q ≠ part) (h : cleanMbrGptTable part b = (true, b')) :
    inUse b'.hw q = inUse b.hw q := by
  unfold cleanMbrGptTable at h
  dsimp only at h
  split at h
  · cases h
  · obtain rfl := (Prod.mk.inj h).2
    exact inUse_setGpt_of_ne hne none

theorem failed_ne {b₁ : Burner} (h : some ((-1 : ℤ), b₁) = some (0, b')) : False := by
  have hret : (-1 : ℤ) = 0 := congrArg Prod.fst (Option.some.inj h)
  exact absurd hret (by decide)

theorem userNames_inUse (h : parseSections n lines b = some (0, b')) :
    (inUse b'.hw emmcPartUser).map GptEntry.name =
      (userNames n lines b).getD ((inUse b.hw emmcPartUser).map GptEntry.name) := by
  induction n generalizing lines b with
  | zero =>
    cases h
    rfl
  | succ n ih =>
    have hspec := turn_spec lines b
    rw [parseSections_succ] at h
    rw [userNames]
    cases hturn : turn lines b with
    | ended =>
      rw [hturn] at h
      cases h
      rfl
    | unclean =>
      rw [hturn] at h
      exact (failed_ne h).elim
    | overrun =>
      rw [hturn] at h
      cases h
    | invalid =>
      rw [hturn] at h
      exact (failed_ne h).elim
    | unrestored =>
      rw [hturn] at h
      exact (failed_ne h).elim
    | restored part rows partitions rest b₂ =>
      rw [hturn] at h hspec
      obtain ⟨-, b₁, hw, es, hclean, hdev, hres, rfl⟩ := hspec
      dsimp only at h ⊢
      rw [ih h]
      cases userNames n rest { setGpt part (some es) b₁ with isGptReady := false } with
      | some names => rfl
      | none =>
        rw [Option.none_or, Option.getD_none]
        by_cases huser : part = emmcPartUser
        · subst huser
          rw [if_pos rfl, Option.getD_some, ← gptRestore_names hres]
          exact congrArg _ (inUse_setGpt hdev es)
        · rw [if_neg huser, Option.getD_none, ← inUse_clean (Ne.symm huser) hclean]
          exact congrArg _ (inUse_setGpt_of_ne (Ne.symm huser) _)

end Import

section Honoured

variable {text imgname pt : List Char} {names : List (List Char)} {room : ℕ}

theorem IsTarget.comma_not_mem (h : IsTarget pt) : ',' ∉ pt := fun hmem =>
  (h.2 _ hmem).ne (by decide) rfl

theorem findStrInList_translation (hnul : '\x00' ∉ imgname) (h : IsTarget pt) :
    findStrInList (translation text imgname) pt ↔ pt ∈ fields ',' (translation text imgname) :=
  findStrInList_iff h.comma_not_mem (nul_not_mem_translation hnul)

theorem honoured_iff_targets (hnul : '\x00' ∉ imgname) : Honoured text imgname room names ↔
    Translatable text imgname room ∧ ∀ pt, IsTarget pt →
      (pt ∈ fields ',' (translation text imgname) ↔ pt ∈ wanted imgname names) := by
  constructor
  · rintro ⟨list, hget, h⟩
    obtain ⟨htrans, rfl⟩ := (getPartNameFromImgName_iff hnul).mp hget
    refine ⟨htrans, fun pt hpt => ?_⟩
    rw [← findStrInList_translation hnul hpt]
    -- an image list with this target alone shows whether it is skipped
    have hone := h (oneImage pt) _ (fun _ => true) (serialization_oneImage hpt)
    rw [img2sd] at hone
    by_cases hwanted : pt ∈ wanted imgname names
    · refine iff_of_true ?_ hwanted
      by_contra hfind
      rw [if_neg hfind, List.filter_cons_of_neg (by simpa using hwanted)] at hone
      cases hone
    · refine iff_of_false (fun hfind => ?_) hwanted
      rw [if_pos hfind, List.filter_cons_of_pos (by simpa using hwanted)] at hone
      cases hone
  · rintro ⟨htrans, h⟩
    refine ⟨_, (getPartNameFromImgName_iff hnul).mpr ⟨htrans, rfl⟩, ?_⟩
    intro images ptop succeeds hser
    refine img2sd_filter succeeds fun o ho => ?_
    have htarget := serialization_targets hser o ho
    rw [findStrInList_translation hnul htarget]
    exact h o.ptName htarget

theorem isTarget_sdName {n : ℕ} (h : (sdName n).length < 8) : IsTarget (sdName n) :=
  ⟨h, sdName_plain n⟩

theorem mem_map_sdName {n : ℕ} {ns : List ℕ} : sdName n ∈ ns.map sdName ↔ n ∈ ns :=
  List.mem_map_of_injective sdName_injective

theorem length_sdName_lt {n : ℕ} (h : n ≤ maxGptPtNum) : (sdName n).length < 8 := by
  have hall : ∀ n ≤ maxGptPtNum, (sdName n).length < 8 := by decide
  exact hall n h

theorem le_of_mem_numbers {listed : List (List Char)} {n : ℕ} (hnames : names.length ≤ maxGptPtNum)
    (h : n ∈ numbers listed 0 names) : n ≤ maxGptPtNum := by
  obtain ⟨i, name, rfl, hname, -⟩ := mem_numbers_iff.mp h
  have hlt := (List.getElem?_eq_some_iff.mp hname).1
  omega

theorem userNamesOf_length (text : List Char) (b : Burner) :
    ((userNamesOf text b).getD []).length ≤ maxGptPtNum := by
  cases h : userNamesOf text b with
  | none => exact Nat.zero_le _
  | some names =>
    unfold userNamesOf at h
    split at h
    · cases h
    · split at h
      · cases h
      · exact userNames_length h

def SameNumbers (text imgname : List Char) (names : List (List Char)) : Prop :=
  (∀ n, n ∈ foundIn text imgname ↔ n ∈ numbers (fields ',' imgname) 0 names) ∨
    foundIn text imgname = [] ∧
      ∀ pt, IsTarget pt → (pt ∈ fields ',' imgname ↔ pt ∈ wanted imgname names)

theorem honoured_iff_numbers (hnul : '\x00' ∉ imgname)
    (hlist : ∀ name ∈ fields ',' imgname, name ∈ names) (hlen : names.length ≤ maxGptPtNum) : Honoured text imgname room names ↔
      Translatable text imgname room ∧ SameNumbers text imgname names := by
  rw [honoured_iff_targets hnul, fields_translation]
  refine and_congr_right fun htrans => ?_
  by_cases hfound : foundIn text imgname = []
  · rw [if_pos hfound]
    refine ⟨fun h => .inr ⟨hfound, h⟩, ?_⟩
    rintro (hnumbers | h) pt hpt
    · -- nothing is listed, as a listed name has a number
      have hnone (pt : List Char) : pt ∉ fields ',' imgname := by
        intro hmem
        obtain ⟨i, hi⟩ := List.mem_iff_getElem?.mp (hlist pt hmem)
        have hnumber := (hnumbers (0 + i + 1)).mpr (mem_numbers_iff.mpr ⟨i, pt, rfl, hi, hmem⟩)
        rw [hfound] at hnumber
        cases hnumber
      refine iff_of_false (hnone pt) fun hmem => ?_
      obtain ⟨n, hn, -⟩ := List.mem_map.mp hmem
      obtain ⟨i, name, -, -, hlisted⟩ := mem_numbers_iff.mp hn
      exact hnone name hlisted
    · exact h.2 pt hpt
  · rw [if_neg hfound]
    constructor
    · intro h
      refine .inl fun n => ⟨fun hn => ?_, fun hn => ?_⟩
      · have htarget := isTarget_sdName (htrans.fits.names n hn)
        exact mem_map_sdName.mp ((h _ htarget).mp (mem_map_sdName.mpr hn))
      · have htarget := isTarget_sdName (length_sdName_lt (le_of_mem_numbers hlen hn))
        exact mem_map_sdName.mp ((h _ htarget).mpr (mem_map_sdName.mpr hn))
    · rintro (hnumbers | h) pt -
      · constructor
        · intro hmem
          obtain ⟨n, hn, rfl⟩ := List.mem_map.mp hmem
          exact mem_map_sdName.mpr ((hnumbers n).mp hn)
        · intro hmem
          obtain ⟨n, hn, rfl⟩ := List.mem_map.mp hmem
          exact mem_map_sdName.mpr ((hnumbers n).mpr hn)
      · exact absurd h.1 hfound

end Honoured

/-- The list is honoured exactly if it can be translated and both parsers give the same numbers. -/
theorem skip_list_honoured_iff (text imgname : List Char) (room : ℕ) (b : Burner)
    (hnul : '\x00' ∉ imgname)
    (hlist : ∀ name ∈ fields ',' imgname, name ∈ (userNamesOf text b).getD []) :
    Honoured text imgname room ((userNamesOf text b).getD []) ↔
      Translatable text imgname room ∧
        SameNumbers text imgname ((userNamesOf text b).getD []) :=
  honoured_iff_numbers hnul hlist (userNamesOf_length text b)

theorem skip_list_honoured_root :
    Honoured otherList "root".toList 16 ((userNamesOf otherList (poweron blank 0)).getD []) := by
  have hnumbers : foundIn otherList "root".toList = numbers (fields ',' "root".toList) 0
      ((userNamesOf otherList (poweron blank 0)).getD []) := by decide +kernel
  have hgpt : IsGpt otherList := ⟨"#GPT".toList, by decide, by decide⟩
  have htrans : Translatable otherList "root".toList 16 :=
    ⟨hgpt, by decide, ⟨by decide, by decide⟩, fun _ => by decide⟩
  refine (skip_list_honoured_iff otherList "root".toList 16 (poweron blank 0) (by decide)
    (by decide +kernel)).mpr ⟨htrans, .inl fun n => ?_⟩
  rw [hnumbers]

theorem userNames_inUse_root : ∃ b',
    parseSections 5 (linesOf otherList).tail (poweron blank 0) = some (0, b') ∧
    (inUse b'.hw emmcPartUser).map GptEntry.name =
      (userNames 5 (linesOf otherList).tail (poweron blank 0)).getD
        ((inUse (poweron blank 0).hw emmcPartUser).map GptEntry.name) := by
  have hret : (parseSections 5 (linesOf otherList).tail (poweron blank 0)).map Prod.fst = some 0 := by
    decide +kernel
  obtain ⟨⟨ret, b'⟩, hb, rfl⟩ := Option.map_eq_some_iff.mp hret
  exact ⟨b', hb, userNames_inUse hb⟩

theorem rows_of_parseSections {n part : ℕ} {lines : List (List Char)} {b b' : Burner}
    (h : parseSections (n + 1) lines b = some (0, b'))
    (hplain : (getLine lines).bind sectionPart = some (part, false)) :
    ∀ line ∈ block lines, 3 ≤ (fields ',' line).length ∧ (fields ',' line).length ≤ 4 := by
  rw [parseSections, hplain] at h
  dsimp only at h
  split at h
  · exact (failed_ne h).elim
  · split at h
    · cases h
    · exact (failed_ne h).elim
    · next hrows => exact (parseRows_done hrows (Nat.zero_le _)).2.2

theorem honoured_plain_iff {text imgname : List Char} {room : ℕ} {b b' : Burner}
    (hnul : '\x00' ∉ imgname) (himport : parsePartAndGenGpt text b = some (0, b'))
    (hgpt : IsGpt text)
    (hplain : (getLine (linesOf text).tail).bind sectionPart = some (emmcPartUser, false))
    (hnames : userNamesOf text b = some ((block (linesOf text).tail).map rowName))
    (hlist : ∀ name ∈ fields ',' imgname, name ∈ (block (linesOf text).tail).map rowName) :
    Honoured text imgname room ((userNamesOf text b).getD []) ↔
      Fits [] (foundIn text imgname) ∧
        (foundIn text imgname ≠ [] → (addNames [] (foundIn text imgname)).length < room) := by
  have hlen := userNamesOf_length text b
  rw [hnames, Option.getD_some] at hlen ⊢
  rw [honoured_iff_numbers hnul hlist hlen]
  constructor
  · exact fun h => ⟨h.1.fits, h.1.room⟩
  · rintro ⟨hfits, hroom⟩
    refine ⟨⟨hgpt, ?_, hfits, hroom⟩, .inl fun n => Iff.rfl⟩
    obtain ⟨line, hline, hfour⟩ := hgpt
    have hsections : parseSections 5 (linesOf text).tail b = some (0, b') := by
      unfold parsePartAndGenGpt at himport
      rw [← himport]
      change _ = match getLine (linesOf text) with
        | none => some (-1, b)
        | some line => if line.length ≠ 4 ∧ line.take 4 ≠ "#GPT".toList then some (0, b)
          else parseSections 5 (linesOf text).tail b
      rw [hline]
      dsimp only
      rw [if_neg hfour]
    exact rows_of_parseSections hsections hplain

def udaList : List Char := "#GPT\n#UDA\nboot,16,8,\n".toList

theorem named_section_refused :
    (parsePartAndGenGpt udaList (poweron blank 0)).map Prod.fst = some 0 ∧
      userNamesOf udaList (poweron blank 0) = some ["boot".toList] ∧
      ∀ room, getPartNameFromImgName udaList "boot".toList room = some none := by
  refine ⟨by decide +kernel, by decide +kernel, fun room => ?_⟩
  rfl

end SynaBoot.SkipList
