import SynaBoot.FlashTs
import SynaBoot.StringArea

namespace SynaBoot.FlashStrings

open SynaBoot.FlashRecord SynaBoot.FlashTs SynaBoot.StringArea

def entry (key value : List UInt8) : List UInt8 := key ++ equalsSign :: value

def IsEntry (key s : List UInt8) : Prop := ∃ w, s = entry key w

instance (key s : List UInt8) : Decidable (IsEntry key s) :=
  decidable_of_iff ((key ++ [equalsSign]) <+: s) (by
    constructor
    · rintro ⟨w, rfl⟩
      exact ⟨w, by simp [entry]⟩
    · rintro ⟨w, rfl⟩
      exact ⟨w, by simp [entry]⟩)

theorem match_iff {key s t : List UInt8} (hkey : (0 : UInt8) ∉ key) :
    (s ++ 0 :: t).take key.length = key ∧ (s ++ 0 :: t).getD key.length 0 = equalsSign ↔
      IsEntry key s := by
  constructor
  · rintro ⟨ht, he⟩
    have hlt : key.length < s.length := by
      by_contra hge
      rcases Nat.lt_or_eq_of_le (Nat.le_of_not_lt hge) with hlt | heq
      · apply hkey
        rw [← ht]
        refine List.mem_take_iff_getElem.mpr ⟨s.length, ?_, ?_⟩
        · simp only [List.length_append, List.length_cons]
          omega
        · simp
      · rw [← heq, List.getD_eq_getElem?_getD, List.getElem?_append_right le_rfl] at he
        simp only [Nat.sub_self, List.getElem?_cons_zero, Option.getD_some] at he
        exact absurd he (by decide)
    rw [List.take_append_of_le_length hlt.le] at ht
    rw [List.getD_eq_getElem?_getD, List.getElem?_append_left hlt,
      List.getElem?_eq_getElem hlt, Option.getD_some] at he
    refine ⟨s.drop (key.length + 1), ?_⟩
    calc s = s.take key.length ++ s.drop key.length := (List.take_append_drop _ _).symm
      _ = key ++ equalsSign :: s.drop (key.length + 1) := by
        rw [ht, List.drop_eq_getElem_cons hlt, he]
  · rintro ⟨w, rfl⟩
    simp [entry]

theorem keySearchLoop_eq (key : List UInt8) (hkey : (0 : UInt8) ∉ key) (fuel pos : Nat)
    (ss : List (List UInt8)) (tail : List UInt8) (hss : Strings 0 ss) (hf : ss.length < fuel) :
    (∃ xs s ys, ss = xs ++ s :: ys ∧ IsEntry key s ∧ (∀ x ∈ xs, ¬ IsEntry key x) ∧
        flashTsKeySearchLoop key fuel pos (area 0 ss ++ tail) = some (pos + (table 0 xs).length)) ∨
      ((∀ x ∈ ss, ¬ IsEntry key x) ∧
        flashTsKeySearchLoop key fuel pos (area 0 ss ++ tail) = none) := by
  induction ss generalizing fuel pos with
  | nil =>
    cases fuel with
    | zero => simp at hf
    | succ fuel => exact .inr ⟨by simp, by simp [flashTsKeySearchLoop, area_nil]⟩
  | cons s ss ih =>
    cases fuel with
    | zero => simp at hf
    | succ fuel =>
      obtain ⟨hne, hs0⟩ := hss s (by simp)
      have hl : area 0 (s :: ss) ++ tail = s ++ 0 :: (area 0 ss ++ tail) := by
        rw [area_cons, List.append_assoc, List.cons_append]
      have hhead : (s ++ 0 :: (area 0 ss ++ tail)).headD 0 ≠ 0 := by
        cases s with
        | nil => exact absurd rfl hne
        | cons b s => exact fun he => hs0 (List.mem_cons.mpr (.inl (Eq.symm he)))
      have hlen : strlen (s ++ 0 :: (area 0 ss ++ tail)) = s.length := by
        rw [strlen, takeWhile_terminated 0 hs0]
      rw [hl]
      by_cases hm : IsEntry key s
      · refine .inl ⟨[], s, ss, rfl, hm, by simp, ?_⟩
        rw [flashTsKeySearchLoop, if_neg hhead, if_pos ((match_iff hkey).mpr hm)]
        rfl
      · have hstep : flashTsKeySearchLoop key (fuel + 1) pos (s ++ 0 :: (area 0 ss ++ tail)) =
            flashTsKeySearchLoop key fuel (pos + (s.length + 1)) (area 0 ss ++ tail) := by
          rw [flashTsKeySearchLoop, if_neg hhead, if_neg (fun hc => hm ((match_iff hkey).mp hc)),
            hlen]
          congr 1
          simp
        rw [hstep]
        rcases ih fuel (pos + (s.length + 1)) (fun x hx => hss x (by simp [hx]))
          (by simpa using hf) with ⟨xs, t, ys, rfl, ht, hxs, hr⟩ | ⟨hno, hr⟩
        · refine .inl ⟨s :: xs, t, ys, rfl, ht, ?_, ?_⟩
          · intro x hx
            rcases List.mem_cons.mp hx with rfl | hx
            · exact hm
            · exact hxs x hx
          · rw [hr]
            simp only [table, List.flatMap_cons, List.length_append, List.length_singleton]
            congr 1
            omega
        · refine .inr ⟨?_, hr⟩
          intro x hx
          rcases List.mem_cons.mp hx with rfl | hx
          · exact hm
          · exact hno x hx

/-- The used data of a record are the given strings. -/
structure Represents (c : FlashTs) (ss : List (List UInt8)) : Prop where
  strings : Strings 0 ss
  len : c.len.toNat = (area 0 ss).length
  contents : contents c = area 0 ss

variable {c : FlashTs} {ss : List (List UInt8)}

theorem Represents.fits (h : Represents c ss) : (area 0 ss).length ≤ flashTsMaxDataSize := by
  have hlen := congrArg List.length h.contents
  rw [FlashRecord.contents, List.length_take, c.data.2] at hlen
  omega

theorem Represents.data (h : Represents c ss) :
    c.data.1 = area 0 ss ++ c.data.1.drop (area 0 ss).length := by
  conv_lhs => rw [← List.take_append_drop (area 0 ss).length c.data.1]
  rw [← h.len]
  exact congrArg (· ++ _) h.contents

theorem strings_length_lt (ss : List (List UInt8)) : ss.length < (area 0 ss).length := by
  induction ss with
  | nil => simp [area_nil]
  | cons s ss ih =>
    rw [area_cons]
    simp only [List.length_cons, List.length_append]
    omega

theorem keySearch_eq (h : Represents c ss) (key : List UInt8) (hkey : (0 : UInt8) ∉ key) :
    (∃ xs s ys, ss = xs ++ s :: ys ∧ IsEntry key s ∧ (∀ x ∈ xs, ¬ IsEntry key x) ∧
        flashTsKeySearch c.data.1 key = some (table 0 xs).length) ∨
      ((∀ x ∈ ss, ¬ IsEntry key x) ∧ flashTsKeySearch c.data.1 key = none) := by
  have hlt := strings_length_lt ss
  have hfits := h.fits
  have hs := keySearchLoop_eq key hkey c.data.1.length 0 ss (c.data.1.drop (area 0 ss).length)
    h.strings (by rw [c.data.2]; omega)
  rw [← h.data] at hs
  simpa only [Nat.zero_add, flashTsKeySearch] using hs

/-- The first entry is replaced, or removed for an empty value. -/
def put (key value : List UInt8) : List (List UInt8) → List (List UInt8)
  | [] => if value = [] then [] else [entry key value]
  | s :: ss =>
    if IsEntry key s then if value = [] then ss else entry key value :: ss
    else s :: put key value ss

theorem put_found {key : List UInt8} (value : List UInt8) {xs : List (List UInt8)}
    {s : List UInt8} (ys : List (List UInt8)) (hxs : ∀ x ∈ xs, ¬ IsEntry key x)
    (hs : IsEntry key s) :
    put key value (xs ++ s :: ys) =
      xs ++ (if value = [] then ys else entry key value :: ys) := by
  induction xs with
  | nil => simp [put, hs]
  | cons x xs ih =>
    rw [List.cons_append, put, if_neg (hxs x (by simp)), ih (fun y hy => hxs y (by simp [hy]))]
    rfl

theorem put_missing {key : List UInt8} (value : List UInt8) (hss : ∀ x ∈ ss, ¬ IsEntry key x) :
    put key value ss = if value = [] then ss else ss ++ [entry key value] := by
  induction ss with
  | nil => simp [put]
  | cons x xs ih =>
    rw [put, if_neg (hss x (by simp)), ih (fun y hy => hss y (by simp [hy]))]
    split <;> rfl

theorem length_entry (key value : List UInt8) :
    (entry key value).length = key.length + 1 + value.length := by
  simp only [entry, List.length_append, List.length_cons]
  omega

variable {key value : List UInt8}

theorem string_entry (hkey : (0 : UInt8) ∉ key) (hvalue : (0 : UInt8) ∉ value) :
    entry key value ≠ [] ∧ (0 : UInt8) ∉ entry key value := by
  refine ⟨by simp [entry], ?_⟩
  simp only [entry, List.mem_append, List.mem_cons, not_or]
  exact ⟨hkey, by decide, hvalue⟩

theorem strings_put (h : Strings 0 ss) (hkey : (0 : UInt8) ∉ key) (hvalue : (0 : UInt8) ∉ value) :
    Strings 0 (put key value ss) := by
  have he := string_entry hkey hvalue
  induction ss with
  | nil =>
    intro s hs
    rw [put] at hs
    split at hs
    · simp at hs
    · rw [List.mem_singleton.mp hs]
      exact he
  | cons t ss ih =>
    have ht := h t (by simp)
    have hss : Strings 0 ss := fun s hs => h s (by simp [hs])
    intro s hs
    rw [put] at hs
    split at hs
    · split at hs
      · exact hss s hs
      · rcases List.mem_cons.mp hs with rfl | hs
        · exact he
        · exact hss s hs
    · rcases List.mem_cons.mp hs with rfl | hs
      · exact ht
      · exact ih hss s hs

theorem represents_of_data {t : List UInt8} (hss : Strings 0 ss) (hdata : c.data.1 = area 0 ss ++ t)
    (hlen : c.len = UInt32.ofNat (area 0 ss).length) : Represents c ss := by
  have hfits : (area 0 ss).length ≤ flashTsMaxDataSize := by
    rw [← c.data.2, hdata, List.length_append]
    omega
  have hnat : c.len.toNat = (area 0 ss).length := by
    rw [hlen, UInt32.toNat_ofNat']
    apply Nat.mod_eq_of_lt
    simp only [flashTsMaxDataSize, flashTsMaxSize, flashTsHdrSize] at hfits
    omega
  refine ⟨hss, hnat, ?_⟩
  rw [FlashRecord.contents, hnat, hdata, List.take_left']
  rfl

theorem length_area_split (xs ys : List (List UInt8)) (s : List UInt8) :
    (area 0 (xs ++ s :: ys)).length = (table 0 xs).length + s.length + 1 + (area 0 ys).length := by
  simp only [area_split, List.length_append, List.length_cons]
  omega

theorem move_data {n p : Nat} (d : Bytes n) {a : List UInt8} (h : p + a.length ≤ n) :
    (overwrite d p a).1.take p = d.1.take p ∧ ∃ t, (overwrite d p a).1.drop p = a ++ t := by
  have hp : (d.1.take p).length = p := by
    rw [List.length_take, d.2]
    omega
  rw [overwrite_eq _ _ _ h]
  refine ⟨?_, d.1.drop (p + a.length), ?_⟩
  · rw [List.take_left' hp]
  · rw [List.drop_left' hp]

section

variable {c : FlashTs} {xs ys : List (List UInt8)} {key w value : List UInt8}

theorem data_around (h : Represents c (xs ++ entry key w :: ys)) :
    ∃ t, c.data.1 = table 0 xs ++ (entry key w ++ 0 :: (area 0 ys ++ t)) := by
  refine ⟨c.data.1.drop (area 0 (xs ++ entry key w :: ys)).length, ?_⟩
  conv_lhs => rw [h.data]
  rw [area_split]
  simp only [List.append_assoc, List.cons_append]

theorem take_before (h : Represents c (xs ++ entry key w :: ys)) :
    c.data.1.take (table 0 xs).length = table 0 xs := by
  obtain ⟨t, hd⟩ := data_around h
  rw [hd, List.take_left']
  rfl

theorem take_key (h : Represents c (xs ++ entry key w :: ys)) :
    c.data.1.take ((table 0 xs).length + key.length + 1) =
      table 0 xs ++ (key ++ [equalsSign]) := by
  obtain ⟨t, hd⟩ := data_around h
  have he : entry key w ++ 0 :: (area 0 ys ++ t) =
      (key ++ [equalsSign]) ++ (w ++ 0 :: (area 0 ys ++ t)) := by simp [entry]
  have hk : key.length + 1 = (key ++ [equalsSign]).length := by simp
  rw [hd, Nat.add_assoc, List.take_length_add_append, he, hk, List.take_left']
  rfl

theorem strlen_entry (h : Represents c (xs ++ entry key w :: ys))
    (hw : (0 : UInt8) ∉ entry key w) :
    strlen (c.data.1.drop (table 0 xs).length) = (entry key w).length := by
  obtain ⟨t, hd⟩ := data_around h
  rw [hd, List.drop_left', strlen, takeWhile_terminated 0 hw]
  rfl

theorem drop_entry (h : Represents c (xs ++ entry key w :: ys)) :
    ∃ t, c.data.1.drop ((table 0 xs).length + ((entry key w).length + 1)) = area 0 ys ++ t := by
  obtain ⟨t, hd⟩ := data_around h
  refine ⟨t, ?_⟩
  rw [hd, List.drop_length_add_append]
  simp

theorem rest_after (h : Represents c (xs ++ entry key w :: ys)) :
    (c.data.1.drop ((table 0 xs).length + ((entry key w).length + 1))).take
      (c.len.toNat - ((table 0 xs).length + ((entry key w).length + 1))) = area 0 ys := by
  obtain ⟨t, hd⟩ := drop_entry h
  have hlen := h.len
  rw [length_area_split] at hlen
  have hn : c.len.toNat - ((table 0 xs).length + ((entry key w).length + 1)) =
      (area 0 ys).length := by omega
  rw [hd, hn, List.take_left']
  rfl

theorem value_at (h : Represents c (xs ++ entry key w :: ys)) (hw : (0 : UInt8) ∉ entry key w) :
    (c.data.1.drop ((table 0 xs).length + key.length + 1)).takeWhile (· ≠ 0) = w := by
  obtain ⟨t, hd⟩ := data_around h
  have hw' : (0 : UInt8) ∉ w := fun hm => hw (by simp [entry, hm])
  rw [hd, Nat.add_assoc, List.drop_length_add_append, entry, List.append_assoc,
    List.drop_length_add_append]
  exact takeWhile_terminated 0 hw' _

theorem represents_removed (h : Represents c (xs ++ entry key w :: ys)) {c' : FlashTs}
    (hdata : c'.data = overwrite c.data (table 0 xs).length (area 0 ys))
    (hlen : c'.len = UInt32.ofNat (c.len.toNat - ((entry key w).length + 1))) :
    Represents c' (xs ++ ys) := by
  have hfits := h.fits
  have hlen' := h.len
  have hta := length_table_le (0 : UInt8) xs ys
  rw [length_area_split] at hfits hlen'
  obtain ⟨htake, t, ht⟩ := move_data (p := (table 0 xs).length) c.data (a := area 0 ys) (by omega)
  refine represents_of_data (t := t) ?_ ?_ ?_
  · intro s hs
    refine h.strings s ?_
    rcases List.mem_append.mp hs with hs | hs <;> simp [hs]
  · rw [hdata, ← List.take_append_drop (table 0 xs).length (overwrite _ _ _).1, htake, ht,
      take_before h, area, area, table_append]
    simp
  · rw [hlen, ← hta]
    congr 1
    omega

theorem represents_written {d : Bytes flashTsMaxDataSize} {t : List UInt8}
    (hss : Strings 0 (xs ++ entry key value :: ys))
    (hfits : (area 0 (xs ++ entry key value :: ys)).length ≤ flashTsMaxDataSize)
    (htake : d.1.take ((table 0 xs).length + key.length + 1) = table 0 xs ++ (key ++ [equalsSign]))
    (hdrop : d.1.drop ((table 0 xs).length + ((entry key value).length + 1)) = area 0 ys ++ t)
    {c' : FlashTs}
    (hdata : c'.data = overwrite d ((table 0 xs).length + key.length + 1) (value ++ [0]))
    (hlen : c'.len.toNat = (area 0 (xs ++ entry key value :: ys)).length) :
    Represents c' (xs ++ entry key value :: ys) := by
  have hvl := length_entry key value
  have hsplit := length_area_split xs ys (entry key value)
  have hsum : (table 0 xs).length + key.length + 1 + (value ++ [(0 : UInt8)]).length =
      (table 0 xs).length + ((entry key value).length + 1) := by
    simp only [List.length_append, List.length_singleton, hvl]
    omega
  refine represents_of_data (t := t) hss ?_ ?_
  · rw [hdata, overwrite_eq _ _ _ (by omega), hsum, htake, hdrop, area_split]
    simp [entry]
  · rw [← hlen, UInt32.ofNat_toNat]

def Amounts (c : FlashTs) (ss ss' : List (List UInt8)) : Update → Prop
  | .same => ss' = ss
  | .noSpace => flashTsMaxDataSize < (area 0 ss').length
  | .changed c' => Represents c' ss' ∧ c'.version = c.version ∧ c'.magic = c.magic

theorem replaceEntry_remove (h : Represents c (xs ++ entry key w :: ys))
    (hw : (0 : UInt8) ∉ entry key w) :
    Amounts c (xs ++ entry key w :: ys) (xs ++ ys)
      (replaceEntry c (table 0 xs).length key.length []) := by
  have hfits := h.fits
  have hlen := h.len
  rw [replaceEntry, strlen_entry h hw, rest_after h]
  simp only [List.length_nil, ne_eq, not_true_eq_false, if_false, Nat.add_zero, Nat.add_one_ne_zero,
    not_false_eq_true, if_true, writeValue]
  rw [if_neg (by omega)]
  exact ⟨represents_removed h rfl rfl, rfl, rfl⟩

theorem replaceEntry_replace (h : Represents c (xs ++ entry key w :: ys))
    (hw : (0 : UInt8) ∉ entry key w) (hss : Strings 0 (xs ++ entry key value :: ys))
    (hv : value ≠ []) :
    Amounts c (xs ++ entry key w :: ys) (xs ++ entry key value :: ys)
      (replaceEntry c (table 0 xs).length key.length value) := by
  have hv0 : value.length ≠ 0 := fun he => hv (List.eq_nil_of_length_eq_zero he)
  have hfits := h.fits
  have hlen := h.len
  have hwl := length_entry key w
  have hvl := length_entry key value
  have hsplit := length_area_split xs ys (entry key value)
  have hnew : key.length + 1 + value.length + 1 = (entry key value).length + 1 := by omega
  rw [length_area_split] at hlen hfits
  rw [replaceEntry, strlen_entry h hw, rest_after h, value_at h hw]
  simp only [ne_eq, hv0, not_false_eq_true, if_true, hnew, writeValue]
  split
  · split
    · next hbig =>
      change flashTsMaxDataSize < _
      omega
    · next hle =>
      have hmove : (table 0 xs).length + ((entry key value).length + 1) + (area 0 ys).length ≤
          flashTsMaxDataSize := by omega
      obtain ⟨htake, t, ht⟩ := move_data c.data hmove
      refine ⟨represents_written hss (by omega) ?_ ht rfl ?_, rfl, rfl⟩
      · have hmin : (table 0 xs).length + key.length + 1 =
            min ((table 0 xs).length + key.length + 1)
              ((table 0 xs).length + ((entry key value).length + 1)) := by omega
        rw [hmin, ← List.take_take, htake, List.take_take, ← hmin, take_key h]
      · rw [UInt32.toNat_ofNat']
        simp only [flashTsMaxDataSize, flashTsMaxSize, flashTsHdrSize] at hle
        omega
  · next heq =>
    split
    · next hsame =>
      rw [← hsame]
      rfl
    · obtain ⟨t, ht⟩ := drop_entry h
      have hl : (entry key w).length = (entry key value).length := by omega
      rw [hl] at ht
      have hlen' : c.len.toNat = (area 0 (xs ++ entry key value :: ys)).length := by omega
      exact ⟨represents_written hss (by omega) (take_key h) ht rfl hlen', rfl, rfl⟩

end

theorem appendEntry_spec (h : Represents c ss) (hss : Strings 0 (ss ++ [entry key value]))
    (hv : value ≠ []) : Amounts c ss (ss ++ [entry key value]) (appendEntry c key value) := by
  have hv0 : value.length ≠ 0 := fun he => hv (List.eq_nil_of_length_eq_zero he)
  have hlen := h.len
  have hvl := length_entry key value
  have hsplit := length_area_split ss [] (entry key value)
  have hlt : (area 0 ss).length = (table 0 ss).length + 1 := by simp [area]
  have hnil : (area 0 ([] : List (List UInt8))).length = 1 := rfl
  rw [appendEntry]
  simp only [hv0, if_false]
  split
  · change flashTsMaxDataSize < _
    omega
  · next hle =>
    have hpos : c.len.toNat - 1 = (table 0 ss).length := by omega
    have htab : c.data.1.take (table 0 ss).length = table 0 ss := by
      conv_lhs => rw [h.data, area, List.append_assoc]
      rw [List.take_left']
      rfl
    have hnew : (key ++ equalsSign :: (value ++ [0, 0])).length = (entry key value).length + 2 := by
      simp only [entry, List.length_append, List.length_cons, List.length_nil]
      omega
    refine ⟨represents_of_data (t := c.data.1.drop ((table 0 ss).length +
      (key ++ equalsSign :: (value ++ [0, 0])).length)) hss ?_ ?_, rfl, rfl⟩
    · simp only [hpos]
      rw [overwrite_eq _ _ _ (by omega), htab, area_append]
      simp only [entry, List.append_assoc, List.cons_append]
    · simp only
      congr 1
      omega

theorem updateCache_spec (h : Represents c ss) (hkey : (0 : UInt8) ∉ key)
    (hvalue : (0 : UInt8) ∉ value) : Amounts c ss (put key value ss) (updateCache c key value) := by
  have hput := strings_put h.strings hkey hvalue
  rcases keySearch_eq h key hkey with ⟨xs, s, ys, rfl, hs, hxs, hr⟩ | ⟨hno, hr⟩
  · rw [updateCache, hr]
    rw [put_found value ys hxs hs] at hput ⊢
    obtain ⟨w, rfl⟩ := hs
    have hw := (h.strings (entry key w) (by simp)).2
    by_cases hv : value = []
    · subst hv
      rw [if_pos rfl]
      exact replaceEntry_remove h hw
    · rw [if_neg hv] at hput ⊢
      exact replaceEntry_replace h hw hput hv
  · rw [updateCache, hr]
    rw [put_missing value hno] at hput ⊢
    by_cases hv : value = []
    · subst hv
      rfl
    · rw [if_neg hv] at hput ⊢
      exact appendEntry_spec h hput hv

end SynaBoot.FlashStrings
