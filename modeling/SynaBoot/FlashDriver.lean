import SynaBoot.FlashSlots

namespace SynaBoot.FlashDriver

open SynaBoot.PowerCut SynaBoot.FlashDevice SynaBoot.FlashRecord SynaBoot.FlashTs
open SynaBoot.FlashSlots

def stored (wr : Nat → Outcome) : Nat → Nat → Nat
  | 0, _ => 0
  | n + 1, k =>
    match wr k with
    | .ok => stored wr n (k + 1) + 1
    | .fail changed => if changed then 1 else 0
    | .cut _ => 0

theorem stored_le (wr : Nat → Outcome) (n k : Nat) : stored wr n k ≤ n := by
  induction n generalizing k with
  | zero => exact le_rfl
  | succ n ih =>
    rw [stored]
    split
    · exact Nat.succ_le_succ (ih (k + 1))
    · split <;> omega
    · omega

theorem stored_ok {wr : Nat → Outcome} {n k : Nat} (h : ∀ i < n, wr (k + i) = .ok) :
    stored wr n k = n := by
  induction n generalizing k with
  | zero => rfl
  | succ n ih =>
    have h0 := h 0 (by omega)
    rw [Nat.add_zero] at h0
    rw [stored, h0]
    simp only
    rw [ih]
    intro i hi
    rw [Nat.add_assoc, Nat.add_comm 1]
    exact h (i + 1) (by omega)

theorem wp_flashErase (g : Geometry) (o : Outcome) (off : Nat) (f : Flash) :
    wp (flashErase g o off)
      (fun res f' => (o = .ok ∧ res = 0 ∧ f' = eraseWhere g (fun _ => true) f (base g + off)) ∨
        ((∃ c, o = .fail c) ∧ res ≠ 0 ∧ f' = f))
      (fun f' => ∃ mask, o = .cut mask ∧ f' = eraseWhere g mask f (base g + off)) f := by
  cases o with
  | ok => exact .inl ⟨rfl, rfl, rfl⟩
  | fail c => exact .inr ⟨⟨c, rfl⟩, by decide, rfl⟩
  | cut mask => exact ⟨mask, rfl, rfl⟩

section

variable {g : Geometry} (hg : Usable g)
include hg

theorem nandWritePage_eq (o : Outcome) (page : Nat) {buf : List UInt8}
    (hbuf : buf.length = g.pageSize) (f : Flash) :
    nandWritePage g o page buf f =
      match o with
      | .ok => .ret 0 (store f (page * g.pageSize) buf)
      | .fail changed => .ret (-1) (if changed then store f (page * g.pageSize) buf else f)
      | .cut _ => .cut f := by
  rw [nandWritePage, if_neg (by omega)]
  simp only [nFlashPageWrite, transferable_eq hg, if_true]
  cases o <;> rfl

theorem wp_flashWriteLoop (wr : Nat → Outcome) (n fuel k page : Nat) (buf : List UInt8) (f : Flash)
    (hbuf : buf.length = n * g.pageSize) (hfuel : n ≤ fuel) :
    wp (flashWriteLoop g wr fuel k page buf)
      (fun res f' => f' = store f (page * g.pageSize) (buf.take (stored wr n k * g.pageSize)) ∧
        (res = 0 → ∀ i < n, wr (k + i) = .ok) ∧ (res ≠ 0 → ∃ i < n, ∃ c, wr (k + i) = .fail c))
      (fun f' => f' = store f (page * g.pageSize) (buf.take (stored wr n k * g.pageSize)) ∧
        ∃ i < n, ∃ m, wr (k + i) = .cut m) f := by
  have hpos := pageSize_pos hg
  induction n generalizing fuel k page buf f with
  | zero =>
    have hnil : buf = [] := List.eq_nil_of_length_eq_zero (by omega)
    subst hnil
    have hr : flashWriteLoop g wr fuel k page [] = pure 0 := by
      cases fuel with
      | zero => rfl
      | succ fuel => rw [flashWriteLoop, if_pos rfl]
    rw [hr, wp_pure, List.take_nil, store_nil]
    exact ⟨rfl, fun _ i hi => absurd hi (Nat.not_lt_zero i), fun h => absurd rfl h⟩
  | succ n ih =>
    obtain ⟨fuel, rfl⟩ : ∃ m, fuel = m + 1 := ⟨fuel - 1, by omega⟩
    rw [Nat.succ_mul] at hbuf
    have hne : buf ≠ [] := by
      rintro rfl
      rw [List.length_nil] at hbuf
      omega
    have hmin : min buf.length g.pageSize = g.pageSize := by omega
    have htake : (buf.take g.pageSize).length = g.pageSize := by
      rw [List.length_take]
      exact min_eq_left (by omega)
    rw [flashWriteLoop, if_neg hne]
    simp only [hmin]
    rw [wp_bind]
    unfold wp
    rw [nandWritePage_eq hg _ _ htake]
    cases hw : wr k with
    | ok =>
      simp only [↓reduceIte]
      have hrest := ih fuel (k + 1) (page + 1) (buf.drop g.pageSize)
        (store f (page * g.pageSize) (buf.take g.pageSize))
        (by rw [List.length_drop]; omega) (by omega)
      have hst : store (store f (page * g.pageSize) (buf.take g.pageSize))
          ((page + 1) * g.pageSize) ((buf.drop g.pageSize).take (stored wr n (k + 1) * g.pageSize)) =
          store f (page * g.pageSize) (buf.take (stored wr (n + 1) k * g.pageSize)) := by
        have ha : (page + 1) * g.pageSize = page * g.pageSize + (buf.take g.pageSize).length := by
          rw [htake, Nat.succ_mul]
        rw [ha, store_append, stored, hw]
        simp only
        rw [Nat.succ_mul, Nat.add_comm _ g.pageSize, List.take_add]
      rw [hst] at hrest
      have hshift : ∀ i, k + 1 + i = k + (i + 1) := fun i => by omega
      refine wp_mono hrest ?_ ?_
      · rintro res f' ⟨rfl, hok, hfail⟩
        refine ⟨rfl, fun h0 i hi => ?_, fun hne => ?_⟩
        · cases i with
          | zero => exact hw
          | succ i => rw [← hshift]; exact hok h0 i (by omega)
        · obtain ⟨i, hi, c, hc⟩ := hfail hne
          exact ⟨i + 1, by omega, c, by rw [← hshift]; exact hc⟩
      · rintro f' ⟨rfl, i, hi, m, hm⟩
        exact ⟨rfl, i + 1, by omega, m, by rw [← hshift]; exact hm⟩
    | fail c =>
      have hne0 : ¬ ((-1 : Int) = 0) := by decide
      simp only [hne0, if_false]
      refine ⟨?_, fun h0 => absurd h0 hne0, fun _ => ⟨0, by omega, c, hw⟩⟩
      rw [stored, hw]
      cases c with
      | false => simp [store_nil]
      | true => simp
    | cut m =>
      refine ⟨?_, 0, by omega, m, hw⟩
      rw [stored, hw]
      simp [store_nil]

theorem slot_page (s : Nat) :
    (base g + s * flashTsMaxSize) / g.pageSize * g.pageSize = slotAddr g s := by
  refine Nat.div_mul_cancel (Nat.dvd_add ?_ ?_)
  · rw [base, ← perBlock_mul hg, ← pages_mul hg, ← Nat.mul_assoc, ← Nat.mul_assoc]
    exact Nat.dvd_mul_left _ _
  · rw [← pages_mul hg, ← Nat.mul_assoc]
    exact Nat.dvd_mul_left _ _

theorem wp_flashWrite (wr : Nat → Outcome) (s : Nat) {buf : List UInt8}
    (hbuf : buf.length = flashTsMaxSize) (f : Flash) :
    wp (flashWrite g wr (s * flashTsMaxSize) buf)
      (fun res f' => f' = store f (slotAddr g s) (buf.take (stored wr (pages g) 0 * g.pageSize)) ∧
        (res = 0 → ∀ i < pages g, wr i = .ok) ∧ (res ≠ 0 → ∃ i < pages g, ∃ c, wr i = .fail c))
      (fun f' => f' = store f (slotAddr g s) (buf.take (stored wr (pages g) 0 * g.pageSize)) ∧
        ∃ i < pages g, ∃ m, wr i = .cut m) f := by
  have hle : pages g ≤ buf.length := by
    rw [hbuf, ← pages_mul hg]
    exact Nat.le_mul_of_pos_right _ (pageSize_pos hg)
  have h := wp_flashWriteLoop hg wr (pages g) buf.length 0 ((base g + s * flashTsMaxSize) / g.pageSize)
    buf f (by rw [hbuf, pages_mul hg]) hle
  simp only [slot_page hg, Nat.zero_add] at h
  exact h

theorem nandReadPage_eq (o : Outcome) (page : Nat) (f : Flash) :
    nandReadPage g o page g.pageSize f =
      match o with
      | .ok => .ret (0, load f (page * g.pageSize) g.pageSize) f
      | .fail _ => .ret (0, List.replicate g.pageSize 0xff) f
      | .cut _ => .cut f := by
  rw [nandReadPage, if_neg (lt_irrefl _)]
  simp only [nFlashPageRead, transferable_eq hg, if_true]
  cases o with
  | ok =>
    have hl : (load f (page * g.pageSize) g.pageSize).take g.pageSize =
        load f (page * g.pageSize) g.pageSize :=
      List.take_of_length_le (by rw [length_load])
    change Exec.ret (0, (load f (page * g.pageSize) g.pageSize).take g.pageSize) f = _
    rw [hl]
  | fail c => rfl
  | cut m => rfl

theorem wp_flashReadLoop (rd : Nat → Outcome) (n fuel k page : Nat) (acc : List UInt8) (f : Flash)
    (hfuel : n ≤ fuel) :
    wp (flashReadLoop g rd fuel k page (n * g.pageSize) acc)
      (fun r f' => f' = f ∧ r.1 = 0 ∧ (r.2 = acc ++ load f (page * g.pageSize) (n * g.pageSize) ∨
        ∃ i < n, ∃ c, rd (k + i) = .fail c))
      (fun f' => f' = f ∧ ∃ i < n, ∃ m, rd (k + i) = .cut m) f := by
  have hpos := pageSize_pos hg
  induction n generalizing fuel k page acc with
  | zero =>
    have hr : flashReadLoop g rd fuel k page (0 * g.pageSize) acc = pure (0, acc) := by
      rw [Nat.zero_mul]
      cases fuel with
      | zero => rfl
      | succ fuel => rw [flashReadLoop, if_pos rfl]
    rw [hr, wp_pure]
    exact ⟨rfl, rfl, .inl (by simp [load])⟩
  | succ n ih =>
    obtain ⟨fuel, rfl⟩ : ∃ m, fuel = m + 1 := ⟨fuel - 1, by omega⟩
    have hsize : (n + 1) * g.pageSize = g.pageSize + n * g.pageSize := by
      rw [Nat.succ_mul, Nat.add_comm]
    have hmin : min (g.pageSize + n * g.pageSize) g.pageSize = g.pageSize := by omega
    have hsub : g.pageSize + n * g.pageSize - g.pageSize = n * g.pageSize := by omega
    have hshift : ∀ i, k + 1 + i = k + (i + 1) := fun i => by omega
    have hload : load f (page * g.pageSize) (g.pageSize + n * g.pageSize) =
        load f (page * g.pageSize) g.pageSize ++ load f ((page + 1) * g.pageSize) (n * g.pageSize) := by
      rw [load_append, Nat.succ_mul]
    rw [hsize, flashReadLoop, if_neg (by omega)]
    simp only [hmin, hsub]
    rw [wp_bind]
    unfold wp
    rw [nandReadPage_eq hg]
    cases hr : rd k with
    | ok =>
      simp only [↓reduceIte]
      refine wp_mono (ih fuel (k + 1) (page + 1)
        (acc ++ load f (page * g.pageSize) g.pageSize) (by omega)) ?_ ?_
      · rintro r f' ⟨rfl, h0, hdata | ⟨i, hi, c, hc⟩⟩
        · refine ⟨rfl, h0, .inl ?_⟩
          rw [hload, ← List.append_assoc]
          exact hdata
        · exact ⟨rfl, h0, .inr ⟨i + 1, by omega, c, by rw [← hshift]; exact hc⟩⟩
      · rintro f' ⟨rfl, i, hi, m, hm⟩
        exact ⟨rfl, i + 1, by omega, m, by rw [← hshift]; exact hm⟩
    | fail c =>
      simp only [↓reduceIte]
      refine wp_mono (ih fuel (k + 1) (page + 1) (acc ++ List.replicate g.pageSize 0xff)
        (by omega)) ?_ ?_
      · rintro r f' ⟨rfl, h0, -⟩
        exact ⟨rfl, h0, .inr ⟨0, by omega, c, hr⟩⟩
      · rintro f' ⟨rfl, i, hi, m, hm⟩
        exact ⟨rfl, i + 1, by omega, m, by rw [← hshift]; exact hm⟩
    | cut m => exact ⟨rfl, 0, by omega, m, hr⟩

theorem wp_flashRead (rd : Nat → Outcome) (s : Nat) (f : Flash) :
    wp (flashRead g rd (s * flashTsMaxSize) flashTsMaxSize)
      (fun r f' => f' = f ∧ r.1 = 0 ∧ (r.2 = chunkAt g f s ∨ ∃ i < pages g, ∃ c, rd i = .fail c))
      (fun f' => f' = f ∧ ∃ i < pages g, ∃ m, rd i = .cut m) f := by
  have hle : pages g ≤ flashTsMaxSize := by
    conv_rhs => rw [← pages_mul hg]
    exact Nat.le_mul_of_pos_right _ (pageSize_pos hg)
  have h := wp_flashReadLoop hg rd (pages g) flashTsMaxSize 0
    ((base g + s * flashTsMaxSize) / g.pageSize) [] f hle
  simp only [slot_page hg, Nat.zero_add, pages_mul hg, List.nil_append] at h
  exact h

theorem flashRead_ok {rd : Nat → Outcome} (hrd : ∀ i, rd i = .ok) (s : Nat) (f : Flash) :
    flashRead g rd (s * flashTsMaxSize) flashTsMaxSize f = .ret (0, chunkAt g f s) f := by
  have h := wp_flashRead hg rd s f
  unfold wp at h
  cases hr : flashRead g rd (s * flashTsMaxSize) flashTsMaxSize f with
  | ret r f' =>
    rw [hr] at h
    obtain ⟨rfl, h0, hd | ⟨i, -, c, hc⟩⟩ := h
    · rw [← h0, ← hd]
    · rw [hrd i] at hc
      cases hc
  | cut f' =>
    rw [hr] at h
    obtain ⟨-, i, -, m, hm⟩ := h
    rw [hrd i] at hm
    cases hm
  | fault =>
    rw [hr] at h
    exact h.elim

end

end SynaBoot.FlashDriver
