import Mathlib.Algebra.BigOperators.Group.Finset.Basic
import Mathlib.Data.List.Nodup
import Mathlib.Tactic

namespace SynaBoot.Bindings

variable {κ ν : Type} [DecidableEq κ] [DecidableEq ν] (d : ν)

def lookup (k : κ) : List (κ × ν) → ν
  | [] => d
  | b :: bs => if b.1 = k then b.2 else lookup k bs

/-- The default value removes the binding. -/
def update (k : κ) (v : ν) : List (κ × ν) → List (κ × ν)
  | [] => if v = d then [] else [(k, v)]
  | b :: bs => if b.1 = k then if v = d then bs else (k, v) :: bs else b :: update k v bs

structure Valid (bs : List (κ × ν)) : Prop where
  nodup : (bs.map Prod.fst).Nodup
  value_ne : ∀ b ∈ bs, b.2 ≠ d

variable {d}

omit [DecidableEq κ] [DecidableEq ν] in
theorem Valid.tail {b : κ × ν} {bs : List (κ × ν)} (h : Valid d (b :: bs)) : Valid d bs :=
  ⟨(List.nodup_cons.mp h.nodup).2, fun x hx => h.value_ne x (List.mem_cons_of_mem b hx)⟩

omit [DecidableEq ν] in
theorem lookup_of_notMem {k : κ} {bs : List (κ × ν)} (h : k ∉ bs.map Prod.fst) :
    lookup d k bs = d := by
  induction bs with
  | nil => rfl
  | cons b bs ih =>
    rw [List.map_cons, List.mem_cons, not_or] at h
    rw [lookup, if_neg (Ne.symm h.1)]
    exact ih h.2

omit [DecidableEq ν] in
theorem lookup_of_mem {b : κ × ν} {bs : List (κ × ν)} (h : Valid d bs) (hb : b ∈ bs) :
    lookup d b.1 bs = b.2 := by
  induction bs with
  | nil => cases hb
  | cons c bs ih =>
    rw [lookup]
    rcases List.mem_cons.mp hb with rfl | hb
    · rw [if_pos rfl]
    · have hne : c.1 ≠ b.1 := fun he =>
        (List.nodup_cons.mp h.nodup).1 (he ▸ List.mem_map_of_mem hb)
      rw [if_neg hne]
      exact ih h.tail hb

theorem mem_update {k : κ} {v : ν} {bs : List (κ × ν)} {b : κ × ν} (h : b ∈ update d k v bs) :
    b ∈ bs ∨ (b = (k, v) ∧ v ≠ d) := by
  induction bs with
  | nil =>
    rw [update] at h
    split at h
    · cases h
    · next hv => exact .inr ⟨List.mem_singleton.mp h, hv⟩
  | cons c bs ih =>
    rw [update] at h
    split at h
    · split at h
      · exact .inl (List.mem_cons_of_mem c h)
      · next hv =>
        rcases List.mem_cons.mp h with rfl | h
        · exact .inr ⟨rfl, hv⟩
        · exact .inl (List.mem_cons_of_mem c h)
    · rcases List.mem_cons.mp h with rfl | h
      · exact .inl List.mem_cons_self
      · rcases ih h with hb | hb
        · exact .inl (List.mem_cons_of_mem c hb)
        · exact .inr hb

theorem Valid.update {bs : List (κ × ν)} (h : Valid d bs) (k : κ) (v : ν) :
    Valid d (update d k v bs) := by
  refine ⟨?_, fun b hb => ?_⟩
  · induction bs with
    | nil =>
      rw [Bindings.update]
      split
      · exact List.nodup_nil
      · exact List.nodup_singleton k
    | cons c bs ih =>
      obtain ⟨hc, hbs⟩ := List.nodup_cons.mp h.nodup
      rw [Bindings.update]
      split
      · next he =>
        split
        · exact hbs
        · exact List.nodup_cons.mpr ⟨he ▸ hc, hbs⟩
      · next hne =>
        refine List.nodup_cons.mpr ⟨fun hm => ?_, ih h.tail⟩
        obtain ⟨b, hb, he⟩ := List.mem_map.mp hm
        rcases mem_update hb with hb | ⟨rfl, -⟩
        · exact hc (he ▸ List.mem_map_of_mem hb)
        · exact hne he.symm
  · rcases mem_update hb with hb | ⟨rfl, hv⟩
    · exact h.value_ne b hb
    · exact hv

theorem lookup_update_self {bs : List (κ × ν)} (h : Valid d bs) (k : κ) (v : ν) :
    lookup d k (update d k v bs) = v := by
  induction bs with
  | nil =>
    rw [update]
    split
    · next hv => exact hv.symm
    · rw [lookup, if_pos rfl]
  | cons c bs ih =>
    rw [update]
    split
    · next he =>
      split
      · next hv =>
        rw [hv]
        exact lookup_of_notMem (he ▸ (List.nodup_cons.mp h.nodup).1)
      · rw [lookup, if_pos rfl]
    · next hne =>
      rw [lookup, if_neg hne]
      exact ih h.tail

theorem lookup_update_ne {k k' : κ} (hne : k' ≠ k) (v : ν) (bs : List (κ × ν)) :
    lookup d k' (update d k v bs) = lookup d k' bs := by
  induction bs with
  | nil =>
    rw [update]
    split
    · rfl
    · exact if_neg (Ne.symm hne)
  | cons c bs ih =>
    rw [update]
    split
    · next he =>
      have hc : c.1 ≠ k' := fun h => hne (h.symm.trans he)
      conv_rhs => rw [lookup, if_neg hc]
      split
      · rfl
      · rw [lookup, if_neg (Ne.symm hne)]
    · rw [lookup, lookup, ih]

theorem sum_bindings (w : κ → ν → Nat) {bs : List (κ × ν)} (h : Valid d bs) {s : Finset κ}
    (hs : ∀ k, lookup d k bs ≠ d → k ∈ s) :
    (bs.map fun b => w b.1 b.2).sum =
      ∑ k ∈ s, if lookup d k bs = d then 0 else w k (lookup d k bs) := by
  have hmap : (bs.map fun b => w b.1 b.2) =
      (bs.map Prod.fst).map fun k => if lookup d k bs = d then 0 else w k (lookup d k bs) := by
    rw [List.map_map]
    refine List.map_congr_left fun b hb => ?_
    rw [Function.comp_apply, lookup_of_mem h hb, if_neg (h.value_ne b hb)]
  rw [hmap, ← List.sum_toFinset _ h.nodup]
  refine Finset.sum_subset (fun k hk => ?_) fun k _ hk => ?_
  · obtain ⟨b, hb, rfl⟩ := List.mem_map.mp (List.mem_toFinset.mp hk)
    refine hs b.1 ?_
    rw [lookup_of_mem h hb]
    exact h.value_ne b hb
  · rw [List.mem_toFinset] at hk
    rw [if_pos (lookup_of_notMem hk)]

end SynaBoot.Bindings
