import Mathlib.Data.List.DropRight
import Mathlib.Data.List.GetD
import Mathlib.Tactic

namespace SynaBoot.LmbReserve

def maxLmbRegions : ℕ := 8

structure LmbProperty where
  base : UInt64
  size : UInt64
  deriving DecidableEq, Repr

def LmbProperty.last (p : LmbProperty) : UInt64 := p.base + p.size - 1

/-- `struct lmb_region`: the regions up to `cnt`. -/
structure LmbRegion where
  region : List LmbProperty
  cnt_le : region.length ≤ maxLmbRegions

structure Lmb where
  memory : LmbRegion
  reserved : LmbRegion

def lmbAddrsOverlap (p q : LmbProperty) : Bool := p.base ≤ q.last && q.base ≤ p.last

def lmbAddrsAdjacent (p q : LmbProperty) : Int :=
  if q.base = p.base + p.size then 1 else if p.base = q.base + q.size then -1 else 0

inductive Scan where
  | same
  | joined (i : ℕ) (p : LmbProperty)
  | overlap
  | apart
  deriving DecidableEq, Repr

def scan (new : LmbProperty) : ℕ → List LmbProperty → Scan
  | _, [] => .apart
  | i, p :: ps =>
    if p = new then .same
    else if 0 < lmbAddrsAdjacent new p then .joined i ⟨p.base - new.size, p.size + new.size⟩
    else if lmbAddrsAdjacent new p < 0 then .joined i ⟨p.base, p.size + new.size⟩
    else if lmbAddrsOverlap new p then .overlap
    else scan new (i + 1) ps

def coalesceNext (rgn : List LmbProperty) (i : ℕ) : Int × List LmbProperty :=
  match rgn[i]?, rgn[i + 1]? with
  | some p, some q =>
    if lmbAddrsAdjacent p q ≠ 0 then (1, (rgn.set i ⟨p.base, p.size + q.size⟩).eraseIdx (i + 1))
    else (0, rgn)
  | _, _ => (0, rgn)

/-- The others move up; one below the first region replaces what is there. -/
def insertSorted (rgn : List LmbProperty) (new : LmbProperty) : List LmbProperty :=
  let below := rgn.rdropWhile fun p => new.base < p.base
  let above := rgn.rtakeWhile fun p => new.base < p.base
  match below with
  | [] => new :: above
  | p :: ps => (if new.base < p.base then new else p) :: ps ++ new :: above

def lmbAddRegion (rgn : List LmbProperty) (new : LmbProperty) : Int × List LmbProperty :=
  if rgn.length = 0 then (0, [new])
  else
    match scan new 0 rgn with
    | .same => (0, rgn)
    | .overlap => (-1, rgn)
    | .joined i p =>
      let (n, rgn) := coalesceNext (rgn.set i p) i
      (1 + n, rgn)
    | .apart =>
      if maxLmbRegions ≤ rgn.length then (-1, rgn) else (0, insertSorted rgn new)

def lmbFree (rgn : List LmbProperty) (q : LmbProperty) : Int × List LmbProperty :=
  match rgn.findIdx? fun p => p.base ≤ q.base && q.last ≤ p.last with
  | none => (-1, rgn)
  | some i =>
    let p := rgn.getD i q
    if p.base = q.base ∧ p.last = q.last then (0, rgn.eraseIdx i)
    else if p.base = q.base then (0, rgn.set i ⟨q.last + 1, p.size - q.size⟩)
    else if p.last = q.last then (0, rgn.set i ⟨p.base, p.size - q.size⟩)
    else lmbAddRegion (rgn.set i ⟨p.base, q.base - p.base⟩) ⟨q.last + 1, p.last - q.last⟩

def boardLoop : ℕ → ℕ → List LmbProperty → List LmbProperty
  | 0, _, rgn => rgn
  | fuel + 1, i, rgn =>
    match rgn[i]? with
    | none => rgn
    | some p => boardLoop fuel (i + 1) (lmbFree rgn p).2

theorem length_coalesceNext (rgn : List LmbProperty) (i : ℕ) :
    (coalesceNext rgn i).2.length ≤ rgn.length ∧ rgn.length ≤ (coalesceNext rgn i).2.length + 1 := by
  unfold coalesceNext
  split
  · split
    · dsimp only
      rw [List.length_eraseIdx, List.length_set]
      split <;> omega
    · exact ⟨le_rfl, Nat.le_succ _⟩
  · exact ⟨le_rfl, Nat.le_succ _⟩

theorem length_insertSorted (rgn : List LmbProperty) (new : LmbProperty) :
    (insertSorted rgn new).length = rgn.length + 1 := by
  have hsplit := congrArg List.length
    (List.rdropWhile_append_rtakeWhile (p := fun p => decide (new.base < p.base)) (l := rgn))
  rw [List.length_append] at hsplit
  unfold insertSorted
  dsimp only
  split
  · next h =>
    rw [h, List.length_nil] at hsplit
    rw [List.length_cons]
    omega
  · next h =>
    rw [h, List.length_cons] at hsplit
    rw [List.length_append, List.length_cons, List.length_cons]
    omega

theorem length_lmbAddRegion (rgn : List LmbProperty) (new : LmbProperty) :
    (lmbAddRegion rgn new).2.length ≤ max rgn.length maxLmbRegions ∧
      rgn.length ≤ (lmbAddRegion rgn new).2.length + 1 := by
  have hmax : 1 ≤ maxLmbRegions := by decide
  unfold lmbAddRegion
  split
  · next h =>
    rw [h]
    exact ⟨by simpa using hmax, Nat.zero_le _⟩
  · split
    · exact ⟨le_max_left _ _, Nat.le_succ _⟩
    · exact ⟨le_max_left _ _, Nat.le_succ _⟩
    · next i p _ =>
      have h := length_coalesceNext (rgn.set i p) i
      rw [List.length_set] at h
      exact ⟨h.1.trans (le_max_left _ _), h.2⟩
    · split
      · exact ⟨le_max_left _ _, Nat.le_succ _⟩
      · dsimp only
        rw [length_insertSorted]
        omega

theorem length_lmbFree (rgn : List LmbProperty) (q : LmbProperty) :
    (lmbFree rgn q).2.length ≤ max rgn.length maxLmbRegions ∧
      rgn.length ≤ (lmbFree rgn q).2.length + 1 := by
  unfold lmbFree
  split
  · exact ⟨le_max_left _ _, Nat.le_succ _⟩
  · next i _ =>
    dsimp only
    split
    · dsimp only
      rw [List.length_eraseIdx]
      split <;> omega
    · split
      · dsimp only
        rw [List.length_set]
        omega
      · split
        · dsimp only
          rw [List.length_set]
          omega
        · have h := length_lmbAddRegion (rgn.set i ⟨(rgn.getD i q).base, q.base - (rgn.getD i q).base⟩)
            ⟨q.last + 1, (rgn.getD i q).last - q.last⟩
          rwa [List.length_set] at h

variable {rgn : List LmbProperty}

theorem length_boardLoop_le (fuel i : ℕ) (h : rgn.length ≤ maxLmbRegions) :
    (boardLoop fuel i rgn).length ≤ maxLmbRegions := by
  induction fuel generalizing i rgn with
  | zero => exact h
  | succ fuel ih =>
    rw [boardLoop]
    split
    · exact h
    · next p _ =>
      have hfree := (length_lmbFree rgn p).1
      exact ih (i + 1) (by omega)

def boardLmbReserve (lmb : Lmb) : Lmb :=
  { lmb with reserved := ⟨boardLoop maxLmbRegions 0 lmb.reserved.region,
      length_boardLoop_le _ _ lmb.reserved.cnt_le⟩ }

theorem boardLoop_fuel {m n i : ℕ} (h : rgn.length ≤ maxLmbRegions) (hm : maxLmbRegions ≤ i + m)
    (hn : maxLmbRegions ≤ i + n) : boardLoop m i rgn = boardLoop n i rgn := by
  have hend : ∀ fuel, maxLmbRegions ≤ i → boardLoop fuel i rgn = rgn := by
    intro fuel hi
    cases fuel with
    | zero => rfl
    | succ fuel => rw [boardLoop, List.getElem?_eq_none (h.trans hi)]
  induction m generalizing i n rgn with
  | zero => rw [hend 0 hm, hend n hm]
  | succ m ih =>
    cases n with
    | zero => rw [hend _ hn, hend _ hn]
    | succ n =>
      rw [boardLoop, boardLoop]
      cases hp : rgn[i]? with
      | none => rfl
      | some p =>
        have hfree := (length_lmbFree rgn p).1
        have hle : (lmbFree rgn p).2.length ≤ maxLmbRegions := by omega
        refine ih hle (by omega) (by omega) fun fuel hi => ?_
        cases fuel with
        | zero => rfl
        | succ fuel => rw [boardLoop, List.getElem?_eq_none (hle.trans hi)]

theorem boardLoop_ne_nil {fuel i : ℕ} (hi : i ≠ 0 ∨ 1 < rgn.length) (h : rgn ≠ []) :
    boardLoop fuel i rgn ≠ [] := by
  induction fuel generalizing i rgn with
  | zero => exact h
  | succ fuel ih =>
    rw [boardLoop]
    split
    · exact h
    · next p hp =>
      have hlt := (List.getElem?_eq_some_iff.mp hp).1
      have hfree := (length_lmbFree rgn p).2
      refine ih (.inl (Nat.succ_ne_zero i)) fun hnil => ?_
      rw [hnil, List.length_nil] at hfree
      omega

theorem lmbFree_self (p : LmbProperty) : (lmbFree [p] p).2 = [] := by
  have hfind : [p].findIdx? (fun r => r.base ≤ p.base && p.last ≤ r.last) = some 0 := by
    simp
  unfold lmbFree
  rw [hfind]
  dsimp only
  rw [List.getD_cons_zero, if_pos ⟨rfl, rfl⟩]
  rfl

/-- The reserved regions are gone after `board_lmb_reserve` exactly if there was at most one. -/
theorem reserved_released_iff (lmb : Lmb) :
    (boardLmbReserve lmb).reserved.region = [] ↔ lmb.reserved.region.length ≤ 1 := by
  change boardLoop maxLmbRegions 0 lmb.reserved.region = [] ↔ _
  match lmb.reserved.region with
  | [] => exact iff_of_true rfl (Nat.zero_le 1)
  | [p] =>
    refine iff_of_true ?_ le_rfl
    change boardLoop 7 1 (lmbFree [p] p).2 = []
    rw [lmbFree_self]
    rfl
  | p :: q :: ps =>
    have hlen : 1 < (p :: q :: ps).length := by
      rw [List.length_cons, List.length_cons]
      omega
    refine iff_of_false (boardLoop_ne_nil (.inr hlen) (List.cons_ne_nil _ _)) (Nat.not_le.mpr hlen)

def everySecond : List LmbProperty → List LmbProperty
  | _ :: q :: ps => q :: everySecond ps
  | _ => []

def Separate (rgn : List LmbProperty) : Prop :=
  rgn.Pairwise fun p q => ¬ (p.base ≤ q.base ∧ q.last ≤ p.last)

theorem lmbFree_separate {kept ps : List LmbProperty} {p : LmbProperty}
    (h : Separate (kept ++ p :: ps)) : (lmbFree (kept ++ p :: ps) p).2 = kept ++ ps := by
  have hkept : ∀ q ∈ kept, ¬ (q.base ≤ p.base ∧ p.last ≤ q.last) := fun q hq =>
    (List.pairwise_append.mp h).2.2 q hq p List.mem_cons_self
  have hfind : (kept ++ p :: ps).findIdx? (fun r => r.base ≤ p.base && p.last ≤ r.last) =
      some kept.length := by
    rw [List.findIdx?_append, List.findIdx?_eq_none_iff.mpr, List.findIdx?_cons]
    · simp
    · intro q hq
      simpa using hkept q hq
  have hget : (kept ++ p :: ps).getD kept.length p = p := by
    rw [List.getD_append_right _ _ _ _ le_rfl, Nat.sub_self, List.getD_cons_zero]
  unfold lmbFree
  rw [hfind]
  dsimp only
  rw [hget, if_pos ⟨rfl, rfl⟩, List.eraseIdx_append_of_length_le le_rfl, Nat.sub_self]
  rfl

theorem boardLoop_separate {fuel : ℕ} (kept : List LmbProperty) {ps : List LmbProperty}
    (h : Separate (kept ++ ps)) (hf : ps.length ≤ fuel) :
    boardLoop fuel kept.length (kept ++ ps) = kept ++ everySecond ps := by
  induction fuel generalizing kept ps with
  | zero =>
    rw [List.length_eq_zero_iff.mp (Nat.le_zero.mp hf)]
    rfl
  | succ fuel ih =>
    match ps with
    | [] =>
      rw [boardLoop, List.append_nil, List.getElem?_eq_none le_rfl]
      exact (List.append_nil kept).symm
    | [p] =>
      rw [boardLoop, List.getElem?_append_right le_rfl, Nat.sub_self, List.getElem?_cons_zero]
      dsimp only
      rw [lmbFree_separate h]
      cases fuel with
      | zero => rfl
      | succ fuel =>
        rw [boardLoop, List.append_nil, List.getElem?_eq_none (Nat.le_succ _)]
        exact (List.append_nil kept).symm
    | p :: q :: ps =>
      have hsub : (kept ++ [q] ++ ps).Sublist (kept ++ p :: q :: ps) := by
        rw [List.append_assoc]
        exact (List.sublist_cons_self p _).append_left kept
      have hnext := ih _ (h.sublist hsub) (by simp at hf; omega)
      rw [List.length_append, List.append_assoc, List.append_assoc] at hnext
      rw [boardLoop, List.getElem?_append_right le_rfl, Nat.sub_self, List.getElem?_cons_zero]
      dsimp only
      rw [lmbFree_separate h]
      exact hnext

theorem boardLmbReserve_separate {lmb : Lmb} (h : Separate lmb.reserved.region) :
    (boardLmbReserve lmb).reserved.region = everySecond lmb.reserved.region :=
  boardLoop_separate [] h lmb.reserved.cnt_le

def twoReserved : Lmb :=
  ⟨⟨[⟨0, 0x40000000⟩], by decide⟩, ⟨[⟨0x1000000, 0x800000⟩, ⟨0x4000000, 0x400000⟩], by decide⟩⟩

theorem boardLmbReserve_separate_two :
    (boardLmbReserve twoReserved).reserved.region = everySecond twoReserved.reserved.region :=
  boardLmbReserve_separate (by simp [Separate, twoReserved, LmbProperty.last])

theorem second_stays_reserved :
    (boardLmbReserve twoReserved).reserved.region = [⟨0x4000000, 0x400000⟩] := by
  decide

end SynaBoot.LmbReserve
