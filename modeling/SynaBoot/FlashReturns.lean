import SynaBoot.FlashTs

namespace SynaBoot.FlashReturns

open SynaBoot.PowerCut SynaBoot.FlashDevice SynaBoot.FlashRecord SynaBoot.FlashTs

structure NoCut (fate : Fate) : Prop where
  erase : ∀ m, fate.erase ≠ .cut m
  write : ∀ k m, fate.write k ≠ .cut m
  read : ∀ k m, fate.read k ≠ .cut m
  eraseOld : ∀ m, fate.eraseOld ≠ .cut m

theorem not_cut {o : Outcome} (h : ∀ m, o ≠ .cut m) : o = .ok ∨ ∃ c, o = .fail c := by
  cases o with
  | ok => exact .inl rfl
  | fail c => exact .inr ⟨c, rfl⟩
  | cut m => exact absurd rfl (h m)

theorem returns_flashErase (g : Geometry) {o : Outcome} (h : ∀ m, o ≠ .cut m) (off : Nat) :
    Returns (flashErase g o off) := by
  intro f
  obtain rfl | ⟨c, rfl⟩ := not_cut h <;> exact ⟨_, _, rfl⟩

section

variable {g : Geometry} (ht : transferable g = true)
include ht

theorem returns_nandWritePage {o : Outcome} (h : ∀ m, o ≠ .cut m) (page : Nat) (buf : List UInt8) :
    Returns (nandWritePage g o page buf) := by
  refine returns_ite (fun _ => returns_pure _) fun _ => returns_bind (fun f => ?_) fun res => ?_
  · simp only [nFlashPageWrite, ht, if_true]
    obtain rfl | ⟨c, rfl⟩ := not_cut h <;> exact ⟨_, _, rfl⟩
  · exact returns_ite (fun _ => returns_pure _) fun _ => returns_pure _

theorem returns_nandReadPage {o : Outcome} (h : ∀ m, o ≠ .cut m) (page size : Nat) :
    Returns (nandReadPage g o page size) := by
  refine returns_ite (fun _ => returns_pure _) fun _ => returns_bind (fun f => ?_) fun res => ?_
  · simp only [nFlashPageRead, ht, if_true]
    obtain rfl | ⟨c, rfl⟩ := not_cut h <;> exact ⟨_, _, rfl⟩
  · exact returns_ite (fun _ => returns_pure _) fun _ => returns_pure _

theorem returns_flashWriteLoop {wr : Nat → Outcome} (h : ∀ k m, wr k ≠ .cut m) (fuel k page : Nat)
    (buf : List UInt8) : Returns (flashWriteLoop g wr fuel k page buf) := by
  induction fuel generalizing k page buf with
  | zero => exact returns_pure _
  | succ fuel ih =>
    refine returns_ite (fun _ => returns_pure _) fun _ => ?_
    refine returns_bind (returns_nandWritePage ht (h k) page _) fun res => ?_
    exact returns_ite (fun _ => ih _ _ _) fun _ => returns_pure _

theorem returns_flashReadLoop {rd : Nat → Outcome} (h : ∀ k m, rd k ≠ .cut m)
    (fuel k page size : Nat) (acc : List UInt8) :
    Returns (flashReadLoop g rd fuel k page size acc) := by
  induction fuel generalizing k page size acc with
  | zero => exact returns_pure _
  | succ fuel ih =>
    refine returns_ite (fun _ => returns_pure _) fun _ => ?_
    refine returns_bind (returns_nandReadPage ht (h k) page _) fun res => ?_
    exact returns_ite (fun _ => ih _ _ _ _) fun _ => returns_pure _

theorem returns_writeVerify {fate : Fate} (h : NoCut fate) (off : Nat) (buf : List UInt8) :
    Returns (writeVerify g fate off buf) := by
  refine returns_bind (returns_flashWriteLoop ht h.write _ _ _ _) fun res => ?_
  refine returns_ite (fun _ => returns_pure _) fun _ => ?_
  refine returns_bind (returns_flashReadLoop ht h.read _ _ _ _ _) fun r => ?_
  exact returns_ite (fun _ => returns_pure _) fun _ => returns_pure _

theorem returns_commitLoop (ts : Priv) {fate : Nat → Fate} (h : ∀ i, NoCut (fate i))
    (buf : List UInt8) (n i off : Nat) : Returns (commitLoop g ts fate buf n i off) := by
  induction n generalizing i off with
  | zero => exact returns_pure _
  | succ n ih =>
    refine returns_ite (fun _ => ih _ _) fun _ => ?_
    refine returns_bind ?_ fun res => returns_ite (fun _ => ih _ _) fun _ => ?_
    · exact returns_ite (fun _ => returns_flashErase g (h i).erase _) fun _ => returns_pure _
    · refine returns_bind (returns_writeVerify ht (h i) _ buf) fun v => ?_
      refine returns_ite (fun _ => returns_bind ?_ fun _ => returns_pure _) fun _ => ih _ _
      refine returns_ite (fun _ => ?_) fun _ => returns_pure _
      exact returns_bind (returns_flashErase g (h i).eraseOld _) fun _ => returns_pure _

theorem returns_flashTsSet {fate : Nat → Fate} (h : ∀ i, NoCut (fate i)) (key value : CString)
    (ts : Priv) : Returns (flashTsSet g fate key value ts) := by
  refine returns_ite (fun _ => returns_pure _) fun _ => ?_
  cases updateCache ts.cache key.1 value.1 with
  | same => exact returns_pure _
  | noSpace => exact returns_pure _
  | changed c =>
    refine returns_bind (returns_commitLoop ht _ h _ _ _ _) fun r => ?_
    exact returns_ite (fun _ => returns_pure _) fun _ => returns_pure _

end

end SynaBoot.FlashReturns
