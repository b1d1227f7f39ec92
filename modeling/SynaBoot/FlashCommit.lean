import SynaBoot.FlashScan
import SynaBoot.FlashStrings

namespace SynaBoot.FlashCommit

open SynaBoot.PowerCut SynaBoot.FlashDevice SynaBoot.FlashRecord SynaBoot.FlashTs
open SynaBoot.FlashSlots SynaBoot.FlashDriver SynaBoot.FlashScan SynaBoot.FlashStrings
open SynaBoot.StringArea

def attempt (ts : Priv) (key value : CString) : Option FlashTs :=
  match updateCache ts.cache key.1 value.1 with
  | .changed c => some (fillUnused (nextVersion c))
  | _ => none

structure Sound (c : FlashTs) (ss : List (List UInt8)) : Prop where
  represents : Represents c ss
  magic : c.magic = flashTsMagic
  crc : c.crc = flashTsCrc c

variable {c : FlashTs} {ss : List (List UInt8)} {key value : CString} {ts : Priv}

theorem len_fits (h : Represents c ss) : c.len.toNat ≤ flashTsMaxDataSize := by
  rw [h.len]
  exact h.fits

theorem take_fillUnused (h : c.len.toNat ≤ flashTsMaxDataSize) :
    (fillUnused c).data.1.take c.len.toNat = c.data.1.take c.len.toNat := by
  have hle : c.len.toNat + (List.replicate (flashTsMaxDataSize - c.len.toNat) (0xff : UInt8)).length ≤
      flashTsMaxDataSize := by
    rw [List.length_replicate]
    omega
  exact (move_data c.data hle).1

theorem len_fillUnused (c : FlashTs) : (fillUnused c).len = c.len := by
  simp only [fillUnused]

theorem contents_fillUnused (h : c.len.toNat ≤ flashTsMaxDataSize) :
    contents (fillUnused c) = contents c := by
  rw [contents, contents, len_fillUnused, take_fillUnused h]

theorem contents_nextVersion (c : FlashTs) : contents (nextVersion c) = contents c := rfl

theorem len_nextVersion (c : FlashTs) : (nextVersion c).len = c.len := rfl

theorem crc_congr {c d : FlashTs} (hl : c.len = d.len) (hv : c.version = d.version)
    (hd : contents c = contents d) : flashTsCrc c = flashTsCrc d := by
  unfold flashTsCrc
  unfold contents at hd
  rw [hd, hl, hv]

theorem sound_commit {c c' : FlashTs} (h : Represents c' ss) (hm : c'.magic = flashTsMagic)
    (hv : c'.version = c.version) :
    Sound (fillUnused (nextVersion c')) ss ∧
      (fillUnused (nextVersion c')).version = c.version + 1 := by
  have hlen : (nextVersion c').len.toNat ≤ flashTsMaxDataSize := by
    rw [len_nextVersion]
    exact len_fits h
  have hc : contents (fillUnused (nextVersion c')) = contents (nextVersion c') :=
    contents_fillUnused hlen
  have hcrc : flashTsCrc (fillUnused (nextVersion c')) =
      flashTsCrc { c' with version := c'.version + 1 } := crc_congr rfl rfl hc
  refine ⟨⟨⟨h.strings, ?_, ?_⟩, hm, ?_⟩, ?_⟩
  · rw [len_fillUnused, len_nextVersion]
    exact h.len
  · rw [hc, contents_nextVersion]
    exact h.contents
  · rw [hcrc]
    rfl
  · rw [← hv]
    rfl

theorem attempt_changed {r : FlashTs} (hr : attempt ts key value = some r) :
    ∃ c, updateCache ts.cache key.1 value.1 = .changed c ∧ r = fillUnused (nextVersion c) := by
  unfold attempt at hr
  cases hc : updateCache ts.cache key.1 value.1 with
  | same =>
    rw [hc] at hr
    cases hr
  | noSpace =>
    rw [hc] at hr
    cases hr
  | changed c =>
    rw [hc] at hr
    exact ⟨c, rfl, (Option.some.inj hr).symm⟩

theorem attempt_spec (h : Sound ts.cache ss) {r : FlashTs} (hr : attempt ts key value = some r) :
    Sound r (put key.1 value.1 ss) ∧ r.version = ts.cache.version + 1 := by
  have hu := updateCache_spec h.represents key.2 value.2
  obtain ⟨c, hc, rfl⟩ := attempt_changed hr
  rw [hc] at hu
  obtain ⟨hrep, hv, hm⟩ := hu
  exact sound_commit hrep (hm.trans h.magic) hv

theorem attempt_of_put (h : Sound ts.cache ss) (hne : put key.1 value.1 ss ≠ ss)
    (hle : (area 0 (put key.1 value.1 ss)).length ≤ flashTsMaxDataSize) :
    ∃ r, attempt ts key value = some r := by
  have hu := updateCache_spec h.represents key.2 value.2
  unfold attempt
  cases hc : updateCache ts.cache key.1 value.1 with
  | same =>
    rw [hc] at hu
    exact absurd hu hne
  | noSpace =>
    rw [hc] at hu
    exact absurd hle (not_le.mpr hu)
  | changed c => exact ⟨_, rfl⟩

theorem sound_emptyCache (old : Bytes flashTsMaxDataSize) : Sound (emptyCache old) [] := by
  have hdata : (emptyCache old).data = overwrite old 0 [0] := rfl
  have hle : 0 + [(0 : UInt8)].length ≤ flashTsMaxDataSize := by decide
  refine ⟨represents_of_data (t := old.1.drop 1) (by simp [Strings]) ?_ ?_, rfl, ?_⟩
  · rw [hdata, overwrite_eq _ _ _ hle]
    rfl
  · rfl
  · exact crc_congr rfl rfl rfl

theorem area_ends (ss : List (List UInt8)) :
    (area 0 ss).getD ((area 0 ss).length - 1) 0 = 0 ∧
      ((area 0 ss).length = 1 ∨ (area 0 ss).getD ((area 0 ss).length - 2) 0 = 0) := by
  rcases List.eq_nil_or_concat ss with rfl | ⟨xs, s, rfl⟩
  · exact ⟨rfl, .inl rfl⟩
  · have hlen : (area 0 (xs ++ [s])).length = (table 0 xs ++ s).length + 2 := by
      rw [area_append]
      simp only [List.length_append, List.length_cons, List.length_nil]
      omega
    have hsplit : area 0 (xs ++ [s]) = (table 0 xs ++ s) ++ [(0 : UInt8), 0] := by
      rw [area_append, List.append_assoc]
    rw [List.concat_eq_append, hlen, hsplit]
    refine ⟨?_, .inr ?_⟩
    · rw [List.getD_eq_getElem?_getD, List.getElem?_append_right (by omega)]
      simp
    · rw [List.getD_eq_getElem?_getD, List.getElem?_append_right (by omega)]
      simp

theorem check_of_sound (h : Sound c ss) (hv : c.version ≠ 0) :
    flashTsCheckHeader c = c.version := by
  obtain ⟨h1, h2⟩ := area_ends ss
  have hlen := h.represents.len
  have hpos : 0 < (area 0 ss).length := by simp [area]
  have hget : ∀ i < (area 0 ss).length, c.data.1.getD i 0 = (area 0 ss).getD i 0 := by
    intro i hi
    rw [← getD_contents c (by omega), h.represents.contents]
  have hne : c.len ≠ 0 := by
    intro h0
    rw [h0] at hlen
    exact absurd hlen (by simp; omega)
  refine if_pos ⟨h.magic, hv, hne, len_fits h.represents, h.crc, ?_, ?_⟩
  · rw [hlen, hget _ (by omega), h1]
  · rcases h2 with h2 | h2
    · left
      apply UInt32.toNat_inj.mp
      rw [hlen, h2]
      rfl
    · right
      rw [hlen, hget _ (by omega), h2]

theorem flashTsSet_none (h : Sound ts.cache ss) (hn : attempt ts key value = none) (g : Geometry)
    (fate : Nat → Fate) :
    (flashTsSet g fate key value ts = pure (0, ts) ∧ put key.1 value.1 ss = ss) ∨
      (flashTsSet g fate key value ts = pure (-enospc, ts) ∧
        flashTsMaxDataSize < (area 0 (put key.1 value.1 ss)).length) := by
  have hu := updateCache_spec h.represents key.2 value.2
  rw [flashTsSet, if_neg (not_not.mpr h.crc)]
  unfold attempt at hn
  cases hc : updateCache ts.cache key.1 value.1 with
  | same =>
    rw [hc] at hu
    exact .inl ⟨rfl, hu⟩
  | noSpace =>
    rw [hc] at hu
    exact .inr ⟨rfl, hu⟩
  | changed c =>
    rw [hc] at hn
    cases hn

def finish (ts : Priv) (r : Int × Priv) : Int × Priv :=
  if r.1 ≠ 0 then (r.1, { r.2 with cache := ts.cache }) else r

theorem finish_ok (ts x : Priv) : finish ts (0, x) = (0, x) := if_neg (not_not.mpr rfl)

theorem finish_eio (ts x : Priv) : finish ts (-eio, x) = (-eio, { x with cache := ts.cache }) :=
  if_pos (by change (-eio : Int) ≠ 0; decide)

def written (g : Geometry) (r : FlashTs) (wr : Nat → Outcome) (f : Flash) (s : Nat) : Flash :=
  store f (slotAddr g s) ((toBytes r).take (stored wr (pages g) 0 * g.pageSize))

theorem length_take_stored (r : FlashTs) (n : Nat) :
    ((toBytes r).take n).length ≤ flashTsMaxSize := by
  rw [List.length_take, length_toBytes]
  exact Nat.min_le_right _ _

def erasedBlock (g : Geometry) (mask : Nat → Bool) (f : Flash) (s : Nat) : Flash :=
  eraseWhere g mask f (base g + s / perBlock g * g.blockSize)

def entered (g : Geometry) (f : Flash) (s : Nat) : Flash :=
  if s % perBlock g = 0 then erasedBlock g (fun _ => true) f s else f

def Enters (g : Geometry) (fate : Fate) (s : Nat) : Prop :=
  s % perBlock g = 0 → flashBlockIsbad g (s / perBlock g * g.blockSize) = false ∧ fate.erase = .ok

theorem Enters.not_skip {g : Geometry} {fate : Fate} {s : Nat} (h : Enters g fate s)
    (h0 : s % perBlock g = 0) : ¬ (flashBlockIsbad g (s / perBlock g * g.blockSize) = true ∨
      flashBlockIsbad g (s / perBlock g * g.blockSize) = false ∧ ∃ c, fate.erase = .fail c) := by
  obtain ⟨hgood, herase⟩ := h h0
  rintro (hbad | ⟨-, c, hc⟩)
  · rw [hgood] at hbad
    cases hbad
  · rw [herase] at hc
    cases hc

section

variable {g : Geometry} (hg : Usable g)
include hg

theorem flashTsCommit_eq (fate : Nat → Fate) (off : Nat) {c : FlashTs}
    (h : c.len.toNat ≤ flashTsMaxDataSize) :
    flashTsCommit g fate { offset := off, cache := c } =
      commitLoop g { offset := off, cache := fillUnused c } fate (toBytes (fillUnused c))
        (g.blocks * 2) 0 (off + flashTsMaxSize) := by
  have hpos : 0 < g.blockSize := by
    rw [← perBlock_mul hg]
    exact Nat.mul_pos (perBlock_pos hg) maxSize_pos
  have hsize : flashTsHdrSize + c.len.toNat ≤ flashTsMaxSize := by
    have hmax : flashTsMaxDataSize = flashTsMaxSize - flashTsHdrSize := rfl
    have hhdr : flashTsHdrSize ≤ flashTsMaxSize := by decide
    omega
  have hhdr : 0 < flashTsHdrSize + c.len.toNat := Nat.add_pos_left (by decide) _
  have hbuf : (toBytes (fillUnused c)).take flashTsMaxSize = toBytes (fillUnused c) :=
    List.take_of_length_le (length_toBytes _).le
  simp only [flashTsCommit, len_fillUnused]
  rw [alignDown_chunk hg _ hhdr hsize, hbuf, chunk_eq hg, partitionSize,
    Nat.mul_div_cancel _ hpos]

theorem flashTsSet_attempt {ts : Priv} {ss : List (List UInt8)} (h : Sound ts.cache ss)
    {key value : CString} {r : FlashTs} (hr : attempt ts key value = some r) (fate : Nat → Fate) :
    flashTsSet g fate key value ts =
      (commitLoop g { offset := ts.offset, cache := r } fate (toBytes r) (g.blocks * 2) 0
        (ts.offset + flashTsMaxSize) >>= fun x => pure (finish ts x)) := by
  have hu := updateCache_spec h.represents key.2 value.2
  obtain ⟨c, hc, rfl⟩ := attempt_changed hr
  rw [hc] at hu
  rw [flashTsSet, if_neg (not_not.mpr h.crc), hc]
  simp only
  rw [flashTsCommit_eq hg fate ts.offset (by rw [len_nextVersion]; exact len_fits hu.1)]
  congr 1
  funext ⟨res, ts'⟩
  simp only [finish]
  split <;> rfl

theorem chunkAt_written_ok {r : FlashTs} {wr : Nat → Outcome} (h : ∀ k < pages g, wr k = .ok)
    (f : Flash) (s : Nat) : chunkAt g (written g r wr f s) s = toBytes r := by
  have hst : stored wr (pages g) 0 = pages g := by
    refine stored_ok fun i hi => ?_
    rw [Nat.zero_add]
    exact h i hi
  have htake : (toBytes r).take flashTsMaxSize = toBytes r :=
    List.take_of_length_le (length_toBytes r).le
  rw [written, hst, pages_mul hg, htake, chunkAt_store g f s (length_toBytes r).le,
    List.drop_of_length_le, List.append_nil]
  rw [length_chunkAt, length_toBytes]

theorem wp_writeVerify (fate : Fate) (r : FlashTs) (s : Nat) (f : Flash) :
    wp (writeVerify g fate (s * flashTsMaxSize) (toBytes r))
      (fun b f' => f' = written g r fate.write f s ∧
        (b = true → ∀ k < pages g, fate.write k = .ok) ∧
        (b = false → ∃ k < pages g, ∃ c, fate.write k = .fail c ∨ fate.read k = .fail c))
      (fun f' => f' = written g r fate.write f s ∧
        ∃ k < pages g, ∃ m, fate.write k = .cut m ∨ fate.read k = .cut m) f := by
  rw [writeVerify, wp_bind]
  refine wp_mono (wp_flashWrite hg fate.write s (length_toBytes r) f) ?_ ?_
  · rintro res f' ⟨rfl, hok, hfail⟩
    by_cases h0 : res = 0
    · rw [if_neg (not_not.mpr h0), wp_bind, length_toBytes]
      refine wp_mono (wp_flashRead hg fate.read s _) ?_ ?_
      · rintro ⟨res', verify⟩ f' ⟨rfl, h0', hread⟩
        change res' = 0 at h0'
        simp only [ne_eq, h0', not_true_eq_false, if_false, wp_pure]
        refine ⟨rfl, fun _ => hok h0, fun hb => ?_⟩
        rcases hread with hv | ⟨k, hk, c, hc⟩
        · have hchunk := chunkAt_written_ok hg (r := r) (hok h0) f s
          rw [written] at hchunk
          rw [hchunk] at hv
          exact absurd hv (of_decide_eq_false hb)
        · exact ⟨k, hk, c, .inr hc⟩
      · rintro f' ⟨rfl, k, hk, m, hm⟩
        exact ⟨rfl, k, hk, m, .inr hm⟩
    · rw [if_pos h0, wp_pure]
      obtain ⟨k, hk, c, hc⟩ := hfail h0
      exact ⟨rfl, fun h => absurd h (by decide), fun _ => ⟨k, hk, c, .inl hc⟩⟩
  · rintro f' ⟨rfl, k, hk, m, hm⟩
    exact ⟨rfl, k, hk, m, .inl hm⟩

theorem wp_eraseNew (fate : Fate) {s : Nat} (f : Flash) :
    wp (eraseNew g fate (s * flashTsMaxSize))
      (fun res f' => (res = 0 ∧ (s % perBlock g = 0 → fate.erase = .ok) ∧ f' = entered g f s) ∨
        (res ≠ 0 ∧ s % perBlock g = 0 ∧ (∃ c, fate.erase = .fail c) ∧ f' = f))
      (fun f' => s % perBlock g = 0 ∧ ∃ mask, fate.erase = .cut mask ∧ f' = erasedBlock g mask f s)
      f := by
  rw [eraseNew, isNewBlock_slot hg]
  by_cases h0 : s % perBlock g = 0
  · have hb : s * flashTsMaxSize = s / perBlock g * g.blockSize := by
      rw [block_eq_slot hg, Nat.div_mul_cancel (Nat.dvd_of_mod_eq_zero h0)]
    rw [if_pos (decide_eq_true h0), hb]
    refine wp_mono (wp_flashErase g fate.erase _ f) ?_ ?_
    · rintro res f' (⟨hok, hres, rfl⟩ | ⟨hfail, hres, rfl⟩)
      · exact .inl ⟨hres, fun _ => hok, by rw [entered, if_pos h0, erasedBlock]⟩
      · exact .inr ⟨hres, h0, hfail, rfl⟩
    · rintro f' ⟨mask, hcut, rfl⟩
      exact ⟨h0, mask, hcut, rfl⟩
  · rw [if_neg (by simpa using h0), wp_pure]
    exact .inl ⟨rfl, fun h => absurd h h0, by rw [entered, if_neg h0]⟩

def Retires (g : Geometry) (s o : Nat) : Prop :=
  s % perBlock g = 0 ∧ s / perBlock g ≠ o / perBlock g

theorem wp_erasePrevious (fate : Fate) {ts : Priv} {s o : Nat} (ho : ts.offset = o * flashTsMaxSize)
    (f : Flash) :
    wp (erasePrevious g fate ts (s * flashTsMaxSize))
      (fun _ f' => (Retires g s o ∧ fate.eraseOld = .ok ∧ f' = erasedBlock g (fun _ => true) f o) ∨
        ((Retires g s o → ∃ c, fate.eraseOld = .fail c) ∧ f' = f))
      (fun f' => Retires g s o ∧ ∃ mask, fate.eraseOld = .cut mask ∧ f' = erasedBlock g mask f o)
      f := by
  have hpos : 0 < g.blockSize := by
    rw [← perBlock_mul hg]
    exact Nat.mul_pos (perBlock_pos hg) maxSize_pos
  have hcond : (isNewBlock g (s * flashTsMaxSize) &&
      alignDown (s * flashTsMaxSize) g.blockSize != alignDown ts.offset g.blockSize) = true ↔
      Retires g s o := by
    rw [ho, isNewBlock_slot hg, alignDown_slot hg, alignDown_slot hg, Bool.and_eq_true,
      decide_eq_true_eq, bne_iff_ne, Ne, Nat.mul_left_inj hpos.ne']
    exact Iff.rfl
  rw [erasePrevious]
  by_cases hr : Retires g s o
  · simp only [hcond.mpr hr, if_true]
    rw [wp_bind, ho, alignDown_slot hg]
    refine wp_mono (wp_flashErase g fate.eraseOld _ f) ?_ ?_
    · rintro res f' (⟨hok, -, rfl⟩ | ⟨hfail, -, rfl⟩)
      · exact .inl ⟨hr, hok, rfl⟩
      · exact .inr ⟨fun _ => hfail, rfl⟩
    · rintro f' ⟨mask, hcut, rfl⟩
      exact ⟨hr, mask, hcut, rfl⟩
  · simp only [mt hcond.mp hr]
    exact .inr ⟨fun h => absurd h hr, rfl⟩

def blockAfter (g : Geometry) (s : Nat) : Nat := (s / perBlock g + 1) * perBlock g

theorem commitLoop_wrap (ts : Priv) (fate : Nat → Fate) (buf : List UInt8) (n i : Nat) {s : Nat}
    (hs : slots g ≤ s) :
    commitLoop g ts fate buf n i (s * flashTsMaxSize) = commitLoop g ts fate buf n i 0 := by
  cases n with
  | zero => rfl
  | succ n =>
    have hle : partitionSize g ≤ s * flashTsMaxSize := by
      rw [partitionSize_eq hg]
      exact Nat.mul_le_mul_right _ hs
    rw [commitLoop, commitLoop]
    simp only [if_pos hle, ite_self]

theorem wp_commitLoop_succ {ts : Priv} {o : Nat} (ho : ts.offset = o * flashTsMaxSize)
    (fate : Nat → Fate) (r : FlashTs) (n i : Nat) {s : Nat} (hs : s < slots g)
    {Q : Int × Priv → Flash → Prop} {C : Flash → Prop} {f : Flash}
    (hskip : s % perBlock g = 0 → (flashBlockIsbad g (s / perBlock g * g.blockSize) = true ∨
        flashBlockIsbad g (s / perBlock g * g.blockSize) = false ∧ ∃ c, (fate i).erase = .fail c) →
      wp (commitLoop g ts fate (toBytes r) n (i + 1) (blockAfter g s * flashTsMaxSize)) Q C f)
    (hcutErase : ∀ mask, s % perBlock g = 0 →
      flashBlockIsbad g (s / perBlock g * g.blockSize) = false → (fate i).erase = .cut mask →
      C (erasedBlock g mask f s))
    (hcut : Enters g (fate i) s →
      (∃ k < pages g, ∃ m, (fate i).write k = .cut m ∨ (fate i).read k = .cut m) →
      C (written g r (fate i).write (entered g f s) s))
    (hfail : Enters g (fate i) s →
      (∃ k < pages g, ∃ c, (fate i).write k = .fail c ∨ (fate i).read k = .fail c) →
      wp (commitLoop g ts fate (toBytes r) n (i + 1) (blockAfter g s * flashTsMaxSize)) Q C
        (written g r (fate i).write (entered g f s) s))
    (hdone : Enters g (fate i) s → (∀ k < pages g, (fate i).write k = .ok) →
      (Retires g s o → ∃ c, (fate i).eraseOld = .fail c) →
      Q (0, { ts with offset := s * flashTsMaxSize })
        (written g r (fate i).write (entered g f s) s))
    (hretire : Enters g (fate i) s → (∀ k < pages g, (fate i).write k = .ok) →
      Retires g s o → (fate i).eraseOld = .ok →
      Q (0, { ts with offset := s * flashTsMaxSize })
        (erasedBlock g (fun _ => true) (written g r (fate i).write (entered g f s) s) o))
    (hcutRetire : ∀ mask, Enters g (fate i) s → (∀ k < pages g, (fate i).write k = .ok) →
      Retires g s o → (fate i).eraseOld = .cut mask →
      C (erasedBlock g mask (written g r (fate i).write (entered g f s) s) o)) :
    wp (commitLoop g ts fate (toBytes r) (n + 1) i (s * flashTsMaxSize)) Q C f := by
  have hoff : ¬ partitionSize g ≤ s * flashTsMaxSize := by
    rw [not_le, slot_lt_partition hg]
    exact hs
  have hafter : s % perBlock g = 0 →
      s * flashTsMaxSize + g.blockSize = blockAfter g s * flashTsMaxSize := by
    intro h0
    rw [slot_add_block hg, blockAfter, Nat.succ_mul,
      Nat.div_mul_cancel (Nat.dvd_of_mod_eq_zero h0)]
  have hafter' : alignDown (s * flashTsMaxSize + g.blockSize) g.blockSize =
      blockAfter g s * flashTsMaxSize := by
    rw [alignDown_next hg, block_eq_slot hg, blockAfter]
  rw [commitLoop]
  simp only [if_neg hoff, hafter']
  by_cases hbad : isNewBlock g (s * flashTsMaxSize) && flashBlockIsbad g (s * flashTsMaxSize)
  · have hb := hbad
    rw [isNewBlock_slot hg, Bool.and_eq_true, decide_eq_true_eq] at hb
    rw [if_pos hbad, hafter hb.1]
    exact hskip hb.1 (.inl (by rw [← flashBlockIsbad_start hg hb.1]; exact hb.2))
  · have hgood : s % perBlock g = 0 →
        flashBlockIsbad g (s / perBlock g * g.blockSize) = false := by
      intro h0
      rw [isNewBlock_slot hg, decide_eq_true h0, Bool.true_and, Bool.not_eq_true] at hbad
      rw [← flashBlockIsbad_start hg h0]
      exact hbad
    rw [if_neg hbad, wp_bind]
    refine wp_mono (wp_eraseNew hg (fate i) f) ?_ ?_
    · rintro res f' (⟨hres, herase, rfl⟩ | ⟨hres, h0, hfailed, rfl⟩)
      · have henter : Enters g (fate i) s := fun h0 => ⟨hgood h0, herase h0⟩
        rw [if_neg (not_not.mpr hres), wp_bind]
        refine wp_mono (wp_writeVerify hg (fate i) r s _) ?_ ?_
        · rintro verified f' ⟨rfl, hok, hno⟩
          cases verified with
          | true =>
            rw [if_pos rfl, wp_bind]
            refine wp_mono (wp_erasePrevious hg (fate i) ho _) ?_ ?_
            · rintro - f' (⟨hr, hold, rfl⟩ | ⟨hold, rfl⟩)
              · exact hretire henter (hok rfl) hr hold
              · exact hdone henter (hok rfl) hold
            · rintro f' ⟨hr, mask, hold, rfl⟩
              exact hcutRetire mask henter (hok rfl) hr hold
          | false =>
            rw [if_neg Bool.false_ne_true]
            exact hfail henter (hno rfl)
        · rintro f' ⟨rfl, hc⟩
          exact hcut henter hc
      · rw [if_pos hres, hafter h0]
        exact hskip h0 (.inr ⟨hgood h0, hfailed⟩)
    · rintro f' ⟨h0, mask, hc, rfl⟩
      exact hcutErase mask h0 (hgood h0) hc

section

variable {ts : Priv} {o : Nat} (ho : ts.offset = o * flashTsMaxSize) (fate : Nat → Fate)
  (r : FlashTs) (n i : Nat) {s : Nat} (hs : s < slots g) {Q : Int × Priv → Flash → Prop}
  {C : Flash → Prop} {f : Flash}
include ho hs

theorem wp_round_skip (h0 : s % perBlock g = 0) {c : Bool} (hc : (fate i).erase = .fail c)
    (h : wp (commitLoop g ts fate (toBytes r) n (i + 1) (blockAfter g s * flashTsMaxSize)) Q C f) :
    wp (commitLoop g ts fate (toBytes r) (n + 1) i (s * flashTsMaxSize)) Q C f := by
  have hno : ¬ Enters g (fate i) s := by
    intro henter
    have he := (henter h0).2
    rw [hc] at he
    cases he
  refine wp_commitLoop_succ hg ho fate r n i hs (fun _ _ => h) (fun mask _ _ hm => ?_)
    (fun he => absurd he hno) (fun he => absurd he hno) (fun he => absurd he hno)
    (fun he => absurd he hno) (fun _ he => absurd he hno)
  rw [hc] at hm
  cases hm

theorem wp_round_drop (henter : Enters g (fate i) s) {wr : Nat → Outcome}
    (hw : (fate i).write = wr) (hfail : wr 0 = .fail false) (hcut : ∀ k m, wr k ≠ .cut m)
    (hread : ∀ k m, (fate i).read k ≠ .cut m)
    (h : wp (commitLoop g ts fate (toBytes r) n (i + 1) (blockAfter g s * flashTsMaxSize)) Q C
      (entered g f s)) :
    wp (commitLoop g ts fate (toBytes r) (n + 1) i (s * flashTsMaxSize)) Q C f := by
  have hpos := pages_pos hg
  have hst : stored wr (pages g) 0 = 0 := by
    obtain ⟨m, hm⟩ : ∃ m, pages g = m + 1 := ⟨pages g - 1, by omega⟩
    rw [hm, stored, hfail]
    rfl
  have hwritten : written g r wr (entered g f s) s = entered g f s := by
    rw [written, hst, Nat.zero_mul, List.take_zero, store_nil]
  subst hw
  have hnot : ¬ ∀ k < pages g, (fate i).write k = .ok := by
    intro hall
    have h0 := hall 0 hpos
    rw [hfail] at h0
    cases h0
  refine wp_commitLoop_succ hg ho fate r n i hs (fun h0 hskip => ?_) (fun mask h0 _ hm => ?_)
    (fun _ hc => ?_) (fun _ _ => ?_) (fun _ hall => absurd hall hnot)
    (fun _ hall => absurd hall hnot) (fun _ _ hall => absurd hall hnot)
  · exact absurd hskip (henter.not_skip h0)
  · rw [(henter h0).2] at hm
    cases hm
  · obtain ⟨k, -, m, hm | hm⟩ := hc
    · exact absurd hm (hcut k m)
    · exact absurd hm (hread k m)
  · rw [hwritten]
    exact h

theorem wp_round_ok (henter : Enters g (fate i) s) (hw : ∀ k, (fate i).write k = .ok)
    (hread : ∀ k, (fate i).read k = .ok) (hold : (fate i).eraseOld = .ok)
    (hstay : ¬ Retires g s o → Q (0, { ts with offset := s * flashTsMaxSize })
      (written g r (fate i).write (entered g f s) s))
    (hretire : Retires g s o → Q (0, { ts with offset := s * flashTsMaxSize })
      (erasedBlock g (fun _ => true) (written g r (fate i).write (entered g f s) s) o)) :
    wp (commitLoop g ts fate (toBytes r) (n + 1) i (s * flashTsMaxSize)) Q C f := by
  refine wp_commitLoop_succ hg ho fate r n i hs (fun h0 hskip => ?_) (fun mask h0 _ hm => ?_)
    (fun _ hc => ?_) (fun _ hc => ?_) (fun _ _ hnot => ?_) (fun _ _ hr _ => hretire hr)
    (fun mask _ _ _ hm => ?_)
  · exact absurd hskip (henter.not_skip h0)
  · rw [(henter h0).2] at hm
    cases hm
  · obtain ⟨k, -, m, hm | hm⟩ := hc
    · rw [hw k] at hm
      cases hm
    · rw [hread k] at hm
      cases hm
  · obtain ⟨k, -, c, hc | hc⟩ := hc
    · rw [hw k] at hc
      cases hc
    · rw [hread k] at hc
      cases hc
  · refine hstay fun hr => ?_
    obtain ⟨c, hc⟩ := hnot hr
    rw [hold] at hc
    cases hc
  · rw [hold] at hm
    cases hm

end

end

end SynaBoot.FlashCommit
