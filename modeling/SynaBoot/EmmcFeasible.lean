import SynaBoot.PartTool

namespace SynaBoot.EmmcFeasible

open SynaBoot.CText
open SynaBoot.PartTool

def scanLines : List (List Char) → Option (List TableEntry)
  | [] => some []
  | line :: ls =>
    let line := line.takeWhile fun c => c ≠ '#' && c ≠ '\x00'
    if line.length < 2 then scanLines ls
    else do
      let e ← scanEmmc line
      let es ← scanLines ls
      some (e :: es)

def enhance (e : TableEntry) : ℕ := (fields ',' e.emmcOperation).count "enhance".toList

variable (bs : ℤ)

def size (e : TableEntry) : ℕ := amount bs e.layout

def tableSize (e : TableEntry) : ℕ := if enhance e = 1 then size bs e / 2 else size bs e

def loss (e : TableEntry) : ℕ := if enhance e = 1 then size bs e / 2 else 0

def total (es : List TableEntry) : ℕ := (es.map (size bs)).sum

def usable (args : Args) : ℤ := int64 (args.chipSize - reservedTail args.chipSize)

structure Sized (e : TableEntry) : Prop where
  rest : e.layout ≠ ['-']
  place : '@' ∉ e.layout
  aligned : unaligned bs (size bs e) = false

structure Feasible (args : Args) (file : List Char) (front : List TableEntry) (dash : TableEntry)
    (tail : List TableEntry) : Prop where
  block : 0 < args.blockSize
  scanned : scanLines (lines 511 file.length file) = some (front ++ dash :: tail)
  few : (front ++ dash :: tail).length ≤ maxEntries
  layout : dash.layout = ['-']
  sized : ∀ e ∈ front ++ tail, Sized args.blockSize e
  operations : ∀ e ∈ front ++ dash :: tail, (fields ',' e.emmcOperation).length ≤ 8
  enhanced : ((front ++ dash :: tail).map enhance).sum ≤ 1
  fits : gptPartReservedSize + (total args.blockSize front + total args.blockSize tail : ℤ) ≤ usable args

def Accepted (args : Args) (file : List Char) : Prop :=
  ∃ table half, layoutTable .emmcGpt args file = some (table, half) ∧
    table.Pairwise (fun e f : TableEntry => e.start + e.size ≤ f.start) ∧
    ∀ e ∈ table, gptPartReservedSize ≤ e.start ∧ e.start + e.size ≤ usable args

/-- The layouts that the backward pass gets wrong. -/
def Misplaced (dash : TableEntry) (tail : List TableEntry) : Prop :=
  (∃ before e after, tail = before ++ e :: after ∧ enhance e = 1 ∧ size bs e / 2 < total bs after) ∨
    enhance dash = 1 ∧ tail ≠ []

section Reading

variable {bs} {e : TableEntry} {es : List TableEntry} {s : Scan}

def readEntry (bs : ℤ) (s : Scan) (e : TableEntry) : Option Scan := do
  let s ← markEnhanced .emmcGpt s e
  if maxEntries ≤ s.table.length then none else addEntry bs s e

theorem readLines_eq {ls : List (List Char)} (h : scanLines ls = some es) (s : Scan) :
    readLines .emmcGpt bs s ls = es.foldlM (readEntry bs) s := by
  induction ls generalizing es s with
  | nil =>
    cases h
    rfl
  | cons line ls ih =>
    unfold scanLines at h
    unfold readLines readLine
    dsimp only at h ⊢
    by_cases hshort : (line.takeWhile fun c => c ≠ '#' && c ≠ '\x00').length < 2
    · rw [if_pos hshort] at h ⊢
      exact ih h s
    · rw [if_neg hshort] at h ⊢
      rw [if_neg (by decide)]
      obtain ⟨e, he, h⟩ := Option.bind_eq_some_iff.mp h
      obtain ⟨es', hes', h⟩ := Option.bind_eq_some_iff.mp h
      cases h
      rw [he, List.foldlM_cons]
      change Option.bind (readEntry bs s e) _ = Option.bind (readEntry bs s e) _
      exact congrArg _ (funext fun s' => ih hes' s')

def halfIndex : ℕ → List TableEntry → Option ℕ
  | _, [] => none
  | i, e :: es => if enhance e = 1 then some i else halfIndex (i + 1) es

theorem markEnhanced_eq (hops : (fields ',' e.emmcOperation).length ≤ 8)
    (hone : enhance e + (if s.halfSizeEntry.isSome then 1 else 0) ≤ 1) :
    markEnhanced .emmcGpt s e =
      some { s with
        halfSizeEntry := if enhance e = 1 then some s.table.length else s.halfSizeEntry } := by
  unfold markEnhanced
  rw [if_pos rfl]
  dsimp only
  rw [if_neg (by omega)]
  have hcount : (fields ',' e.emmcOperation).count "enhance".toList = enhance e := rfl
  rw [hcount]
  cases hhalf : s.halfSizeEntry with
  | none =>
    rcases Nat.le_one_iff_eq_zero_or_eq_one.mp (by omega : enhance e ≤ 1) with h | h
    · rw [h, if_neg (by decide), ← hhalf]
      rfl
    · rw [h, if_pos rfl]
      rfl
  | some j =>
    rw [hhalf, Option.isSome_some, if_pos rfl] at hone
    have hzero : enhance e = 0 := by omega
    rw [hzero, if_neg (by decide), ← hhalf]
    rfl

theorem parseLayout_sized (h : Sized bs e) :
    parseLayout bs e = some { e with start := 0, size := size bs e } := by
  have hsize : layoutSize e.layout = e.layout :=
    List.takeWhile_eq_self_iff.mpr fun c hc => decide_eq_true fun hat => h.place (hat ▸ hc)
  have hzero : unaligned bs 0 = false := by
    rw [unaligned, Nat.zero_and]
    rfl
  have haligned : unaligned bs (amount bs e.layout) = false := h.aligned
  unfold parseLayout
  dsimp only
  rw [if_neg h.place, hsize, hzero, haligned]
  rfl

end Reading

section Passes

variable {bs} {e : TableEntry} {es : List TableEntry} {s : Scan}

def placeFront (bs : ℤ) : ℤ → List TableEntry → List TableEntry
  | _, [] => []
  | p, e :: es => { e with start := p, size := tableSize bs e } :: placeFront bs (p + tableSize bs e) es

def frontSize (bs : ℤ) (es : List TableEntry) : ℕ := (es.map (tableSize bs)).sum

def losses (bs : ℤ) (es : List TableEntry) : ℕ := (es.map (loss bs)).sum

theorem total_cons (e : TableEntry) (es : List TableEntry) :
    total bs (e :: es) = size bs e + total bs es := by
  rw [total, List.map_cons, List.sum_cons, total]

theorem frontSize_cons (e : TableEntry) (es : List TableEntry) :
    frontSize bs (e :: es) = tableSize bs e + frontSize bs es := by
  rw [frontSize, List.map_cons, List.sum_cons, frontSize]

theorem losses_cons (e : TableEntry) (es : List TableEntry) :
    losses bs (e :: es) = loss bs e + losses bs es := by
  rw [losses, List.map_cons, List.sum_cons, losses]

theorem front_le_total (bs : ℤ) (es : List TableEntry) : frontSize bs es + losses bs es ≤ total bs es := by
  induction es with
  | nil => exact Nat.le_refl 0
  | cons e es ih =>
    have hsize : tableSize bs e + loss bs e ≤ size bs e := by
      unfold tableSize loss
      split <;> omega
    rw [total_cons, frontSize_cons, losses_cons]
    omega

structure Reads (s : Scan) (es : List TableEntry) : Prop where
  earlier : ∀ j, s.halfSizeEntry = some j → j < s.table.length
  operations : ∀ e ∈ es, (fields ',' e.emmcOperation).length ≤ 8
  enhanced : (es.map enhance).sum + (if s.halfSizeEntry.isSome then 1 else 0) ≤ 1
  few : s.table.length + es.length ≤ maxEntries

theorem Reads.readEntry_eq (h : Reads s (e :: es)) :
    readEntry bs s e = addEntry bs { s with
      halfSizeEntry := if enhance e = 1 then some s.table.length else s.halfSizeEntry } e := by
  have hone := h.enhanced
  have hfew := h.few
  rw [List.map_cons, List.sum_cons] at hone
  rw [List.length_cons] at hfew
  have hroom : ¬ maxEntries ≤ s.table.length := by omega
  unfold readEntry
  rw [markEnhanced_eq (h.operations e List.mem_cons_self) (by omega)]
  exact if_neg hroom

theorem Reads.next (h : Reads s (e :: es)) (s' : Scan)
    (hhalf : s'.halfSizeEntry = if enhance e = 1 then some s.table.length else s.halfSizeEntry)
    (htable : s'.table.length = s.table.length + 1) :
    Reads s' es ∧ s'.halfSizeEntry.or (halfIndex s'.table.length es) =
      s.halfSizeEntry.or (halfIndex s.table.length (e :: es)) := by
  obtain ⟨hearlier, hops, hone, hfew⟩ := h
  rw [List.map_cons, List.sum_cons] at hone
  rw [List.length_cons] at hfew
  refine ⟨⟨fun j hj => ?_, fun x hx => hops x (List.mem_cons_of_mem e hx), ?_, by omega⟩, ?_⟩
  · rw [hhalf] at hj
    split at hj
    · cases hj
      omega
    · have := hearlier j hj
      omega
  · rw [hhalf]
    split
    · rw [Option.isSome_some, if_pos rfl]
      omega
    · omega
  · rw [hhalf, htable, halfIndex]
    by_cases he : enhance e = 1
    · have hnone : s.halfSizeEntry = none := by
        by_contra hsome
        rw [if_pos (Option.isSome_iff_ne_none.mpr hsome)] at hone
        omega
      rw [if_pos he, if_pos he, hnone]
      rfl
    · rw [if_neg he, if_neg he]

def frontStep (bs : ℤ) (s : Scan) (e : TableEntry) : Scan :=
  { s with
    table := s.table ++ [{ e with start := s.pos1, size := tableSize bs e }]
    pos1 := s.pos1 + tableSize bs e
    halfSizeEntry := if enhance e = 1 then some s.table.length else s.halfSizeEntry
    chipSize := s.chipSize - loss bs e }

def frontScan (bs : ℤ) (s : Scan) (es : List TableEntry) : Scan :=
  { s with
    table := s.table ++ placeFront bs s.pos1 es
    pos1 := s.pos1 + frontSize bs es
    halfSizeEntry := s.halfSizeEntry.or (halfIndex s.table.length es)
    chipSize := s.chipSize - losses bs es }

theorem readEntry_front (h : Reads s (e :: es)) (hentry : s.entry = none) (hsized : Sized bs e)
    (hpos : 0 < s.pos1) (hfits : s.pos1 + tableSize bs e ≤ s.chipSize - loss bs e)
    (hchip : s.chipSize < 2 ^ 63) : readEntry bs s e = some (frontStep bs s e) := by
  have hadd : int64 (s.pos1 + tableSize bs e) = s.pos1 + tableSize bs e :=
    int64_of_range (by omega)
  rw [h.readEntry_eq]
  unfold addEntry frontStep
  dsimp only
  rw [if_neg (fun hd => hsized.rest hd.1), if_neg hsized.rest, hentry, if_neg (by decide),
    parseLayout_sized hsized]
  change (if _ < _ then none else some _) = _
  by_cases he : enhance e = 1
  · have hhalf : tableSize bs e = size bs e / 2 := if_pos he
    have hloss : loss bs e = size bs e / 2 := if_pos he
    rw [hhalf] at hfits hadd
    rw [hloss] at hfits
    have hsub : int64 (s.chipSize - (size bs e / 2 : ℕ)) = s.chipSize - (size bs e / 2 : ℕ) :=
      int64_of_range (by omega)
    simp only [he, if_true, halve, hadd, hsub, hhalf, hloss]
    rw [if_neg (by omega)]
  · have hhalf : tableSize bs e = size bs e := if_neg he
    have hloss : loss bs e = 0 := if_neg he
    have hne : ¬ s.halfSizeEntry = some s.table.length :=
      fun hj => absurd (h.earlier _ hj) (Nat.lt_irrefl _)
    rw [hhalf] at hfits hadd
    rw [hloss] at hfits
    simp only [he, if_false, hne, hadd, hhalf, hloss, if_true]
    rw [if_neg (by omega), Nat.cast_zero, sub_zero]

theorem Reads.frontStep (bs : ℤ) (h : Reads s (e :: es)) :
    Reads (frontStep bs s e) es ∧
      ∀ fs rest, es = fs ++ rest → frontScan bs (frontStep bs s e) fs = frontScan bs s (e :: fs) := by
  have htable : (EmmcFeasible.frontStep bs s e).table.length = s.table.length + 1 := by
    unfold EmmcFeasible.frontStep
    rw [List.length_append]
    rfl
  refine ⟨(h.next _ rfl htable).1, fun fs rest hfs => ?_⟩
  have hreads : Reads s (e :: fs) := by
    have hone := h.enhanced
    have hfew := h.few
    rw [hfs, List.map_cons, List.map_append, List.sum_cons, List.sum_append] at hone
    rw [hfs, List.length_cons, List.length_append] at hfew
    refine ⟨h.earlier, fun x hx => h.operations x ?_, ?_, ?_⟩
    · rw [hfs, ← List.cons_append]
      exact List.mem_append_left rest hx
    · rw [List.map_cons, List.sum_cons]
      omega
    · rw [List.length_cons]
      omega
  have hor := (hreads.next (EmmcFeasible.frontStep bs s e) rfl htable).2
  unfold frontScan
  rw [hor, frontSize_cons, losses_cons, Nat.cast_add, Nat.cast_add, ← add_assoc, ← sub_sub]
  unfold EmmcFeasible.frontStep
  dsimp only
  rw [List.append_assoc]
  rfl

theorem foldlM_front {rest : List TableEntry} (h : Reads s (es ++ rest)) (hentry : s.entry = none)
    (hsized : ∀ e ∈ es, Sized bs e) (hpos : 0 < s.pos1)
    (hfits : s.pos1 + frontSize bs es ≤ s.chipSize - losses bs es) (hchip : s.chipSize < 2 ^ 63) :
    es.foldlM (readEntry bs) s = some (frontScan bs s es) ∧ Reads (frontScan bs s es) rest := by
  induction es generalizing s with
  | nil =>
    have hsame : frontScan bs s [] = s := by
      unfold frontScan
      rw [halfIndex, Option.or_none, placeFront, List.append_nil, frontSize, losses, List.map_nil,
        List.map_nil, List.sum_nil, Nat.cast_zero, add_zero, sub_zero]
    rw [hsame]
    exact ⟨rfl, h⟩
  | cons e es ih =>
    rw [frontSize_cons, losses_cons] at hfits
    obtain ⟨hreads, hscan⟩ := h.frontStep bs
    rw [List.foldlM_cons, ← hscan es rest rfl,
      readEntry_front h hentry (hsized e List.mem_cons_self) hpos (by omega) hchip]
    refine ih hreads hentry (fun x hx => hsized x (List.mem_cons_of_mem e hx)) ?_ ?_ ?_
    · change 0 < s.pos1 + tableSize bs e
      omega
    · change s.pos1 + tableSize bs e + frontSize bs es ≤ s.chipSize - loss bs e - losses bs es
      omega
    · change s.chipSize - loss bs e < 2 ^ 63
      omega

theorem readEntry_behind (h : Reads s (e :: es)) {i : ℕ} (hentry : s.entry = some i)
    (hrest : e.layout ≠ ['-']) :
    readEntry bs s e = some { s with
      table := s.table ++ [e]
      halfSizeEntry := if enhance e = 1 then some s.table.length else s.halfSizeEntry } := by
  rw [h.readEntry_eq]
  unfold addEntry
  dsimp only
  rw [if_neg (fun hd => hrest hd.1), if_neg hrest, hentry, if_pos Option.isSome_some]

theorem readEntry_dash (h : Reads s (e :: es)) (hentry : s.entry = none) (hdash : e.layout = ['-']) :
    readEntry bs s e = some { s with
      table := s.table ++ [e]
      entry := some s.table.length
      halfSizeEntry := if enhance e = 1 then some s.table.length else s.halfSizeEntry } := by
  have hfirst : ¬ (e.layout = ['-'] ∧ s.entry.isSome = true) := by
    rw [hentry]
    exact fun hd => Bool.false_ne_true hd.2
  rw [h.readEntry_eq]
  unfold addEntry
  dsimp only
  rw [if_neg hfirst, if_pos hdash, if_pos Option.isSome_some]

theorem foldlM_behind (h : Reads s es) {i : ℕ} (hentry : s.entry = some i)
    (hrest : ∀ e ∈ es, e.layout ≠ ['-']) :
    es.foldlM (readEntry bs) s = some { s with
      table := s.table ++ es
      halfSizeEntry := s.halfSizeEntry.or (halfIndex s.table.length es) } := by
  induction es generalizing s with
  | nil =>
    rw [List.foldlM_nil, halfIndex, Option.or_none, List.append_nil]
    rfl
  | cons e es ih =>
    rw [List.foldlM_cons, readEntry_behind h hentry (hrest e List.mem_cons_self)]
    change List.foldlM (readEntry bs) _ es = _
    obtain ⟨hreads, hor⟩ := h.next { s with
      table := s.table ++ [e]
      halfSizeEntry := if enhance e = 1 then some s.table.length else s.halfSizeEntry } rfl
      (by rw [List.length_append]; rfl)
    rw [ih hreads hentry fun x hx => hrest x (List.mem_cons_of_mem e hx), hor]
    dsimp only
    rw [List.append_assoc]
    rfl

theorem foldlM_rest (h : Reads s (e :: es)) (hentry : s.entry = none) (hdash : e.layout = ['-'])
    (hrest : ∀ e ∈ es, e.layout ≠ ['-']) :
    (e :: es).foldlM (readEntry bs) s = some { s with
      table := s.table ++ e :: es
      entry := some s.table.length
      halfSizeEntry := s.halfSizeEntry.or (halfIndex s.table.length (e :: es)) } := by
  obtain ⟨hreads, hor⟩ := h.next { s with
    table := s.table ++ [e]
    entry := some s.table.length
    halfSizeEntry := if enhance e = 1 then some s.table.length else s.halfSizeEntry } rfl
    (by rw [List.length_append]; rfl)
  rw [List.foldlM_cons, readEntry_dash h hentry hdash]
  change List.foldlM (readEntry bs) _ es = _
  rw [foldlM_behind hreads rfl hrest, hor]
  dsimp only
  rw [List.append_assoc]
  rfl

def hang (bs : ℤ) (p : ℤ) : List TableEntry → List TableEntry
  | [] => []
  | e :: es => { e with start := p - total bs (e :: es), size := size bs e } :: hang bs p es

theorem backward_append {half : Option ℕ} {chip p c : ℤ} {i : ℕ} {rest rest' : List TableEntry}
    (hrest : backward bs half chip (i + es.length) rest = some (rest', p, c))
    (hsized : ∀ e ∈ es, Sized bs e) (hhalf : ∀ j, half = some j → j < i ∨ i + es.length ≤ j)
    (hlow : 0 ≤ p - total bs es) (hhigh : p < 2 ^ 63) :
    backward bs half chip i (es ++ rest) = some (hang bs p es ++ rest', p - total bs es, c) := by
  induction es generalizing i with
  | nil =>
    rw [List.nil_append, hang, List.nil_append, total, List.map_nil, List.sum_nil, Nat.cast_zero,
      sub_zero]
    exact hrest
  | cons e es ih =>
    rw [total_cons] at hlow
    rw [List.length_cons] at hrest hhalf
    have hne : ¬ half = some i := by
      intro hi
      have := hhalf i hi
      omega
    have hshift : i + 1 + es.length = i + (es.length + 1) := by omega
    have hrec := ih (i := i + 1) (by rw [hshift]; exact hrest)
      (fun x hx => hsized x (List.mem_cons_of_mem e hx))
      (fun j hj => by have := hhalf j hj; omega) (by omega)
    have hsub : int64 (p - total bs es - size bs e) = p - total bs (e :: es) := by
      rw [int64_of_range (by omega), total_cons]
      omega
    rw [List.cons_append, backward, hrec]
    change Option.bind (parseLayout bs e) _ = _
    rw [parseLayout_sized (hsized e List.mem_cons_self)]
    change some _ = _
    simp only [hne, if_false, hsub, if_true]
    rfl

theorem backward_hang {half : Option ℕ} {chip : ℤ} {i : ℕ} (hsized : ∀ e ∈ es, Sized bs e)
    (hhalf : ∀ j, half = some j → j < i ∨ i + es.length ≤ j) (hlow : 0 ≤ chip - total bs es)
    (hhigh : chip < 2 ^ 63) :
    backward bs half chip i es = some (hang bs chip es, chip - total bs es, chip) := by
  have hrest : backward bs half chip (i + es.length) [] = some ([], chip, chip) := rfl
  have happ := backward_append hrest hsized hhalf hlow hhigh
  rw [List.append_nil, List.append_nil] at happ
  exact happ

theorem backward_enhanced (chip : ℤ) (i : ℕ) (he : Sized bs e) (hsized : ∀ e ∈ es, Sized bs e)
    (hlow : 0 ≤ chip - total bs es) (hlow' : 0 ≤ chip - size bs e) (hhigh : chip < 2 ^ 63) :
    backward bs (some i) chip i (e :: es) =
      some ({ e with start := chip - (size bs e / 2 : ℕ) - (size bs e / 2 : ℕ), size := size bs e / 2 } ::
        hang bs chip es, chip - (size bs e / 2 : ℕ) - (size bs e / 2 : ℕ), chip - (size bs e / 2 : ℕ)) := by
  have hrec : backward bs (some i) chip (i + 1) es = some (hang bs chip es, chip - total bs es, chip) :=
    backward_hang hsized (fun j hj => by cases hj; omega) hlow hhigh
  have hchip : int64 (chip - (size bs e / 2 : ℕ)) = chip - (size bs e / 2 : ℕ) :=
    int64_of_range (by omega)
  have hpos : int64 (chip - (size bs e / 2 : ℕ) - (size bs e / 2 : ℕ)) =
      chip - (size bs e / 2 : ℕ) - (size bs e / 2 : ℕ) := int64_of_range (by omega)
  rw [backward, hrec]
  change Option.bind (parseLayout bs e) _ = _
  rw [parseLayout_sized he]
  change some _ = _
  simp only [if_true, halve, hchip, hpos]

end Passes

section Overlaps

variable {bs} {e f : TableEntry} {es fs : List TableEntry} {p q m : ℤ}

def Fits : ℤ → List TableEntry → ℤ → Prop
  | p, [], q => p ≤ q
  | p, e :: es, q => p ≤ e.start ∧ Fits (e.start + e.size) es q

theorem Fits.mono (h : Fits m es q) (hp : p ≤ m) : Fits p es q := by
  cases es with
  | nil => exact hp.trans h
  | cons e es => exact ⟨hp.trans h.1, h.2⟩

theorem Fits.widen (h : Fits p es m) (hq : m ≤ q) : Fits p es q := by
  induction es generalizing p with
  | nil => exact le_trans h hq
  | cons e es ih => exact ⟨h.1, ih h.2⟩

theorem Fits.append (h : Fits p es m) (h' : Fits m fs q) : Fits p (es ++ fs) q := by
  induction es generalizing p with
  | nil => exact h'.mono h
  | cons e es ih => exact ⟨h.1, ih h.2⟩

theorem Fits.le (h : Fits p es q) : p ≤ q := by
  induction es generalizing p with
  | nil => exact h
  | cons e es ih =>
    have hle := ih h.2
    have hstart := h.1
    omega

theorem Fits.mem (h : Fits p es q) : ∀ e ∈ es, p ≤ e.start ∧ e.start + e.size ≤ q := by
  induction es generalizing p with
  | nil => exact fun e he => absurd he List.not_mem_nil
  | cons e es ih =>
    rintro x (_ | ⟨_, hx⟩)
    · exact ⟨h.1, h.2.le⟩
    · have hx' := ih h.2 x hx
      have hstart := h.1
      exact ⟨by omega, hx'.2⟩

theorem Fits.pairwise (h : Fits p es q) :
    es.Pairwise fun e f : TableEntry => e.start + e.size ≤ f.start := by
  induction es generalizing p with
  | nil => exact .nil
  | cons e es ih => exact .cons (fun f hf => (h.2.mem f hf).1) (ih h.2)

theorem Fits.overlaps (h : Fits p es q) (hp : 0 ≤ p) (hq : q < 2 ^ 63) : overlaps es = false := by
  induction es generalizing p with
  | nil => rfl
  | cons e es ih =>
    cases es with
    | nil => rfl
    | cons f es =>
      have hstart := h.1
      have hnext := h.2.1
      have hend := (h.2.mem f List.mem_cons_self).2
      have he := uint64_of_range (x := e.start + e.size) (by omega)
      have hf := uint64_of_range (x := f.start) (by omega)
      rw [PartTool.overlaps, ih h.2 (by omega), Bool.or_false, decide_eq_false_iff_not]
      omega

theorem overlaps_append (h : uint64 f.start < uint64 (e.start + e.size)) :
    overlaps (es ++ e :: f :: fs) = true := by
  induction es with
  | nil =>
    rw [List.nil_append, overlaps, decide_eq_true h, Bool.true_or]
  | cons x es ih =>
    cases es with
    | nil =>
      rw [List.nil_append] at ih
      rw [List.cons_append, List.nil_append, overlaps, ih, Bool.or_true]
    | cons y es =>
      rw [List.cons_append] at ih
      rw [List.cons_append, List.cons_append, overlaps, ih, Bool.or_true]

theorem fits_front (p : ℤ) (es : List TableEntry) :
    Fits p (placeFront bs p es) (p + frontSize bs es) := by
  induction es generalizing p with
  | nil =>
    rw [frontSize, List.map_nil, List.sum_nil, Nat.cast_zero, add_zero]
    exact le_rfl
  | cons e es ih =>
    refine ⟨le_rfl, ?_⟩
    rw [frontSize_cons, Nat.cast_add, ← add_assoc]
    exact ih _

theorem fits_hang (q : ℤ) (es : List TableEntry) : Fits (q - total bs es) (hang bs q es) q := by
  induction es with
  | nil =>
    rw [total, List.map_nil, List.sum_nil, Nat.cast_zero, sub_zero]
    exact le_rfl
  | cons e es ih =>
    refine ⟨le_rfl, ?_⟩
    have hend : q - total bs (e :: es) + size bs e = q - total bs es := by
      rw [total_cons]
      omega
    change Fits (q - total bs (e :: es) + size bs e) _ q
    rw [hend]
    exact ih

end Overlaps

section Layout

variable {args : Args} {file : List Char} {front tail : List TableEntry} {dash : TableEntry}

theorem halfIndex_append (i : ℕ) (es fs : List TableEntry) :
    halfIndex i (es ++ fs) = (halfIndex i es).or (halfIndex (i + es.length) fs) := by
  induction es generalizing i with
  | nil => rfl
  | cons e es ih =>
    have hshift : i + 1 + es.length = i + (e :: es).length := by
      rw [List.length_cons]
      omega
    rw [List.cons_append, halfIndex, halfIndex]
    split
    · rfl
    · rw [ih, hshift]

theorem halfIndex_lt {i j : ℕ} {es : List TableEntry} (h : halfIndex i es = some j) :
    i ≤ j ∧ j < i + es.length := by
  induction es generalizing i with
  | nil => cases h
  | cons e es ih =>
    rw [List.length_cons]
    rw [halfIndex] at h
    split at h
    · cases h
      omega
    · have := ih h
      omega

theorem halfIndex_none {i : ℕ} {es : List TableEntry} (h : (es.map enhance).sum = 0) :
    halfIndex i es = none := by
  induction es generalizing i with
  | nil => rfl
  | cons e es ih =>
    rw [List.map_cons, List.sum_cons] at h
    rw [halfIndex, if_neg (by omega)]
    exact ih (by omega)

theorem length_placeFront (bs p : ℤ) (es : List TableEntry) : (placeFront bs p es).length = es.length := by
  induction es generalizing p with
  | nil => rfl
  | cons e es ih => exact congrArg Nat.succ (ih _)

theorem usable_lt (args : Args) : usable args < 2 ^ 63 :=
  Int.bmod_lt (x := args.chipSize - reservedTail args.chipSize) (by decide : 0 < 2 ^ 64)

def scan (args : Args) (front : List TableEntry) (dash : TableEntry) (tail : List TableEntry) : Scan where
  table := placeFront args.blockSize gptPartReservedSize front ++ dash :: tail
  pos1 := gptPartReservedSize + frontSize args.blockSize front
  entry := some front.length
  halfSizeEntry := halfIndex 0 (front ++ dash :: tail)
  chipSize := usable args - losses args.blockSize front

theorem Feasible.reads (h : Feasible args file front dash tail) :
    Reads ⟨[], gptPartReservedSize, none, none, usable args⟩ (front ++ dash :: tail) := by
  refine ⟨fun j hj => ?_, h.operations, h.enhanced, ?_⟩
  · cases hj
  · change 0 + _ ≤ _
    rw [Nat.zero_add]
    exact h.few

theorem Feasible.readLines (h : Feasible args file front dash tail) :
    readLines .emmcGpt args.blockSize ⟨[], gptPartReservedSize, none, none, usable args⟩
      (lines 511 file.length file) = some (scan args front dash tail) := by
  have hfits := h.fits
  have hle := front_le_total args.blockSize front
  have hreserved : (0 : ℤ) < gptPartReservedSize := by decide
  obtain ⟨hfold, hreads⟩ := foldlM_front h.reads rfl
    (fun e he => h.sized e (List.mem_append_left _ he)) hreserved
    (by change (gptPartReservedSize : ℤ) + _ ≤ usable args - _; omega) (usable_lt args)
  rw [readLines_eq h.scanned, List.foldlM_append, hfold]
  change List.foldlM (readEntry args.blockSize) _ (dash :: tail) = _
  rw [foldlM_rest hreads rfl h.layout
    fun e he => (h.sized e (List.mem_append_right _ he)).rest]
  unfold frontScan scan
  dsimp only
  rw [List.nil_append, length_placeFront, halfIndex_append, Nat.zero_add]
  rfl

theorem placeTail_scan {tail' : List TableEntry} {p c : ℤ}
    (h : backward args.blockSize (scan args front dash tail).halfSizeEntry
      (scan args front dash tail).chipSize (front.length + 1) tail = some (tail', p, c))
    (hle : (scan args front dash tail).pos1 ≤ p) :
    placeTail args.blockSize (scan args front dash tail) =
      let e := { dash with
        start := (scan args front dash tail).pos1
        size := uint64 (p - (scan args front dash tail).pos1) }
      let front' := placeFront args.blockSize gptPartReservedSize front
      if (scan args front dash tail).halfSizeEntry = some front.length then
        (backwardAgain args.blockSize (int64 (c - (halve e).size)) tail').bind fun r =>
          if r.2 < (scan args front dash tail).pos1 then none else some (front' ++ halve e :: r.1)
      else some (front' ++ e :: tail') := by
  have hlen := length_placeFront args.blockSize gptPartReservedSize front
  have hget : (scan args front dash tail).table[front.length]? = some dash := by
    change (_ ++ dash :: tail)[front.length]? = _
    rw [List.getElem?_append_right hlen.le, hlen, Nat.sub_self]
    rfl
  have htake : (scan args front dash tail).table.take front.length =
      placeFront args.blockSize gptPartReservedSize front := List.take_left' hlen
  have hdrop : (scan args front dash tail).table.drop (front.length + 1) = tail := by
    change (_ ++ dash :: tail).drop _ = _
    rw [← hlen, List.drop_append, List.drop_of_length_le (Nat.le_succ _), List.nil_append,
      Nat.add_sub_cancel_left]
    rfl
  have hentry : (scan args front dash tail).entry = some front.length := rfl
  unfold placeTail
  rw [hentry, Option.bind_some, hget, Option.map_some]
  dsimp only
  rw [hdrop, h, htake]
  change (if p < _ then none else _) = _
  rw [if_neg (not_lt.mpr hle)]
  rfl

theorem Feasible.layoutTable (h : Feasible args file front dash tail) :
    layoutTable .emmcGpt args file =
      (placeTail args.blockSize (scan args front dash tail)).bind fun t =>
        if overlaps t then none else some (t, (scan args front dash tail).halfSizeEntry) := by
  have hpos : 0 < usable args := by
    have hfits := h.fits
    have hreserved : (0 : ℤ) < gptPartReservedSize := by decide
    omega
  have hnot : ¬ (args.blockSize ≤ 0 ∨ usable args ≤ 0) := by
    have hblock := h.block
    omega
  unfold PartTool.layoutTable
  dsimp only
  rw [if_pos rfl]
  change (if args.blockSize ≤ 0 ∨ usable args ≤ 0 then none else _) = _
  rw [if_neg hnot, if_pos rfl]
  change Option.bind (PartTool.readLines .emmcGpt args.blockSize
    ⟨[], gptPartReservedSize, none, none, usable args⟩ _) _ = _
  rw [h.readLines, Option.bind_some]
  change Option.bind _ _ = _
  congr 1

theorem Feasible.accepted (h : Feasible args file front dash tail) {t : List TableEntry}
    (ht : placeTail args.blockSize (scan args front dash tail) = some t)
    (hfits : Fits gptPartReservedSize t (usable args)) : Accepted args file := by
  refine ⟨t, (scan args front dash tail).halfSizeEntry, ?_, hfits.pairwise, hfits.mem⟩
  have hover := hfits.overlaps (by decide) (usable_lt args)
  rw [h.layoutTable, ht, Option.bind_some, hover]
  rfl

theorem Feasible.not_accepted (h : Feasible args file front dash tail)
    (ht : ∀ t, placeTail args.blockSize (scan args front dash tail) = some t → overlaps t = true) :
    ¬ Accepted args file := by
  rintro ⟨table, half, htable, -⟩
  rw [h.layoutTable] at htable
  obtain ⟨t, hplace, hresult⟩ := Option.bind_eq_some_iff.mp htable
  rw [ht t hplace, if_pos rfl] at hresult
  cases hresult

theorem Feasible.room (h : Feasible args file front dash tail) :
    (scan args front dash tail).pos1 ≤
        (scan args front dash tail).chipSize - total args.blockSize tail ∧
      (scan args front dash tail).chipSize ≤ usable args ∧
      (scan args front dash tail).chipSize < 2 ^ 63 ∧
      0 < (scan args front dash tail).pos1 := by
  have hfits := h.fits
  have hle := front_le_total args.blockSize front
  have hlt := usable_lt args
  have hreserved : (0 : ℤ) < gptPartReservedSize := by decide
  have hpos : (scan args front dash tail).pos1 =
      gptPartReservedSize + frontSize args.blockSize front := rfl
  have hchip : (scan args front dash tail).chipSize = usable args - losses args.blockSize front := rfl
  rw [hpos, hchip]
  omega

theorem fits_table {c q : ℤ} {n : ℕ} {t : List TableEntry}
    (hend : (scan args front dash tail).pos1 + n ≤ c) (ht : Fits c t q) (hq : q ≤ usable args) :
    Fits gptPartReservedSize (placeFront args.blockSize gptPartReservedSize front ++
      { dash with start := (scan args front dash tail).pos1, size := n } :: t) (usable args) :=
  (fits_front _ front).append ⟨le_rfl, (ht.mono hend).widen hq⟩

theorem Feasible.accepted_plain (h : Feasible args file front dash tail) (hdash : enhance dash ≠ 1)
    (htail : (tail.map enhance).sum = 0) : Accepted args file := by
  obtain ⟨hroom, husable, hlt, hpos⟩ := h.room
  have hhalf : (scan args front dash tail).halfSizeEntry = halfIndex 0 front := by
    change halfIndex 0 (front ++ dash :: tail) = _
    rw [halfIndex_append, halfIndex, if_neg hdash, halfIndex_none htail, Option.or_none]
  have hearlier (j : ℕ) (hj : (scan args front dash tail).halfSizeEntry = some j) :
      j < front.length := by
    rw [hhalf] at hj
    have := halfIndex_lt hj
    omega
  have hback := backward_hang (fun e he => h.sized e (List.mem_append_right front he))
    (fun j hj => .inl (Nat.lt_succ_of_lt (hearlier j hj))) (by omega) hlt
  have hplace := placeTail_scan hback hroom
  have hne : ¬ (scan args front dash tail).halfSizeEntry = some front.length :=
    fun hj => absurd (hearlier _ hj) (Nat.lt_irrefl _)
  have hsize := uint64_of_range (x := (scan args front dash tail).chipSize -
    total args.blockSize tail - (scan args front dash tail).pos1) (by omega)
  dsimp only at hplace
  rw [if_neg hne] at hplace
  exact h.accepted hplace (fits_table (by omega) (fits_hang _ tail) husable)

theorem Feasible.accepted_tail_iff {before after : List TableEntry} {e : TableEntry}
    (h : Feasible args file front dash (before ++ e :: after)) (he : enhance e = 1) :
    Accepted args file ↔ total args.blockSize after ≤ size args.blockSize e / 2 := by
  obtain ⟨hroom, husable, hlt, hpos⟩ := h.room
  have hone := h.enhanced
  rw [List.map_append, List.sum_append, List.map_cons, List.sum_cons, List.map_append, List.sum_append,
    List.map_cons, List.sum_cons, he] at hone
  have htotal : total args.blockSize (before ++ e :: after) = total args.blockSize before +
      (size args.blockSize e + total args.blockSize after) := by
    rw [total, List.map_append, List.sum_append, ← total, ← total, total_cons]
  rw [htotal] at hroom
  have hhalf : (scan args front dash (before ++ e :: after)).halfSizeEntry =
      some (front.length + 1 + before.length) := by
    change halfIndex 0 (front ++ dash :: (before ++ e :: after)) = _
    rw [halfIndex_append, halfIndex_none (by omega), Option.none_or, halfIndex, if_neg (by omega),
      halfIndex_append, halfIndex_none (by omega), Option.none_or, halfIndex, if_pos he, Nat.zero_add]
  have hsized (x : TableEntry) (hx : x ∈ before ++ e :: after) : Sized args.blockSize x :=
    h.sized x (List.mem_append_right front hx)
  generalize hc : (scan args front dash (before ++ e :: after)).chipSize = c at hroom husable hlt
  have hinner := backward_enhanced c (front.length + 1 + before.length)
    (hsized e (List.mem_append_right _ List.mem_cons_self))
    (fun x hx => hsized x (List.mem_append_right _ (List.mem_cons_of_mem e hx)))
    (by omega) (by omega) hlt
  have hback := backward_append hinner (fun x hx => hsized x (List.mem_append_left _ hx))
    (fun j hj => by cases hj; omega) (by omega) (by omega)
  rw [← hhalf, ← hc] at hback
  have hplace := placeTail_scan hback (by omega)
  rw [hc] at hplace
  have hne : ¬ (scan args front dash (before ++ e :: after)).halfSizeEntry = some front.length := by
    rw [hhalf]
    intro hj
    have := Option.some.inj hj
    omega
  dsimp only at hplace
  rw [if_neg hne] at hplace
  have hsize := uint64_of_range (x := c - (size args.blockSize e / 2 : ℕ) -
    (size args.blockSize e / 2 : ℕ) - total args.blockSize before -
    (scan args front dash (before ++ e :: after)).pos1) (by omega)
  constructor
  · intro haccepted
    by_contra hover
    refine h.not_accepted (fun t ht => ?_) haccepted
    rw [hplace] at ht
    cases ht
    cases after with
    | nil => exact absurd (Nat.zero_le _) hover
    | cons f after =>
      rw [← List.cons_append, ← List.append_assoc]
      refine overlaps_append ?_
      have hnext := uint64_of_range (x := c - total args.blockSize (f :: after)) (by omega)
      have hlast := uint64_of_range (x := c - (size args.blockSize e / 2 : ℕ) -
        (size args.blockSize e / 2 : ℕ) + (size args.blockSize e / 2 : ℕ)) (by omega)
      change uint64 (c - total args.blockSize (f :: after)) < uint64 (c -
        (size args.blockSize e / 2 : ℕ) - (size args.blockSize e / 2 : ℕ) +
        (size args.blockSize e / 2 : ℕ))
      omega
  · intro hfit
    refine h.accepted hplace (fits_table (by omega) ((fits_hang _ before).append ⟨le_rfl, ?_⟩) husable)
    exact (fits_hang c after).mono (by dsimp only; omega)

theorem backwardAgain_cons {bs c : ℤ} {f : TableEntry} {fs : List TableEntry}
    {r : List TableEntry × ℤ} (hf : Sized bs f) (h : backwardAgain bs c (f :: fs) = some r) :
    ∃ fs', r.1 = { f with start := 0, size := size bs f } :: fs' := by
  rw [backwardAgain] at h
  obtain ⟨q, -, h⟩ := Option.bind_eq_some_iff.mp h
  obtain ⟨f', hf', h⟩ := Option.bind_eq_some_iff.mp h
  rw [parseLayout_sized hf] at hf'
  cases hf'
  cases h
  exact ⟨q.1, rfl⟩

theorem Feasible.accepted_dash_iff (h : Feasible args file front dash tail) (hdash : enhance dash = 1) :
    Accepted args file ↔ tail = [] := by
  obtain ⟨hroom, husable, hlt, hpos⟩ := h.room
  have hone := h.enhanced
  rw [List.map_append, List.sum_append, List.map_cons, List.sum_cons, hdash] at hone
  have hhalf : (scan args front dash tail).halfSizeEntry = some front.length := by
    change halfIndex 0 (front ++ dash :: tail) = _
    rw [halfIndex_append, halfIndex_none (by omega), Option.none_or, halfIndex, if_pos hdash,
      Nat.zero_add]
  have hearlier (j : ℕ) (hj : (scan args front dash tail).halfSizeEntry = some j) :
      j < front.length + 1 := by
    have := Option.some.inj (hhalf.symm.trans hj)
    omega
  have hback := backward_hang (fun e he => h.sized e (List.mem_append_right front he))
    (fun j hj => .inl (hearlier j hj)) (by omega) hlt
  have hplace := placeTail_scan hback hroom
  have hsize := uint64_of_range (x := (scan args front dash tail).chipSize -
    total args.blockSize tail - (scan args front dash tail).pos1) (by omega)
  dsimp only at hplace
  rw [if_pos hhalf] at hplace
  generalize hn : uint64 ((scan args front dash tail).chipSize - total args.blockSize tail -
    (scan args front dash tail).pos1) = n at hsize hplace
  constructor
  · intro haccepted
    by_contra hne
    refine h.not_accepted (fun t ht => ?_) haccepted
    cases tail with
    | nil => exact absurd rfl hne
    | cons f tail =>
      rw [hplace] at ht
      obtain ⟨r, hr, ht⟩ := Option.bind_eq_some_iff.mp ht
      have hf := h.sized f (List.mem_append_right front List.mem_cons_self)
      obtain ⟨fs, hfs⟩ := backwardAgain_cons ⟨hf.rest, hf.place, hf.aligned⟩ hr
      split at ht
      · cases ht
      · cases ht
        rw [hfs]
        refine overlaps_append ?_
        have hlast := uint64_of_range (x := (scan args front dash (f :: tail)).pos1 + (n / 2 : ℕ))
          (by omega)
        change uint64 0 < uint64 ((scan args front dash (f :: tail)).pos1 + (n / 2 : ℕ))
        have hzero : uint64 0 = 0 := rfl
        omega
  · intro hnil
    subst hnil
    have hnone : (total args.blockSize [] : ℤ) = 0 := rfl
    rw [hnone] at hroom hsize
    have hagain : int64 ((scan args front dash []).chipSize - (n / 2 : ℕ)) =
        (scan args front dash []).chipSize - (n / 2 : ℕ) := int64_of_range (by omega)
    have hlast : Fits (scan args front dash []).chipSize [] (scan args front dash []).chipSize :=
      le_refl _
    have hend : (scan args front dash []).pos1 + (n / 2 : ℕ) ≤ (scan args front dash []).chipSize := by
      omega
    refine h.accepted ?_ (fits_table hend hlast husable)
    rw [hplace]
    change (if int64 ((scan args front dash []).chipSize - (n / 2 : ℕ)) < _ then none else _) = _
    rw [hagain, if_neg (by omega)]
    rfl

end Layout

/-- A feasible layout is accepted unless it is one of those that the backward pass gets wrong. -/
theorem feasible_accepted_iff {args : Args} {file : List Char} {front tail : List TableEntry}
    {dash : TableEntry} (h : Feasible args file front dash tail) :
    Accepted args file ↔ ¬ Misplaced args.blockSize dash tail := by
  have hone := h.enhanced
  rw [List.map_append, List.sum_append, List.map_cons, List.sum_cons] at hone
  by_cases hdash : enhance dash = 1
  · have hplain (e : TableEntry) (he : e ∈ tail) : enhance e ≠ 1 := by
      have hle := List.single_le_sum (fun _ _ => Nat.zero_le _) _ (List.mem_map_of_mem (f := enhance) he)
      omega
    rw [h.accepted_dash_iff hdash]
    constructor
    · rintro hnil (⟨before, e, after, htail, he, -⟩ | ⟨-, hne⟩)
      · exact hplain e (htail ▸ List.mem_append_right _ List.mem_cons_self) he
      · exact hne hnil
    · intro hnot
      by_contra hne
      exact hnot (.inr ⟨hdash, hne⟩)
  · by_cases htail : (tail.map enhance).sum = 0
    · refine ⟨fun _ => ?_, fun _ => h.accepted_plain hdash htail⟩
      rintro (⟨before, e, after, hsplit, he, -⟩ | ⟨hd, -⟩)
      · rw [hsplit, List.map_append, List.sum_append, List.map_cons, List.sum_cons, he] at htail
        omega
      · exact hdash hd
    · have hmem : ∃ e ∈ tail, enhance e = 1 := by
        by_contra hnone
        refine htail (List.sum_eq_zero fun n hn => ?_)
        obtain ⟨e, he, rfl⟩ := List.mem_map.mp hn
        have hle := List.single_le_sum (fun _ _ => Nat.zero_le _) _ hn
        have hne : enhance e ≠ 1 := fun h1 => hnone ⟨e, he, h1⟩
        omega
      constructor
      · rintro haccepted (⟨before, e, after, rfl, he, hlt⟩ | ⟨hd, -⟩)
        · exact absurd ((h.accepted_tail_iff he).mp haccepted) (Nat.not_le.mpr hlt)
        · exact hdash hd
      · intro hnot
        obtain ⟨e, he, hone'⟩ := hmem
        obtain ⟨before, after, rfl⟩ := List.append_of_mem he
        refine (h.accepted_tail_iff hone').mpr ?_
        by_contra hlt
        exact hnot (.inl ⟨before, e, after, rfl, hone', Nat.not_le.mp hlt⟩)

theorem small_last_accepted :
    let args : Args := ⟨1, 0, 512, 128 * 2 ^ 20, by decide, by decide⟩
    let file := "4M boot img\n- data img\n8M log enhance\n4M misc img\n".toList
    Feasible args file [{ layout := "4M".toList, name := "boot".toList, emmcOperation := "img".toList }]
        { layout := "-".toList, name := "data".toList, emmcOperation := "img".toList }
        [{ layout := "8M".toList, name := "log".toList, emmcOperation := "enhance".toList },
          { layout := "4M".toList, name := "misc".toList, emmcOperation := "img".toList }] ∧
      Accepted args file := by
  intro args file
  have h : Feasible args file
      [{ layout := "4M".toList, name := "boot".toList, emmcOperation := "img".toList }]
      { layout := "-".toList, name := "data".toList, emmcOperation := "img".toList }
      [{ layout := "8M".toList, name := "log".toList, emmcOperation := "enhance".toList },
        { layout := "4M".toList, name := "misc".toList, emmcOperation := "img".toList }] := by
    refine ⟨by decide, by decide +kernel, by decide, rfl, ?_, by decide +kernel, by decide +kernel,
      by decide +kernel⟩
    refine List.forall_mem_cons.mpr ⟨⟨by decide, by decide, by decide +kernel⟩, ?_⟩
    refine List.forall_mem_cons.mpr ⟨⟨by decide, by decide, by decide +kernel⟩, ?_⟩
    exact List.forall_mem_cons.mpr ⟨⟨by decide, by decide, by decide +kernel⟩,
      fun e he => absurd he List.not_mem_nil⟩
  refine ⟨h, (feasible_accepted_iff h).mpr ?_⟩
  rintro (⟨before, e, after, hsplit, he, hlt⟩ | ⟨hd, -⟩)
  · cases before with
    | nil =>
      obtain ⟨rfl, rfl⟩ := List.cons.inj hsplit
      exact absurd hlt (by decide +kernel)
    | cons x before =>
      obtain ⟨-, hrest⟩ := List.cons.inj hsplit
      cases before with
      | nil =>
        obtain ⟨rfl, rfl⟩ := List.cons.inj hrest
        exact absurd he (by decide +kernel)
      | cons y before =>
        obtain ⟨-, hnil⟩ := List.cons.inj hrest
        exact absurd hnil (List.append_ne_nil_of_right_ne_nil before (List.cons_ne_nil e after)).symm
  · exact absurd hd (by decide +kernel)

theorem large_last_refused :
    let args : Args := ⟨1, 0, 512, 128 * 2 ^ 20, by decide, by decide⟩
    let file := "- data img\n2M log enhance\n4M misc img\n".toList
    Feasible args file [] { layout := "-".toList, name := "data".toList, emmcOperation := "img".toList }
        [{ layout := "2M".toList, name := "log".toList, emmcOperation := "enhance".toList },
          { layout := "4M".toList, name := "misc".toList, emmcOperation := "img".toList }] ∧
      layoutTable .emmcGpt args file = none ∧ ¬ Accepted args file := by
  intro args file
  have hnone : layoutTable .emmcGpt args file = none := by decide +kernel
  refine ⟨⟨by decide, by decide +kernel, by decide, rfl, ?_, by decide +kernel, by decide +kernel,
    by decide +kernel⟩, hnone, ?_⟩
  · refine List.forall_mem_cons.mpr ⟨⟨by decide, by decide, by decide +kernel⟩, ?_⟩
    exact List.forall_mem_cons.mpr ⟨⟨by decide, by decide, by decide +kernel⟩,
      fun e he => absurd he List.not_mem_nil⟩
  · rintro ⟨table, half, htable, -⟩
    rw [hnone] at htable
    cases htable

end SynaBoot.EmmcFeasible
