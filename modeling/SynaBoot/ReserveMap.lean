import SynaBoot.BigEndian
import SynaBoot.ByteStore
import SynaBoot.MemRegions

namespace SynaBoot.ReserveMap

open SynaBoot.BigEndian SynaBoot.ByteStore
open SynaBoot.MemRegions (Span)

structure ReserveEntry where
  address : ℕ
  size : ℕ
  deriving DecidableEq, Repr

def ReserveEntry.toBytes (e : ReserveEntry) : List UInt8 :=
  BigEndian.toBytes 8 e.address ++ BigEndian.toBytes 8 e.size

def ReserveEntry.ofBytes (l : List UInt8) : ReserveEntry :=
  ⟨BigEndian.ofBytes (l.take 8), BigEndian.ofBytes (l.drop 8)⟩

/-- The word of the header that says where the reserve map begins. -/
def offMemRsvmap (fdt : List UInt8) : Option ℕ := (fetch fdt 16 4).map BigEndian.ofBytes

def regionEntry (r : Span) : ReserveEntry := ⟨r.base.toNat, r.size.toNat⟩

section Map

variable (offset : ℕ)

def entryAt (fdt : List UInt8) (k : ℕ) : Option ReserveEntry :=
  (fetch fdt (offset + 16 * k) 16).map ReserveEntry.ofBytes

def setEntry (fdt : List UInt8) (k : ℕ) (e : ReserveEntry) : Option (List UInt8) :=
  store fdt (offset + 16 * k) e.toBytes

/-- It has no other end than an entry of size 0. -/
def clearRest : ℕ → ℕ → ℕ → List UInt8 → Option (List UInt8)
  | 0, _, _, _ => none
  | fuel + 1, i, p, fdt => do
    let p := p + i
    let e ← entryAt offset fdt p
    if e.size = 0 then return fdt
    else
      let fdt ← setEntry offset fdt p ⟨0, 0⟩
      clearRest fuel (i + 1) p fdt

def install (fuel : ℕ) : List Span → ℕ → ℕ → List UInt8 → Option (List UInt8)
  | [], i, p, fdt => clearRest offset fuel i p fdt
  | r :: rs, i, p, fdt => do
    let p := p + i
    let fdt ← setEntry offset fdt p (regionEntry r)
    install fuel rs (i + 1) p fdt

/-- Up to the first entry of size 0, as `fdt_num_mem_rsv` counts. -/
def readMap (fdt : List UInt8) : ℕ → ℕ → Option (List ReserveEntry)
  | 0, _ => none
  | fuel + 1, k => do
    let e ← entryAt offset fdt k
    if e.size = 0 then return []
    else return e :: (← readMap fdt fuel (k + 1))

end Map

def setupReservedMem (fdt : List UInt8) (reservedMem : List Span) : Option (ℤ × List UInt8) := do
  let offset ← offMemRsvmap fdt
  if reservedMem.length = 0 then return (-1, fdt)
  else return (0, ← install offset fdt.length reservedMem 0 0 fdt)

def reserveMap (fdt : List UInt8) : Option (List ReserveEntry) := do
  let offset ← offMemRsvmap fdt
  readMap offset fdt fdt.length 0

def tri : ℕ → ℕ
  | 0 => 0
  | i + 1 => tri i + (i + 1)

theorem tri_strictMono : StrictMono tri := strictMono_nat_of_lt_succ fun i => by
  rw [tri]
  omega

theorem le_tri (i : ℕ) : i ≤ tri i := tri_strictMono.le_apply

theorem tri_eq_self {n : ℕ} (h : tri n = n) : n ≤ 1 := by
  match n with
  | 0 | 1 => decide
  | n + 2 =>
    have hle := le_tri n
    rw [tri, tri] at h
    omega

section Entries

variable {offset : ℕ} {fdt fdt' : List UInt8} {k : ℕ} {e : ReserveEntry}

theorem length_entryBytes (e : ReserveEntry) : e.toBytes.length = 16 := by
  rw [ReserveEntry.toBytes, List.length_append, length_toBytes, length_toBytes]

theorem ofBytes_entryBytes (haddr : e.address < 2 ^ 64) (hsize : e.size < 2 ^ 64) :
    ReserveEntry.ofBytes e.toBytes = e := by
  have hpow : (256 : ℕ) ^ 8 = 2 ^ 64 := by norm_num
  have hlen := length_toBytes 8 e.address
  rw [ReserveEntry.toBytes, ReserveEntry.ofBytes, List.take_left' hlen, List.drop_left' hlen,
    ofBytes_toBytes (hpow ▸ haddr), ofBytes_toBytes (hpow ▸ hsize)]

theorem entryOfBytes_injective {l l' : List UInt8} (hlen : l.length = 16) (hlen' : l'.length = 16)
    (h : ReserveEntry.ofBytes l = ReserveEntry.ofBytes l') : l = l' := by
  obtain ⟨haddr, hsize⟩ := ReserveEntry.mk.inj h
  have htake := ofBytes_injective (by rw [List.length_take, List.length_take, hlen, hlen']) haddr
  have hdrop := ofBytes_injective (by rw [List.length_drop, List.length_drop, hlen, hlen']) hsize
  rw [← List.take_append_drop 8 l, ← List.take_append_drop 8 l', htake, hdrop]

theorem room_of_entryAt (h : entryAt offset fdt k = some e) :
    offset + 16 * k + 16 ≤ fdt.length := by
  obtain ⟨l, hl, -⟩ := Option.map_eq_some_iff.mp h
  exact room_of_fetch hl

theorem setEntry_room (h : offset + 16 * k + 16 ≤ fdt.length) (e : ReserveEntry) :
    ∃ fdt', setEntry offset fdt k e = some fdt' := by
  rw [setEntry, store_room (by rw [length_entryBytes]; exact h)]
  exact ⟨_, rfl⟩

theorem entryAt_setEntry (h : setEntry offset fdt k e = some fdt') (haddr : e.address < 2 ^ 64)
    (hsize : e.size < 2 ^ 64) : entryAt offset fdt' k = some e := by
  have hfetch := fetch_store h
  rw [length_entryBytes] at hfetch
  rw [entryAt, hfetch, Option.map_some, ofBytes_entryBytes haddr hsize]

theorem entryAt_setEntry_of_ne (h : setEntry offset fdt k e = some fdt') {k' : ℕ} (hne : k' ≠ k) :
    entryAt offset fdt' k' = entryAt offset fdt k' := by
  have hlen := length_entryBytes e
  rw [entryAt, entryAt, fetch_store_apart h (by omega)]

theorem getElem?_setEntry (h : setEntry offset fdt k e = some fdt') {b : ℕ}
    (hb : b < offset + 16 * k ∨ offset + 16 * k + 16 ≤ b) : fdt'[b]? = fdt[b]? := by
  obtain hbefore | hbehind := hb
  · exact getElem?_store_before h hbefore
  · exact getElem?_store_behind h (by rw [length_entryBytes]; exact hbehind)

theorem getElem?_of_entryAt (h : entryAt offset fdt' k = some e) (h' : entryAt offset fdt k = some e)
    {b : ℕ} (hlow : offset + 16 * k ≤ b) (hhigh : b < offset + 16 * k + 16) :
    fdt'[b]? = fdt[b]? := by
  obtain ⟨l, hl, hle⟩ := Option.map_eq_some_iff.mp h
  obtain ⟨l', hl', hle'⟩ := Option.map_eq_some_iff.mp h'
  have hsame := entryOfBytes_injective (length_fetch hl) (length_fetch hl') (hle.trans hle'.symm)
  exact getElem?_of_fetch (hl.trans (hsame ▸ hl'.symm)) (room_of_fetch hl') hlow hhigh

theorem entryAt_congr (hlen : fdt'.length = fdt.length)
    (h : ∀ b, offset + 16 * k ≤ b → fdt'[b]? = fdt[b]?) :
    entryAt offset fdt' k = entryAt offset fdt k := by
  rw [entryAt, entryAt, fetch_congr hlen fun b hb _ => h b hb]

variable {fuel : ℕ} {l : List ReserveEntry}

theorem readMap_nil_iff : readMap offset fdt (fuel + 1) k = some [] ↔
    ∃ e, entryAt offset fdt k = some e ∧ e.size = 0 := by
  rw [readMap]
  cases entryAt offset fdt k with
  | none => exact iff_of_false (fun h => by cases h) fun ⟨e, h, _⟩ => by cases h
  | some e =>
    rw [Option.bind_eq_bind, Option.bind_some]
    by_cases he : e.size = 0
    · rw [if_pos he]
      exact iff_of_true rfl ⟨e, rfl, he⟩
    · rw [if_neg he]
      refine iff_of_false (fun h => ?_) fun ⟨e', h, he'⟩ => he (Option.some.inj h ▸ he')
      obtain ⟨l, -, h⟩ := Option.bind_eq_some_iff.mp h
      cases h

theorem readMap_cons_iff :
    readMap offset fdt (fuel + 1) k = some (e :: l) ↔
      entryAt offset fdt k = some e ∧ e.size ≠ 0 ∧ readMap offset fdt fuel (k + 1) = some l := by
  rw [readMap]
  cases entryAt offset fdt k with
  | none => exact iff_of_false (fun h => by cases h) fun h => by cases h.1
  | some e' =>
    rw [Option.bind_eq_bind, Option.bind_some, Option.some.injEq]
    by_cases he : e'.size = 0
    · rw [if_pos he]
      exact iff_of_false (fun h => by cases h) fun h => h.2.1 (h.1 ▸ he)
    · rw [if_neg he]
      constructor
      · intro h
        obtain ⟨l', hl', h⟩ := Option.bind_eq_some_iff.mp h
        obtain ⟨rfl, rfl⟩ := List.cons.inj (Option.some.inj h)
        exact ⟨rfl, he, hl'⟩
      · rintro ⟨rfl, -, h⟩
        rw [h]
        rfl

theorem length_readMap (h : readMap offset fdt fuel k = some l) : l.length < fuel := by
  induction fuel generalizing k l with
  | zero => cases h
  | succ fuel ih =>
    cases l with
    | nil => exact Nat.succ_pos fuel
    | cons a l => exact Nat.succ_lt_succ (ih (readMap_cons_iff.mp h).2.2)

theorem readMap_eq_some_iff (hfuel : l.length < fuel) :
    readMap offset fdt fuel k = some l ↔
      (∀ j (hj : j < l.length), entryAt offset fdt (k + j) = some l[j] ∧ l[j].size ≠ 0) ∧
        ∃ e, entryAt offset fdt (k + l.length) = some e ∧ e.size = 0 := by
  induction fuel generalizing k l with
  | zero => exact absurd hfuel (Nat.not_lt_zero _)
  | succ fuel ih =>
    cases l with
    | nil =>
      rw [readMap_nil_iff]
      exact ⟨fun h => ⟨fun j hj => absurd hj (Nat.not_lt_zero _), h⟩, fun h => h.2⟩
    | cons a l =>
      have hnext : k + (a :: l).length = k + 1 + l.length := by
        rw [List.length_cons]
        omega
      rw [readMap_cons_iff, ih (Nat.lt_of_succ_lt_succ hfuel), hnext]
      constructor
      · rintro ⟨ha, hsize, hrest, hend⟩
        refine ⟨fun j hj => ?_, hend⟩
        cases j with
        | zero => exact ⟨ha, hsize⟩
        | succ j =>
          have hidx : k + (j + 1) = k + 1 + j := by omega
          rw [hidx]
          exact hrest j (Nat.lt_of_succ_lt_succ hj)
      · rintro ⟨hall, hend⟩
        refine ⟨(hall 0 (Nat.succ_pos _)).1, (hall 0 (Nat.succ_pos _)).2, fun j hj => ?_, hend⟩
        rw [Nat.add_assoc, Nat.add_comm 1 j]
        exact hall (j + 1) (Nat.succ_lt_succ hj)

end Entries

section Loop

variable {offset : ℕ} {fdt fdt₁ fdt₂ : List UInt8} {rs : List Span} {i j : ℕ}

def entryFor (rs : List Span) (i : ℕ) : ReserveEntry := (rs[i]?.map regionEntry).getD ⟨0, 0⟩

structure Written (offset : ℕ) (rs : List Span) (fdt : List UInt8) (i : ℕ) (fdt₁ : List UInt8) :
    Prop where
  length : fdt₁.length = fdt.length
  entries : ∀ t < i, entryAt offset fdt₁ (tri t) = some (entryFor rs t)
  others : ∀ k, (∀ t < i, tri t ≠ k) → entryAt offset fdt₁ k = entryAt offset fdt k
  bytes : ∀ b, (∀ t < i, b < offset + 16 * tri t ∨ offset + 16 * tri t + 16 ≤ b) →
    fdt₁[b]? = fdt[b]?

theorem Written.start : Written offset rs fdt 0 fdt :=
  ⟨rfl, fun _ h => absurd h (Nat.not_lt_zero _), fun _ _ => rfl, fun _ _ => rfl⟩

theorem entryFor_lt (rs : List Span) (i : ℕ) :
    (entryFor rs i).address < 2 ^ 64 ∧ (entryFor rs i).size < 2 ^ 64 := by
  unfold entryFor
  cases rs[i]? with
  | none => decide
  | some r =>
    have hbase : r.base.toNat < 2 ^ 32 := r.base.toNat_lt
    have hsize : r.size.toNat < 2 ^ 32 := r.size.toNat_lt
    exact ⟨hbase.trans (by norm_num), hsize.trans (by norm_num)⟩

theorem Written.step (h : Written offset rs fdt i fdt₁)
    (hset : setEntry offset fdt₁ (tri i) (entryFor rs i) = some fdt₂) :
    Written offset rs fdt (i + 1) fdt₂ := by
  obtain ⟨haddr, hsize⟩ := entryFor_lt rs i
  refine ⟨(length_store hset).trans h.length, fun t ht => ?_, fun k hk => ?_, fun b hb => ?_⟩
  · obtain hlt | rfl := Nat.lt_succ_iff_lt_or_eq.mp ht
    · rw [entryAt_setEntry_of_ne hset (tri_strictMono hlt).ne]
      exact h.entries t hlt
    · exact entryAt_setEntry hset haddr hsize
  · rw [entryAt_setEntry_of_ne hset (hk i (Nat.lt_succ_self i)).symm]
    exact h.others k fun t ht => hk t (Nat.lt_succ_of_lt ht)
  · rw [getElem?_setEntry hset (hb i (Nat.lt_succ_self i))]
    exact h.bytes b fun t ht => hb t (Nat.lt_succ_of_lt ht)

theorem Written.ahead (h : Written offset rs fdt i fdt₁) (hij : i ≤ j) :
    entryAt offset fdt₁ (tri j) = entryAt offset fdt (tri j) :=
  h.others _ fun _ ht => (tri_strictMono (ht.trans_le hij)).ne

structure Ends (offset : ℕ) (fdt : List UInt8) (n j : ℕ) : Prop where
  le : n ≤ j
  last : ∃ e, entryAt offset fdt (tri j) = some e ∧ e.size = 0
  before : ∀ t, n ≤ t → t < j → ∃ e, entryAt offset fdt (tri t) = some e ∧ e.size ≠ 0

variable {fuel p : ℕ} {rest : List Span}

theorem clearRest_written (h : Written offset rs fdt i fdt₁) (hrs : rs.length ≤ i)
    (hp : p + i = tri i) (hends : Ends offset fdt i j) (hfuel : j < i + fuel) :
    ∃ fdt₂, clearRest offset fuel i p fdt₁ = some fdt₂ ∧ Written offset rs fdt j fdt₂ := by
  induction fuel generalizing i p fdt₁ with
  | zero => exact absurd hends.le (Nat.not_le.mpr hfuel)
  | succ fuel ih =>
    have hahead := h.ahead (le_refl i)
    rw [clearRest, hp, hahead]
    obtain hlt | rfl := hends.le.lt_or_eq
    · obtain ⟨e, he, hsize⟩ := hends.before i le_rfl hlt
      have hroom := room_of_entryAt (hahead.trans he)
      have hzero : entryFor rs i = ⟨0, 0⟩ := by rw [entryFor, List.getElem?_eq_none hrs]; rfl
      obtain ⟨fdt₂, hset⟩ := setEntry_room hroom ⟨0, 0⟩
      obtain ⟨fdt₃, hclear, hwritten⟩ := ih (h.step (hzero.symm ▸ hset)) (Nat.le_succ_of_le hrs)
        (p := tri i) rfl
        ⟨hlt, hends.last, fun t ht htj => hends.before t (Nat.le_of_succ_le ht) htj⟩ (by omega)
      refine ⟨fdt₃, ?_, hwritten⟩
      rw [he, Option.bind_eq_bind, Option.bind_some, if_neg hsize, hset]
      exact hclear
    · obtain ⟨e, he, hsize⟩ := hends.last
      rw [he, Option.bind_eq_bind, Option.bind_some, if_pos hsize]
      exact ⟨fdt₁, rfl, h⟩

theorem ends_of_clearRest (h : Written offset rs fdt i fdt₁) (hrs : rs.length ≤ i)
    (hp : p + i = tri i) (hclear : clearRest offset fuel i p fdt₁ = some fdt₂) :
    ∃ j, Ends offset fdt i j := by
  induction fuel generalizing i p fdt₁ with
  | zero => cases hclear
  | succ fuel ih =>
    rw [clearRest, hp, h.ahead (le_refl i)] at hclear
    obtain ⟨e, he, hclear⟩ := Option.bind_eq_some_iff.mp hclear
    by_cases hsize : e.size = 0
    · exact ⟨i, le_rfl, ⟨e, he, hsize⟩, fun t ht htj => absurd htj (Nat.not_lt.mpr ht)⟩
    · rw [if_neg hsize] at hclear
      obtain ⟨fdt₃, hset, hclear⟩ := Option.bind_eq_some_iff.mp hclear
      have hzero : entryFor rs i = ⟨0, 0⟩ := by rw [entryFor, List.getElem?_eq_none hrs]; rfl
      obtain ⟨j, hends⟩ := ih (h.step (hzero.symm ▸ hset)) (Nat.le_succ_of_le hrs) rfl hclear
      refine ⟨j, Nat.le_of_succ_le hends.le, hends.last, fun t ht htj => ?_⟩
      obtain hlt | rfl := ht.lt_or_eq
      · exact hends.before t hlt htj
      · exact ⟨e, he, hsize⟩

theorem entryFor_drop {r : Span} (h : rs.drop i = r :: rest) : entryFor rs i = regionEntry r := by
  rw [entryFor, ← List.head?_drop, h]
  rfl

theorem length_of_drop_nil (h : rs.drop i = []) : rs.length ≤ i := List.drop_eq_nil_iff.mp h

theorem drop_succ {r : Span} (h : rs.drop i = r :: rest) : rs.drop (i + 1) = rest := by
  rw [← List.tail_drop, h]
  rfl

theorem install_written (h : Written offset rs fdt i fdt₁) (hrest : rs.drop i = rest)
    (hi : i ≤ rs.length) (hp : p + i = tri i) (hends : Ends offset fdt rs.length j)
    (hfuel : j < fuel) :
    ∃ fdt₂, install offset fuel rest i p fdt₁ = some fdt₂ ∧ Written offset rs fdt j fdt₂ := by
  induction rest generalizing i p fdt₁ with
  | nil =>
    obtain rfl : i = rs.length := le_antisymm hi (length_of_drop_nil hrest)
    exact clearRest_written h le_rfl hp hends (Nat.lt_add_left _ hfuel)
  | cons r rest ih =>
    have hlt : i < rs.length := by
      by_contra hge
      rw [List.drop_of_length_le (Nat.not_lt.mp hge)] at hrest
      cases hrest
    -- the entry lies below the last one that is read
    have hroom : offset + 16 * tri i + 16 ≤ fdt₁.length := by
      obtain ⟨e, he, -⟩ := hends.last
      have hlast := room_of_entryAt he
      have hle := tri_strictMono.monotone (hi.trans hends.le)
      rw [h.length]
      omega
    obtain ⟨fdt₂, hset⟩ := setEntry_room hroom (entryFor rs i)
    obtain ⟨fdt₃, hinstall, hwritten⟩ := ih (h.step hset) (drop_succ hrest) hlt (p := tri i) rfl
    refine ⟨fdt₃, ?_, hwritten⟩
    rw [install, hp, ← entryFor_drop hrest, hset]
    exact hinstall

theorem ends_of_install (h : Written offset rs fdt i fdt₁) (hrest : rs.drop i = rest)
    (hi : i ≤ rs.length) (hp : p + i = tri i)
    (hinstall : install offset fuel rest i p fdt₁ = some fdt₂) :
    ∃ j, Ends offset fdt rs.length j := by
  induction rest generalizing i p fdt₁ with
  | nil =>
    obtain rfl : i = rs.length := le_antisymm hi (length_of_drop_nil hrest)
    exact ends_of_clearRest h le_rfl hp hinstall
  | cons r rest ih =>
    have hlt : i < rs.length := by
      by_contra hge
      rw [List.drop_of_length_le (Nat.not_lt.mp hge)] at hrest
      cases hrest
    rw [install, hp, ← entryFor_drop hrest] at hinstall
    obtain ⟨fdt₃, hset, hinstall⟩ := Option.bind_eq_some_iff.mp hinstall
    exact ih (h.step hset) (drop_succ hrest) hlt rfl hinstall

theorem setupReservedMem_eq (hoff : offMemRsvmap fdt = some offset) (hrs : rs ≠ []) :
    setupReservedMem fdt rs = (install offset fdt.length rs 0 0 fdt).map fun t => (0, t) := by
  have hlen : rs.length ≠ 0 := fun h => hrs (List.eq_nil_of_length_eq_zero h)
  rw [setupReservedMem, hoff, Option.bind_eq_bind, Option.bind_some, if_neg hlen, Option.map_eq_bind]
  rfl

theorem setupReservedMem_spec (hoff : offMemRsvmap fdt = some offset) (hrs : rs ≠ []) :
    (∀ j, Ends offset fdt rs.length j →
        ∃ fdt', setupReservedMem fdt rs = some (0, fdt') ∧ Written offset rs fdt j fdt') ∧
      ∀ n fdt', setupReservedMem fdt rs = some (n, fdt') →
        ∃ j, Ends offset fdt rs.length j ∧ Written offset rs fdt j fdt' := by
  have hrun : ∀ j, Ends offset fdt rs.length j →
      ∃ fdt', install offset fdt.length rs 0 0 fdt = some fdt' ∧ Written offset rs fdt j fdt' := by
    intro j hends
    obtain ⟨e, he, -⟩ := hends.last
    have hroom := room_of_entryAt he
    have hle := le_tri j
    exact install_written .start rfl (Nat.zero_le _) rfl hends (by omega)
  rw [setupReservedMem_eq hoff hrs]
  constructor
  · intro j hends
    obtain ⟨fdt', hinstall, hwritten⟩ := hrun j hends
    rw [hinstall]
    exact ⟨fdt', rfl, hwritten⟩
  · intro n fdt' h
    obtain ⟨fdt₂, hinstall, heq⟩ := Option.map_eq_some_iff.mp h
    obtain ⟨-, rfl⟩ := Prod.mk.inj heq
    obtain ⟨j, hends⟩ := ends_of_install .start rfl (Nat.zero_le _) rfl hinstall
    obtain ⟨fdt₃, hinstall', hwritten⟩ := hrun j hends
    obtain rfl := Option.some.inj (hinstall.symm.trans hinstall')
    exact ⟨j, hends, hwritten⟩

end Loop

section Installed

variable {offset cap : ℕ} {fdt fdt' : List UInt8} {rs : List Span}

def Installed (offset cap : ℕ) (fdt : List UInt8) (rs : List Span) : Prop :=
  ∃ fdt', setupReservedMem fdt rs = some (0, fdt') ∧
    reserveMap fdt' = some (rs.map regionEntry) ∧
    ∀ b, b < offset ∨ offset + 16 * cap ≤ b → fdt'[b]? = fdt[b]?

structure Exact (offset cap : ℕ) (fdt : List UInt8) (rs : List Span) : Prop where
  regions : ∀ k (hk : k < rs.length), (∃ i, tri i = k ∧ rs[i]? = some rs[k]) ∨
    (∀ i, tri i ≠ k) ∧ entryAt offset fdt k = some (regionEntry rs[k])
  terminator : rs.length = 1 ∨
    (∀ i, tri i ≠ rs.length) ∧ ∃ e, entryAt offset fdt rs.length = some e ∧ e.size = 0
  inArea : ∀ i (hi : i < rs.length),
    tri i < cap ∨ entryAt offset fdt (tri i) = some (regionEntry rs[i])
  cleared : ∃ j, Ends offset fdt rs.length j ∧ ∀ i, rs.length ≤ i → i < j → tri i < cap

theorem regionEntry_injective : Function.Injective regionEntry := by
  intro r s h
  obtain ⟨hbase, hsize⟩ := ReserveEntry.mk.inj h
  cases r
  cases s
  obtain rfl := UInt32.toNat_inj.mp hbase
  obtain rfl := UInt32.toNat_inj.mp hsize
  rfl

theorem regionEntry_size {r : Span} (h : r.size ≠ 0) : (regionEntry r).size ≠ 0 := fun hzero =>
  h (UInt32.toNat_inj.mp hzero)

theorem entryFor_lt_length {i : ℕ} (hi : i < rs.length) : entryFor rs i = regionEntry rs[i] := by
  rw [entryFor, List.getElem?_eq_getElem hi]
  rfl

theorem entryFor_ge_length {i : ℕ} (hi : rs.length ≤ i) : entryFor rs i = ⟨0, 0⟩ := by
  rw [entryFor, List.getElem?_eq_none hi]
  rfl

theorem offMemRsvmap_congr (hlen : fdt'.length = fdt.length)
    (h : ∀ b, b < offset → fdt'[b]? = fdt[b]?) (hhdr : 40 ≤ offset) :
    offMemRsvmap fdt' = offMemRsvmap fdt := by
  rw [offMemRsvmap, offMemRsvmap, fetch_congr hlen fun b _ hb => h b (by omega)]

theorem reserveMap_iff (hoff : offMemRsvmap fdt = some offset) (hsize : ∀ r ∈ rs, r.size ≠ 0) :
    reserveMap fdt = some (rs.map regionEntry) ↔
      (∀ k (hk : k < rs.length), entryAt offset fdt k = some (regionEntry rs[k])) ∧
        ∃ e, entryAt offset fdt rs.length = some e ∧ e.size = 0 := by
  have hread : reserveMap fdt = readMap offset fdt fdt.length 0 := by
    rw [reserveMap, hoff]
    rfl
  have hlen : (rs.map regionEntry).length = rs.length := List.length_map _
  rw [hread]
  constructor
  · intro h
    obtain ⟨hall, hend⟩ := (readMap_eq_some_iff (length_readMap h)).mp h
    rw [hlen, Nat.zero_add] at hend
    refine ⟨fun k hk => ?_, hend⟩
    have hk' := (hall k (hlen ▸ hk)).1
    rwa [Nat.zero_add, List.getElem_map] at hk'
  · rintro ⟨hall, e, he, hzero⟩
    have hroom := room_of_entryAt he
    refine (readMap_eq_some_iff (by rw [hlen]; omega)).mpr ⟨fun k hk => ?_, e, ?_, hzero⟩
    · rw [hlen] at hk
      rw [Nat.zero_add, List.getElem_map]
      exact ⟨hall k hk, regionEntry_size (hsize _ (List.getElem_mem hk))⟩
    · rw [Nat.zero_add, hlen]
      exact he

theorem exact_of_installed (hoff : offMemRsvmap fdt = some offset) (hhdr : 40 ≤ offset)
    (hrs : rs ≠ []) (hsize : ∀ r ∈ rs, r.size ≠ 0) (h : Installed offset cap fdt rs) :
    Exact offset cap fdt rs := by
  obtain ⟨fdt', hsetup, hmap, hbytes⟩ := h
  obtain ⟨j, hends, hwritten⟩ := (setupReservedMem_spec hoff hrs).2 _ _ hsetup
  have hoff' : offMemRsvmap fdt' = some offset :=
    (offMemRsvmap_congr hwritten.length (fun b hb => hbytes b (.inl hb)) hhdr).trans hoff
  obtain ⟨hall, e, he, hzero⟩ := (reserveMap_iff hoff' hsize).mp hmap
  have hkept : ∀ k, cap ≤ k → entryAt offset fdt' k = entryAt offset fdt k := fun k hk =>
    entryAt_congr hwritten.length fun b hb => hbytes b (.inr (by omega))
  constructor
  · intro k hk
    by_cases htri : ∃ i, tri i = k
    · obtain ⟨i, rfl⟩ := htri
      have hi : i < rs.length := (le_tri i).trans_lt hk
      have hentry := (hwritten.entries i (hi.trans_le hends.le)).symm.trans (hall _ hk)
      rw [entryFor_lt_length hi, Option.some.injEq] at hentry
      refine .inl ⟨i, rfl, ?_⟩
      rw [List.getElem?_eq_getElem hi, regionEntry_injective hentry]
    · have hnot : ∀ i, tri i ≠ k := not_exists.mp htri
      refine .inr ⟨hnot, ?_⟩
      rw [← hwritten.others k fun t _ => hnot t]
      exact hall k hk
  · by_cases htri : ∃ i, tri i = rs.length
    · obtain ⟨i, hi⟩ := htri
      obtain hlt | heq := (hi ▸ le_tri i : i ≤ rs.length).lt_or_eq
      · have hentry := hwritten.entries i (hlt.trans_le hends.le)
        rw [hi, he, entryFor_lt_length hlt, Option.some.injEq] at hentry
        rw [hentry] at hzero
        exact absurd hzero (regionEntry_size (hsize _ (List.getElem_mem hlt)))
      · rw [heq] at hi
        have hpos := List.length_pos_of_ne_nil hrs
        exact .inl (le_antisymm (tri_eq_self hi) hpos)
    · have hnot : ∀ i, tri i ≠ rs.length := not_exists.mp htri
      refine .inr ⟨hnot, e, ?_, hzero⟩
      rw [← hwritten.others _ fun t _ => hnot t]
      exact he
  · intro i hi
    by_cases hcap : tri i < cap
    · exact .inl hcap
    · refine .inr ?_
      rw [← hkept _ (Nat.not_lt.mp hcap), hwritten.entries i (hi.trans_le hends.le),
        entryFor_lt_length hi]
  · refine ⟨j, hends, fun i hi hij => ?_⟩
    by_contra hcap
    obtain ⟨e', he', hsize'⟩ := hends.before i hi hij
    rw [← hkept _ (Nat.not_lt.mp hcap), hwritten.entries i hij, entryFor_ge_length hi,
      Option.some.injEq] at he'
    exact hsize' (he' ▸ rfl)

theorem Exact.bytes (h : Exact offset cap fdt rs) {j : ℕ}
    (hj : ∀ i, rs.length ≤ i → i < j → tri i < cap) (hwritten : Written offset rs fdt j fdt')
    {b : ℕ} (hb : b < offset ∨ offset + 16 * cap ≤ b) : fdt'[b]? = fdt[b]? := by
  by_cases hin : ∃ i < j, offset + 16 * tri i ≤ b ∧ b < offset + 16 * tri i + 16
  · obtain ⟨i, hi, hlow, hhigh⟩ := hin
    have hcap : ¬ tri i < cap := by omega
    have hlt : i < rs.length := Nat.lt_of_not_le fun hle => hcap (hj i hle hi)
    have hold := (h.inArea i hlt).resolve_left hcap
    have hnew := hwritten.entries i hi
    rw [entryFor_lt_length hlt] at hnew
    exact getElem?_of_entryAt hnew hold hlow hhigh
  · refine hwritten.bytes b fun t ht => ?_
    by_contra hcon
    exact hin ⟨t, ht, by omega, by omega⟩

theorem installed_of_exact (hoff : offMemRsvmap fdt = some offset) (hhdr : 40 ≤ offset)
    (hrs : rs ≠ []) (hsize : ∀ r ∈ rs, r.size ≠ 0) (h : Exact offset cap fdt rs) :
    Installed offset cap fdt rs := by
  obtain ⟨j, hends, hj⟩ := h.cleared
  obtain ⟨fdt', hsetup, hwritten⟩ := (setupReservedMem_spec hoff hrs).1 j hends
  have hbytes : ∀ b, b < offset ∨ offset + 16 * cap ≤ b → fdt'[b]? = fdt[b]? := fun b hb =>
    h.bytes hj hwritten hb
  have hoff' : offMemRsvmap fdt' = some offset :=
    (offMemRsvmap_congr hwritten.length (fun b hb => hbytes b (.inl hb)) hhdr).trans hoff
  refine ⟨fdt', hsetup, (reserveMap_iff hoff' hsize).mpr ⟨fun k hk => ?_, ?_⟩, hbytes⟩
  · obtain ⟨i, rfl, hsame⟩ | ⟨hnot, hold⟩ := h.regions k hk
    · have hi : i < rs.length := (le_tri i).trans_lt hk
      rw [List.getElem?_eq_getElem hi, Option.some.injEq] at hsame
      rw [hwritten.entries i (hi.trans_le hends.le), entryFor_lt_length hi, hsame]
    · rw [hwritten.others k fun t _ => hnot t]
      exact hold
  · obtain hone | ⟨hnot, hold⟩ := h.terminator
    · rw [hone] at hends ⊢
      obtain hlt | rfl := hends.le.lt_or_eq
      · exact ⟨_, hwritten.entries 1 hlt, by rw [entryFor_ge_length hone.le]⟩
      · obtain ⟨e, he, hzero⟩ := hends.last
        exact ⟨e, (hwritten.ahead (le_refl 1)).trans he, hzero⟩
    · rw [hwritten.others _ fun t _ => hnot t]
      exact hold

/-- The map is installed exactly if the entries that the loop passes over are right already. -/
theorem installed_iff (offset cap : ℕ) (fdt : List UInt8) (rs : List Span)
    (hoff : offMemRsvmap fdt = some offset) (hhdr : 40 ≤ offset) (hrs : rs ≠ [])
    (hsize : ∀ r ∈ rs, r.size ≠ 0) : Installed offset cap fdt rs ↔ Exact offset cap fdt rs :=
  ⟨exact_of_installed hoff hhdr hrs hsize, installed_of_exact hoff hhdr hrs hsize⟩

theorem Exact.length_le (h : Exact offset cap fdt rs) (hnodup : rs.Nodup) : rs.length ≤ 2 := by
  by_contra hlong
  obtain hthree | hfour : rs.length = 3 ∨ 3 < rs.length := by omega
  · obtain hone | ⟨hnot, -⟩ := h.terminator
    · omega
    · exact hnot 2 hthree.symm
  · obtain ⟨i, hi, hsame⟩ | ⟨hnot, -⟩ := h.regions 3 hfour
    · obtain rfl : i = 2 := tri_strictMono.injective hi
      have htwo : 2 < rs.length := by omega
      rw [List.getElem?_eq_getElem htwo, Option.some.injEq] at hsame
      exact absurd ((hnodup.getElem_inj_iff).mp hsame) (by decide)
    · exact hnot 2 rfl

end Installed

def emptyMap : List UInt8 :=
  List.replicate 16 0 ++ BigEndian.toBytes 4 40 ++ List.replicate (20 + 16 * 8) 0

theorem tri_ne_two (i : ℕ) : tri i ≠ 2 := by
  match i with
  | 0 | 1 => decide
  | i + 2 =>
    have hle : 3 ≤ tri (i + 2) := tri_strictMono.monotone (Nat.le_add_left 2 i)
    exact fun h => absurd hle (by rw [h]; decide)

theorem installed_two :
    Installed 40 8 emptyMap [⟨0x1000000, 0x100000⟩, ⟨0x8000000, 0x1000000⟩] := by
  refine (installed_iff 40 8 emptyMap _ (by decide +kernel) le_rfl (by decide) (by decide)).mpr
    ⟨fun k hk => .inl ?_, .inr ⟨tri_ne_two, ?_⟩, fun i hi => .inl ?_, 2, ⟨le_rfl, ?_, ?_⟩, ?_⟩
  · match k, hk with
    | 0, _ => exact ⟨0, rfl, rfl⟩
    | 1, _ => exact ⟨1, rfl, rfl⟩
  · exact ⟨⟨0, 0⟩, by decide +kernel, rfl⟩
  · match i, hi with
    | 0, _ | 1, _ => decide
  · exact ⟨⟨0, 0⟩, by decide +kernel, rfl⟩
  · exact fun t ht htj => absurd htj (Nat.not_lt.mpr ht)
  · exact fun t ht htj => absurd htj (Nat.not_lt.mpr ht)

theorem third_region_lost :
    (setupReservedMem emptyMap [⟨0x1000000, 0x100000⟩, ⟨0x8000000, 0x1000000⟩,
        ⟨0x20000000, 0x200000⟩]).bind (fun t => reserveMap t.2) =
      some [⟨0x1000000, 0x100000⟩, ⟨0x8000000, 0x1000000⟩] := by
  decide +kernel

end SynaBoot.ReserveMap
