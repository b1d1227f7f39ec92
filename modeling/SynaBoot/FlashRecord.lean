import Mathlib.Data.List.GetD
import Mathlib.Tactic

namespace SynaBoot.FlashRecord

def flashTsHdrSize : Nat := 16
def flashTsMaxSize : Nat := 16 * 1024
def flashTsMaxDataSize : Nat := flashTsMaxSize - flashTsHdrSize
def flashTsMagic : UInt32 := 0x53542a46

abbrev Bytes (n : Nat) := { l : List UInt8 // l.length = n }

/-- Bytes past the end of the array go nowhere. -/
def overwrite {n : Nat} (d : Bytes n) (p : Nat) (src : List UInt8) : Bytes n :=
  ⟨(List.range n).map (fun i =>
    if p ≤ i ∧ i < p + src.length then src.getD (i - p) 0 else d.1.getD i 0), by simp⟩

structure FlashTs where
  magic : UInt32
  crc : UInt32
  len : UInt32
  version : UInt32
  data : Bytes flashTsMaxDataSize

def le32 (x : UInt32) : List UInt8 :=
  [UInt8.ofNat x.toNat, UInt8.ofNat (x.toNat / 2 ^ 8), UInt8.ofNat (x.toNat / 2 ^ 16),
    UInt8.ofNat (x.toNat / 2 ^ 24)]

def word (l : List UInt8) (i : Nat) : UInt32 :=
  UInt32.ofNat ((l.getD i 0).toNat + (l.getD (i + 1) 0).toNat * 2 ^ 8 +
    (l.getD (i + 2) 0).toNat * 2 ^ 16 + (l.getD (i + 3) 0).toNat * 2 ^ 24)

def toBytes (r : FlashTs) : List UInt8 :=
  le32 r.magic ++ le32 r.crc ++ le32 r.len ++ le32 r.version ++ r.data.1

def ofBytes (l : List UInt8) : FlashTs where
  magic := word l 0
  crc := word l 4
  len := word l 8
  version := word l 12
  data := ⟨(List.range flashTsMaxDataSize).map (fun i => l.getD (flashTsHdrSize + i) 0), by simp⟩

def crcBit (crc : UInt32) : UInt32 := (crc >>> 1) ^^^ (if crc &&& 1 ≠ 0 then 0xedb88320 else 0)

def crcByte (crc : UInt32) (b : UInt8) : UInt32 := (crcBit^[8]) (crc ^^^ b.toUInt32)

/-- Over the length, the version and the used part of the data. -/
def flashTsCrc (r : FlashTs) : UInt32 :=
  ((le32 r.len ++ le32 r.version ++ r.data.1.take r.len.toNat).foldl crcByte 0) ^^^ 0xffffffff

/-- The version of a well-formed record, and 0 for anything else. -/
def flashTsCheckHeader (r : FlashTs) : UInt32 :=
  if r.magic = flashTsMagic ∧ r.version ≠ 0 ∧ r.len ≠ 0 ∧ r.len.toNat ≤ flashTsMaxDataSize ∧
      r.crc = flashTsCrc r ∧ r.data.1.getD (r.len.toNat - 1) 0 = 0 ∧
      (r.len = 1 ∨ r.data.1.getD (r.len.toNat - 2) 0 = 0) then r.version
  else 0

def isBlank (l : List UInt8) : Bool :=
  let first := word l 0
  (first == 0x00000000 || first == 0xffffffff) &&
    (List.range (l.length / 4)).all (fun i => word l (4 * i) == first)

def contents (r : FlashTs) : List UInt8 := r.data.1.take r.len.toNat

theorem overwrite_eq {n : Nat} (d : Bytes n) (p : Nat) (src : List UInt8)
    (h : p + src.length ≤ n) :
    (overwrite d p src).1 = d.1.take p ++ (src ++ d.1.drop (p + src.length)) := by
  have hd := d.2
  have ht : (d.1.take p).length = p := by
    rw [List.length_take]
    omega
  apply List.ext_getElem
  · simp only [overwrite, List.length_map, List.length_range, List.length_append, ht,
      List.length_drop, hd]
    omega
  · intro i h1 h2
    have hi : i < n := by simpa [overwrite] using h1
    have hi' : i < d.1.length := by rwa [hd]
    simp only [overwrite, List.getElem_map, List.getElem_range]
    by_cases hp : i < p
    · rw [if_neg (by omega), List.getElem_append_left (by omega), List.getElem_take,
        List.getD_eq_getElem _ _ hi']
    · rw [List.getElem_append_right (by omega)]
      by_cases hs : i < p + src.length
      · rw [if_pos (by omega), List.getElem_append_left (by omega),
          List.getD_eq_getElem _ _ (by omega)]
        simp only [ht]
      · rw [if_neg (by omega), List.getElem_append_right (by omega), List.getElem_drop,
          List.getD_eq_getElem _ _ hi']
        congr 1
        omega

theorem length_toBytes (r : FlashTs) : (toBytes r).length = flashTsMaxSize := by
  simp [toBytes, le32, r.data.2, flashTsMaxDataSize, flashTsMaxSize, flashTsHdrSize]

theorem word_le32 (x : UInt32) {k l m : List UInt8} {i : Nat} (hi : l.length = i)
    (hk : k = l ++ (le32 x ++ m)) : word k i = x := by
  have hx := x.toNat_lt
  subst hk hi
  apply UInt32.toNat_inj.mp
  simp only [word, le32, List.getD_eq_getElem?_getD, List.getElem?_append_right, le_refl,
    Nat.le_add_right, Nat.sub_self, Nat.add_sub_cancel_left, List.cons_append,
    List.getElem?_cons_zero, List.getElem?_cons_succ, Option.getD_some, UInt8.toNat_ofNat',
    UInt32.toNat_ofNat']
  omega

theorem length_le32 (x : UInt32) : (le32 x).length = 4 := rfl

theorem word_append {l r : List UInt8} {i : Nat} (h : l.length ≤ i) :
    word (l ++ r) i = word r (i - l.length) := by
  have hget (j : Nat) : (l ++ r).getD (i + j) 0 = r.getD (i - l.length + j) 0 := by
    rw [List.getD_append_right _ _ _ _ (by omega)]
    congr 1
    omega
  have h0 := hget 0
  simp only [Nat.add_zero] at h0
  simp only [word, hget, h0]

theorem word_head (x : UInt32) (r : List UInt8) : word (le32 x ++ r) 0 = x :=
  word_le32 x (l := []) rfl rfl

theorem word_tail (x : UInt32) {r : List UInt8} {i : Nat} (h : 4 ≤ i) :
    word (le32 x ++ r) i = word r (i - 4) := word_append h

theorem word_congr {l m : List UInt8} {i : Nat}
    (h : ∀ j, i ≤ j → j < i + 4 → l.getD j 0 = m.getD j 0) : word l i = word m i := by
  simp only [word, h i (by omega) (by omega), h (i + 1) (by omega) (by omega),
    h (i + 2) (by omega) (by omega), h (i + 3) (by omega) (by omega)]

theorem magic_toBytes (r : FlashTs) : word (toBytes r) 0 = r.magic :=
  word_le32 r.magic (l := []) (m := le32 r.crc ++ (le32 r.len ++ (le32 r.version ++ r.data.1)))
    rfl (by simp only [toBytes, List.append_assoc, List.nil_append])

theorem crc_toBytes (r : FlashTs) : word (toBytes r) 4 = r.crc :=
  word_le32 r.crc (l := le32 r.magic) (m := le32 r.len ++ (le32 r.version ++ r.data.1))
    rfl (by simp only [toBytes, List.append_assoc])

theorem len_toBytes (r : FlashTs) : word (toBytes r) 8 = r.len :=
  word_le32 r.len (l := le32 r.magic ++ le32 r.crc) (m := le32 r.version ++ r.data.1)
    rfl (by simp only [toBytes, List.append_assoc])

theorem version_toBytes (r : FlashTs) : word (toBytes r) 12 = r.version :=
  word_le32 r.version (l := le32 r.magic ++ le32 r.crc ++ le32 r.len) (m := r.data.1)
    rfl (by simp only [toBytes, List.append_assoc])

theorem data_toBytes (r : FlashTs) (i : Nat) :
    (toBytes r).getD (flashTsHdrSize + i) 0 = r.data.1.getD i 0 := by
  have hlen : (le32 r.magic ++ le32 r.crc ++ le32 r.len ++ le32 r.version).length =
      flashTsHdrSize := rfl
  rw [toBytes, ← hlen, List.getD_eq_getElem?_getD, List.getElem?_append_right (by omega),
    Nat.add_sub_cancel_left, List.getD_eq_getElem?_getD]

/-- What follows the used data is not looked at. -/
def Agrees (l : List UInt8) (r : FlashTs) : Prop :=
  ∀ i < flashTsHdrSize + r.len.toNat, l.getD i 0 = (toBytes r).getD i 0

theorem agrees_toBytes (r : FlashTs) : Agrees (toBytes r) r := fun _ _ => rfl

section

variable {l : List UInt8} {r : FlashTs}

theorem magic_of_agrees (h : Agrees l r) : (ofBytes l).magic = r.magic := by
  rw [← magic_toBytes r]
  exact word_congr fun j _ hj => h j (by simp only [flashTsHdrSize]; omega)

theorem crc_of_agrees (h : Agrees l r) : (ofBytes l).crc = r.crc := by
  rw [← crc_toBytes r]
  exact word_congr fun j _ hj => h j (by simp only [flashTsHdrSize]; omega)

theorem len_of_agrees (h : Agrees l r) : (ofBytes l).len = r.len := by
  rw [← len_toBytes r]
  exact word_congr fun j _ hj => h j (by simp only [flashTsHdrSize]; omega)

theorem version_of_agrees (h : Agrees l r) : (ofBytes l).version = r.version := by
  rw [← version_toBytes r]
  exact word_congr fun j _ hj => h j (by simp only [flashTsHdrSize]; omega)

theorem contents_of_agrees (h : Agrees l r) : contents (ofBytes l) = contents r := by
  rw [contents, contents, len_of_agrees h]
  apply List.ext_getElem?
  intro i
  rw [List.getElem?_take, List.getElem?_take]
  split
  · next hi =>
    by_cases hd : i < flashTsMaxDataSize
    · have h1 : i < (ofBytes l).data.1.length := by rw [(ofBytes l).data.2]; exact hd
      have h2 : i < r.data.1.length := by rw [r.data.2]; exact hd
      rw [List.getElem?_eq_getElem h1, List.getElem?_eq_getElem h2]
      have he := h (flashTsHdrSize + i) (by omega)
      rw [data_toBytes, List.getD_eq_getElem _ _ h2] at he
      simpa [ofBytes] using he
    · have h1 : (ofBytes l).data.1.length ≤ i := by rw [(ofBytes l).data.2]; omega
      have h2 : r.data.1.length ≤ i := by rw [r.data.2]; omega
      rw [List.getElem?_eq_none h1, List.getElem?_eq_none h2]
  · rfl

end

theorem getD_contents (r : FlashTs) {i : Nat} (hi : i < r.len.toNat) :
    (contents r).getD i 0 = r.data.1.getD i 0 := by
  rw [contents, List.getD_eq_getElem?_getD, List.getElem?_take, if_pos hi,
    ← List.getD_eq_getElem?_getD]

theorem check_congr {r r' : FlashTs} (hm : r.magic = r'.magic) (hc : r.crc = r'.crc)
    (hl : r.len = r'.len) (hv : r.version = r'.version) (hd : contents r = contents r') :
    flashTsCheckHeader r = flashTsCheckHeader r' := by
  have hcrc : flashTsCrc r = flashTsCrc r' := by
    have hd' : r.data.1.take r.len.toNat = r'.data.1.take r'.len.toNat := hd
    rw [flashTsCrc, flashTsCrc, hl, hv, ← hl, hd', hl]
  by_cases h0 : r.len = 0
  · simp [flashTsCheckHeader, h0, ← hl]
  · have hpos : 0 < r.len.toNat := by
      refine Nat.pos_of_ne_zero fun he => h0 ?_
      exact UInt32.toNat_inj.mp he
    have h1 : r.data.1.getD (r.len.toNat - 1) 0 = r'.data.1.getD (r.len.toNat - 1) 0 := by
      rw [← getD_contents r (by omega), hd, getD_contents r' (by rw [← hl]; omega)]
    have h2 : r.data.1.getD (r.len.toNat - 2) 0 = r'.data.1.getD (r.len.toNat - 2) 0 := by
      rw [← getD_contents r (by omega), hd, getD_contents r' (by rw [← hl]; omega)]
    rw [hl] at h1 h2
    simp only [flashTsCheckHeader, hm, hv, hc, hcrc, h1, h2, hl]

theorem check_of_agrees {l : List UInt8} {r : FlashTs} (h : Agrees l r) :
    flashTsCheckHeader (ofBytes l) = flashTsCheckHeader r :=
  check_congr (magic_of_agrees h) (crc_of_agrees h) (len_of_agrees h) (version_of_agrees h)
    (contents_of_agrees h)

theorem check_ne_zero {r : FlashTs} (h : flashTsCheckHeader r ≠ 0) :
    r.magic = flashTsMagic ∧ flashTsCheckHeader r = r.version ∧ r.crc = flashTsCrc r ∧
      0 < r.len.toNat ∧ r.len.toNat ≤ flashTsMaxDataSize := by
  unfold flashTsCheckHeader at h ⊢
  split
  · next hc =>
    obtain ⟨hm, -, hl, hle, hcrc, -⟩ := hc
    refine ⟨hm, rfl, hcrc, ?_, hle⟩
    exact Nat.pos_of_ne_zero fun he => hl (UInt32.toNat_inj.mp he)
  · next hc => exact absurd (if_neg hc) h

end SynaBoot.FlashRecord
