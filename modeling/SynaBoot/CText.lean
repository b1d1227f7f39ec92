import Mathlib.Data.List.TakeWhile
import Mathlib.Tactic

namespace SynaBoot.CText

def int32 (x : Int) : Int := Int.bmod x (2 ^ 32)
def int64 (x : Int) : Int := Int.bmod x (2 ^ 64)
def uint32 (x : Int) : Nat := (x % 2 ^ 32).toNat
def uint64 (x : Int) : Nat := (x % 2 ^ 64).toNat

def isSpace (c : Char) : Bool :=
  c = ' ' || c = '\t' || c = '\n' || c = '\x0b' || c = '\x0c' || c = '\r'

/-- `fgets`: a line with its newline, cut after `n` characters. -/
def fgets : Nat → List Char → List Char × List Char
  | 0, cs => ([], cs)
  | _ + 1, [] => ([], [])
  | n + 1, c :: cs =>
    if c = '\n' then ([c], cs)
    else
      let (line, rest) := fgets n cs
      (c :: line, rest)

def lines (n : Nat) : Nat → List Char → List (List Char)
  | 0, _ => []
  | _ + 1, [] => []
  | k + 1, cs =>
    let (line, rest) := fgets n cs
    line :: lines n k rest

/-- A word as `%s` of `sscanf` reads it, and the text behind it. -/
def word (cs : List Char) : Option (List Char × List Char) :=
  match cs.dropWhile isSpace with
  | [] => none
  | c :: cs => some ((c :: cs).takeWhile (!isSpace ·), (c :: cs).dropWhile (!isSpace ·))

def digits (cs : List Char) : Nat := Nat.ofDigitChars 10 (cs.takeWhile Char.isDigit) 0

def number : List Char → Int
  | '-' :: cs => -(digits cs)
  | '+' :: cs => digits cs
  | cs => digits cs

def atoi (cs : List Char) : Int := int32 (number (cs.dropWhile isSpace))

def unsign : List Char → List Char
  | '-' :: cs | '+' :: cs => cs
  | cs => cs

/-- The text behind a number that `%d` of `sscanf` reads. -/
def skipNumber (cs : List Char) : Option (List Char) :=
  match unsign (cs.dropWhile isSpace) with
  | [] => none
  | c :: cs => if c.isDigit then some ((c :: cs).dropWhile Char.isDigit) else none

/-- A number as `%d` of `printf` writes it. -/
def decimal (x : Int) : List Char :=
  if x < 0 then '-' :: Nat.toDigits 10 (-x).toNat else Nat.toDigits 10 x.toNat

/-- A text padded on the right, as `%-ns` of `printf` writes it. -/
def padRight (n : Nat) (cs : List Char) : List Char := cs ++ List.replicate (n - cs.length) ' '

/-- A separator at the end opens no further field. -/
def fields (sep : Char) : List Char → List (List Char)
  | [] => []
  | c :: cs =>
    if c = sep then [] :: fields sep cs
    else
      match fields sep cs with
      | [] => [[c]]
      | f :: fs => (c :: f) :: fs

theorem digits_toDigits (n : Nat) : digits (Nat.toDigits 10 n) = n := by
  have h : (Nat.toDigits 10 n).takeWhile Char.isDigit = Nat.toDigits 10 n :=
    List.takeWhile_eq_self_iff.mpr fun c hc =>
      Nat.isDigit_of_mem_toDigits (by decide) (by decide) hc
  rw [digits, h, Nat.ofDigitChars_ten_toDigits]

theorem decimal_nat (n : Nat) : decimal n = Nat.toDigits 10 n := by
  unfold decimal
  rw [if_neg (by omega), Int.toNat_natCast]

theorem fields_append {sep : Char} {l : List Char} (rest : List Char) (h : sep ∉ l) :
    fields sep (l ++ sep :: rest) = l :: fields sep rest := by
  induction l with
  | nil => simp [fields]
  | cons c l ih =>
    rw [List.mem_cons, not_or] at h
    rw [List.cons_append, fields, if_neg (Ne.symm h.1), ih h.2]

theorem fields_of_not_mem {sep : Char} {l : List Char} (h : sep ∉ l) :
    fields sep l = if l = [] then [] else [l] := by
  induction l with
  | nil => rfl
  | cons c l ih =>
    rw [List.mem_cons, not_or] at h
    rw [fields, if_neg (Ne.symm h.1), ih h.2, if_neg (List.cons_ne_nil c l)]
    cases l <;> rfl

theorem int64_of_range {x : Int} (h : -2 ^ 63 ≤ x ∧ x < 2 ^ 63) : int64 x = x := by
  unfold int64
  rw [Int.bmod_eq_of_le] <;> omega

theorem int32_of_range {x : Int} (h : -2 ^ 31 ≤ x ∧ x < 2 ^ 31) : int32 x = x := by
  unfold int32
  rw [Int.bmod_eq_of_le] <;> omega

theorem int32_range (x : Int) : -2 ^ 31 ≤ int32 x ∧ int32 x < 2 ^ 31 :=
  ⟨Int.le_bmod (by decide), Int.bmod_lt (by decide)⟩

theorem int32_below {x : Int} (h : -2 ^ 32 ≤ x ∧ x < -2 ^ 31) : int32 x = x + 2 ^ 32 := by
  have hsame : int32 (x + 2 ^ 32) = int32 x := Int.add_bmod_right x (2 ^ 32)
  rw [← hsame]
  exact int32_of_range (by omega)

theorem toNat_ofInt (n : ℕ) : (UInt32.ofInt (n : ℤ)).toNat = n % 2 ^ 32 := by
  rw [UInt32.ofInt, UInt32.toNat_ofNat']
  omega

theorem uint64_cast (x : Int) : (uint64 x : Int) = x % 2 ^ 64 :=
  Int.toNat_of_nonneg (Int.emod_nonneg _ (by decide))

theorem int64_uint64 (x : Int) : int64 (uint64 x) = int64 x := by
  rw [uint64_cast]
  exact Int.emod_bmod x (2 ^ 64)

theorem uint64_of_range {x : Int} (h : 0 ≤ x ∧ x < 2 ^ 64) : (uint64 x : Int) = x := by
  unfold uint64
  omega

end SynaBoot.CText
