import SynaBoot.VersionTable

namespace SynaBoot.CrcErrors

open SynaBoot.Crc32 SynaBoot.FlashRecord SynaBoot.TableCrc SynaBoot.VersionTable

theorem tab_eq (i : UInt8) : tab i = (bitStep poly)^[8] i.toUInt32 := by
  have hi : i.toNat < 256 := i.toNat_lt
  have hof : UInt32.ofNat i.toNat = i.toUInt32 := by
    apply UInt32.toNat_inj.mp
    rw [UInt32.toNat_ofNat', UInt8.toNat_toUInt32]
    omega
  rw [tab, crcTable_eq, makeCrcTable, List.getD_eq_getElem _ _ (by simpa using hi),
    List.getElem_map, List.getElem_range, hof]
  rfl

theorem tab_topDistinct : TopDistinct tab := by
  apply topDistinct_of_bitStep tab tab_eq
  intro i hi
  have hzero : ∀ k < 256, crcTable.getD k 0 >>> 24 = 0 → k = 0 := by decide +kernel
  exact UInt8.toNat_inj.mp (hzero _ i.toNat_lt hi)

theorem crcByte_eq : crcByte = step tab := by
  have hbit : crcBit = bitStep poly := by
    funext c
    have hpoly : poly = 0xedb88320 := by decide
    unfold crcBit bitStep
    rcases low_bit c with h | h
    · simp [h]
    · simp [h, hpoly, UInt32.xor_comm]
  funext crc x
  rw [crcByte, hbit, step_eq_bitStep tab tab_eq]

/-- With its table, and by words between aligned addresses, `crc32` computes what the loop over the
bits in `flash_ts_crc` does. -/
theorem crc32_bitwise (addr : Nat) (crc : UInt32) (buf : List UInt8) :
    crc32 addr crc buf = buf.foldl crcByte (crc ^^^ 0xffffffff) ^^^ 0xffffffff := by
  rw [crc32_eq, crcByte_eq]

theorem register_burst (crc : UInt32) (l r : List UInt8) (v w : UInt32) :
    (l ++ leBytes v ++ r).foldl (step tab) crc = (l ++ leBytes w ++ r).foldl (step tab) crc ↔
      v = w := by
  simp only [List.foldl_append]
  refine ⟨fun h => ?_, fun h => by rw [h]⟩
  exact foldl_leBytes_injective tab tab_topDistinct _ (foldl_step_injective tab tab_topDistinct r h)

theorem word_append_left {l r : List UInt8} {i : Nat} (h : i + 4 ≤ l.length) :
    word (l ++ r) i = word l i :=
  word_congr fun _ _ hj => List.getD_append _ _ _ _ (by omega)

theorem length_burst {l r file : List UInt8} {v : UInt32} (h : file = l ++ leBytes v ++ r)
    (w : UInt32) : (l ++ leBytes w ++ r).length = file.length := by
  subst h
  simp [leBytes]

/-- A version table that was changed in four bytes next to each other is refused, as long as it
has the same number of entries. -/
theorem version_table_burst (flashDevIdInc : UInt32 → UInt32) (addr addr' : Nat)
    (es : List VerTableEntry) (pad l r : List UInt8) (v w : UInt32)
    (hsize : (versionTableFile es).length < 2048)
    (hsplit : crcAppend addr' (versionTableFile es) = l ++ leBytes v ++ r)
    (hnum : word (l ++ leBytes w ++ r) 8 = UInt32.ofNat es.length) :
    (parseVersionTable flashDevIdInc addr (l ++ leBytes w ++ r ++ pad)).isSome ↔ w = v := by
  constructor
  · intro hsome
    have hlen := length_burst hsplit w
    rw [length_crcAppend, length_versionTableFile] at hlen
    rw [length_versionTableFile] at hsize
    have htake : (l ++ leBytes w ++ r ++ pad).take
        ((12 : UInt32) + UInt32.ofNat es.length * 68 + 4).toNat = l ++ leBytes w ++ r := by
      apply List.take_left'
      rw [hlen, UInt32.toNat_add, UInt32.toNat_add, UInt32.toNat_mul, UInt32.toNat_ofNat']
      change _ = ((12 + _ * 68 % 2 ^ 32) % 2 ^ 32 + 4) % 2 ^ 32
      omega
    unfold parseVersionTable at hsome
    simp only [word_append_left (show 8 + 4 ≤ (l ++ leBytes w ++ r).length by omega), hnum,
      htake] at hsome
    split at hsome
    · contradiction
    · split at hsome
      · contradiction
      · rename_i hcheck
        have hcrc := (not_or.mp hcheck).2
        rw [ne_eq, not_not, ← crc32_crcAppend addr addr' (versionTableFile es), hsplit, crc32_eq,
          crc32_eq, UInt32.xor_left_inj] at hcrc
        exact ((register_burst _ l r v w).mp hcrc).symm
  · rintro rfl
    obtain ⟨vts, hp, -, -⟩ := parseVersionTable_crcAppend flashDevIdInc addr addr' es pad hsize
    rw [← hsplit, hp]
    rfl

theorem version_table_burst_empty :
    ¬(parseVersionTable (· + 1) 0 (versionTableFile [] ++ leBytes 0 ++ [] ++ [])).isSome := by
  have hcrc : 0 ≠ fcrc32 0 0 (versionTableFile []) ^^^ 0xffffffff := by decide +kernel
  have hsplit := (List.append_nil (crcAppend 0 (versionTableFile []))).symm
  exact mt (version_table_burst (· + 1) 0 0 [] [] _ [] _ 0 (by decide) hsplit (by decide)).mp hcrc

/-- A record of the store is no longer taken for one when four bytes next to each other in its
data have changed. -/
theorem record_burst (r r' : FlashTs) (l t : List UInt8) (v w : UInt32)
    (hcheck : flashTsCheckHeader r ≠ 0) (hdata : contents r = l ++ leBytes v ++ t)
    (hheader : r'.magic = r.magic ∧ r'.crc = r.crc ∧ r'.len = r.len ∧ r'.version = r.version)
    (hdata' : contents r' = l ++ leBytes w ++ t) : flashTsCheckHeader r' ≠ 0 ↔ w = v := by
  obtain ⟨hmagic, hcrc, hlen, hversion⟩ := hheader
  constructor
  · intro hcheck'
    obtain ⟨-, -, hr, -⟩ := check_ne_zero hcheck
    obtain ⟨-, -, hr', -⟩ := check_ne_zero hcheck'
    unfold contents at hdata hdata'
    rw [hcrc, hr, flashTsCrc, flashTsCrc, UInt32.xor_left_inj, hdata, hdata', hlen, hversion,
      crcByte_eq] at hr'
    simp only [← List.append_assoc] at hr'
    exact ((register_burst 0 (le32 r.len ++ le32 r.version ++ l) t v w).mp hr').symm
  · rintro rfl
    rwa [check_congr hmagic hcrc hlen hversion (hdata'.trans hdata.symm)]

def stored (c : UInt8) : Bytes flashTsMaxDataSize :=
  ⟨[97, 61, c, 0, 0] ++ List.replicate (flashTsMaxDataSize - 5) 0, by
    rw [List.length_append, List.length_replicate]
    exact (show 5 + (flashTsMaxDataSize - 5) = flashTsMaxDataSize by decide)⟩

/-- The record of a value `c`, with another one in its place. -/
def record (c d : UInt8) : FlashTs :=
  ⟨flashTsMagic, flashTsCrc ⟨0, 0, 5, 1, stored c⟩, 5, 1, stored d⟩

theorem contents_record (c d : UInt8) :
    contents (record c d) = [] ++ leBytes (leWord 97 61 d 0) ++ [0] := by
  rw [leBytes_leWord]
  rfl

theorem record_burst_changed : ¬flashTsCheckHeader (record 98 99) ≠ 0 := by
  have hcheck : flashTsCheckHeader (record 98 98) = 1 := by
    refine if_pos ⟨rfl, by decide, by decide, by decide, rfl, ?_, .inr ?_⟩
    · rfl
    · rfl
  have hne : leWord 97 61 99 0 ≠ leWord 97 61 98 0 := by decide
  exact mt (record_burst (record 98 98) (record 98 99) [] [0] _ _ (by rw [hcheck]; decide)
    (contents_record 98 98) ⟨rfl, rfl, rfl, rfl⟩ (contents_record 98 99)).mp hne

end SynaBoot.CrcErrors
