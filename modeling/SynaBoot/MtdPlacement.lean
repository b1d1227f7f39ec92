import SynaBoot.KernelParam
import SynaBoot.PartLayout
import SynaBoot.VersionTable

namespace SynaBoot.MtdPlacement

open SynaBoot.CText SynaBoot.KernelParam SynaBoot.PartLayout SynaBoot.PartTool
open SynaBoot.VersionTable

variable {blockSize chipSize : Int} {es fs : List TableEntry} {p : Int}

def ending : Int → List TableEntry → Int
  | p, [] => p
  | _, e :: es => ending (e.start + e.size) es

theorem follows_append (p : Int) (es fs : List TableEntry) :
    Follows p (es ++ fs) ↔ Follows p es ∧ Follows (ending p es) fs := by
  induction es generalizing p with
  | nil => simp [Follows, ending]
  | cons e es ih =>
    rw [List.cons_append, Follows, Follows, ih, and_assoc]
    rfl

theorem ending_append (p : Int) (es fs : List TableEntry) :
    ending p (es ++ fs) = ending (ending p es) fs := by
  induction es generalizing p with
  | nil => rfl
  | cons e es ih => exact ih _

theorem follows_restart {q : Int} (h : Follows p es)
    (hq : ∀ e ∈ es.head?, '@' ∉ e.layout → e.start = q) : Follows q es := by
  cases es with
  | nil => trivial
  | cons e es => exact ⟨hq e rfl, h.2⟩

theorem follows_congr (h : es.map place = fs.map place) (hf : Follows p es) : Follows p fs := by
  induction es generalizing p fs with
  | nil =>
    obtain rfl := List.map_eq_nil_iff.mp h.symm
    trivial
  | cons e es ih =>
    obtain ⟨f, fs, rfl, hfe, hfs⟩ := List.map_eq_cons_iff.mp h.symm
    obtain ⟨hl, hst, hsz⟩ : f.layout = e.layout ∧ f.start = e.start ∧ f.size = e.size := by
      simpa [place] using hfe
    refine ⟨fun hat => ?_, ?_⟩
    · rw [hst]
      exact hf.1 (hl ▸ hat)
    · rw [hst, hsz]
      exact ih hfs.symm hf.2

theorem small_congr {e f : TableEntry} (h : place e = place f) (he : Small e) : Small f := by
  obtain ⟨-, hst, hsz⟩ : e.layout = f.layout ∧ e.start = f.start ∧ e.size = f.size := by
    simpa [place] using h
  exact ⟨hst ▸ he.nonneg, hst ▸ he.start_lt, hsz ▸ he.size_lt⟩

theorem small_of_place (h : es.map place = fs.map place) (hs : ∀ e ∈ es, Small e) :
    ∀ f ∈ fs, Small f := by
  intro f hf
  have hmem : place f ∈ es.map place := h ▸ List.mem_map_of_mem hf
  obtain ⟨e, he, hfe⟩ := List.mem_map.mp hmem
  exact small_congr hfe (hs e he)

theorem start_of_parseLayout {e e' : TableEntry} (h : parseLayout blockSize e = some e')
    (hat : '@' ∉ e.layout) (p : Int) : (setStart p e').start = p := by
  simp only [parseLayout, if_neg hat, Option.ite_none_left_eq_some, Option.some.injEq] at h
  obtain ⟨-, rfl⟩ := h
  rfl

theorem forward_follows (hf : Forward blockSize chipSize es p) (hs : ∀ e ∈ es, Small e) :
    Follows 0 es ∧ ending 0 es = p := by
  induction hf with
  | nil => exact ⟨trivial, rfl⟩
  | @snoc es p e e' hf hd hp hc ih =>
    rw [List.forall_mem_append, List.forall_mem_singleton] at hs
    obtain ⟨hfol, hend⟩ := ih hs.1
    obtain ⟨hpos, hstart, hsize⟩ := hs.2
    rw [setStart_size] at hsize
    have hexact : int64 ((setStart p e').start + e'.size) = (setStart p e').start + e'.size :=
      int64_of_range ⟨by omega, by omega⟩
    rw [follows_append, ending_append, hend, hexact]
    refine ⟨⟨hfol, fun hat => ?_, trivial⟩, ?_⟩
    · rw [setStart_layout, parseLayout_layout hp] at hat
      exact start_of_parseLayout hp hat p
    · rw [ending, ending, setStart_size]

theorem int64_sub {len size : Nat} (hpos : 0 < chipSize) (hchip : chipSize < 2 ^ 63)
    (hlen : len ≤ maxEntries) (hp : p ≤ chipSize ∧ chipSize - len * 2 ^ 40 ≤ p)
    (hsize : size < 2 ^ 40) : int64 (p - size) = p - size := by
  unfold maxEntries at hlen
  exact int64_of_range ⟨by omega, by omega⟩

theorem backward_range (hb : Backward blockSize chipSize es p) (hpos : 0 < chipSize)
    (hchip : chipSize < 2 ^ 63) (hlen : es.length ≤ maxEntries) (hs : ∀ e ∈ es, Small e) :
    p ≤ chipSize ∧ chipSize - es.length * 2 ^ 40 ≤ p := by
  induction hb with
  | nil => exact ⟨le_rfl, by simp⟩
  | @cons es p e e' hb hp ih =>
    rw [List.forall_mem_cons] at hs
    rw [List.length_cons] at hlen ⊢
    have hp := ih (by omega) hs.2
    have hsize := hs.1.size_lt
    rw [setStart_size] at hsize
    rw [int64_sub hpos hchip (by omega) hp hsize]
    push_cast
    omega

theorem backward_follows (hb : Backward blockSize chipSize es p) (hpos : 0 < chipSize)
    (hchip : chipSize < 2 ^ 63) (hlen : es.length ≤ maxEntries) (hs : ∀ e ∈ es, Small e)
    (hpw : es.Pairwise Before) (hfirst : ∀ e ∈ es.head?, p ≤ e.start) : Follows p es := by
  induction hb with
  | nil => trivial
  | @cons es p e e' hb hp ih =>
    rw [List.forall_mem_cons] at hs
    rw [List.length_cons] at hlen
    rw [List.pairwise_cons] at hpw
    have hrange := backward_range hb hpos hchip (by omega) hs.2
    have hsize := hs.1.size_lt
    rw [setStart_size] at hsize
    rw [int64_sub hpos hchip (by omega) hrange hsize] at hpw hfirst ⊢
    have hstart := hfirst _ rfl
    have hnext : ∀ f ∈ es.head?, p ≤ f.start ∧
        (setStart (p - e'.size) e').start + e'.size ≤ f.start := by
      intro f hf
      have hbefore := hpw.1 f (List.mem_of_mem_head? hf)
      unfold Before at hbefore
      rw [setStart_size] at hbefore
      omega
    have hrest := ih (by omega) hs.2 hpw.2 fun f hf => (hnext f hf).1
    refine ⟨fun hat => ?_, follows_restart hrest fun f hf hat => ?_⟩
    · rw [setStart_layout, parseLayout_layout hp] at hat
      exact start_of_parseLayout hp hat _
    · have hplace : f.start = p := by
        cases es with
        | nil => cases hf
        | cons g es =>
          obtain rfl := Option.some.inj hf
          exact hrest.1 hat
      have hle := (hnext f hf).2
      rw [setStart_size]
      omega

theorem table_follows {t : List TableEntry} (ht : Table blockSize chipSize t)
    (hov : overlaps t = false) (hpos : 0 < chipSize) (hchip : chipSize < 2 ^ 63)
    (hlen : t.length ≤ maxEntries) (hs : ∀ e ∈ t, Small e) : Follows 0 t := by
  have hpw := pairwise_of_not_overlaps hov fun e he =>
    ⟨(hs e he).nonneg, by have := (hs e he).start_lt; have := (hs e he).size_lt; omega⟩
  cases ht with
  | front hf => exact (forward_follows hf hs).1
  | @rest es tail p q d hf hb hd hpq =>
    rw [List.forall_mem_append, List.forall_mem_cons] at hs
    rw [List.length_append, List.length_cons] at hlen
    obtain ⟨hfol, hend⟩ := forward_follows hf hs.1
    obtain ⟨hle, hge⟩ := backward_range hb hpos hchip (by omega) hs.2.2
    have hp := hs.2.1.nonneg
    dsimp only at hp
    have hsize : (uint64 (q - p) : Int) = q - p := uint64_of_range ⟨by omega, by omega⟩
    have hdash : p + (uint64 (q - p) : Int) = q := by omega
    rw [List.pairwise_append, List.pairwise_cons] at hpw
    rw [follows_append, hend]
    refine ⟨hfol, fun _ => rfl, ?_⟩
    dsimp only
    rw [hdash]
    refine backward_follows hb hpos hchip (by omega) hs.2.2 hpw.2.1.2 fun e he => ?_
    have hbefore := hpw.2.1.1 e (List.mem_of_mem_head? he)
    unfold Before at hbefore
    dsimp only at hbefore
    omega

def recorded (args : Args) (v : VerTableEntry) : FlashRecord.Bytes 16 × Int × Int :=
  (v.name, v.part1StartBlkind.toNat * args.blockSize, v.part1Blks.toNat * args.blockSize)

def read (p : MtdPart) : FlashRecord.Bytes 16 × Int × Int := (strcpy zeros p.name, p.start, p.size)

def Agrees (args : Args) (vt : VerTableEntry) (table : List TableEntry) : Prop :=
  ∃ text parts, kernelParam table = some text ∧ readMtdparts text = some parts ∧
    parts.length = table.length ∧
    ((table.zip parts).filter fun q => !q.1.isBackUp).map (fun q => read q.2) =
      (versionTable false args vt table).map (recorded args)

structure WholeBlocks (args : Args) (e : TableEntry) : Prop where
  start_dvd : args.blockSize ∣ e.start
  size_dvd : args.blockSize ∣ e.size
  start_lt : e.start < 2 ^ 32 * args.blockSize
  size_lt : e.size < 2 ^ 32 * args.blockSize

theorem blocks_eq_iff {b x : Int} (hb : 0 < b) (hx : 0 ≤ x) :
    (unsigned (x / b)).toNat * b = x ↔ b ∣ x ∧ x < 2 ^ 32 * b := by
  have hq : 0 ≤ x / b := Int.ediv_nonneg hx hb.le
  have hcast : ((unsigned (x / b)).toNat : Int) = x / b % 2 ^ 32 := by
    have hlt : uint32 (x / b) < 2 ^ 32 := by
      unfold uint32
      omega
    rw [unsigned, UInt32.toNat_ofNat_of_lt' hlt]
    unfold uint32
    omega
  rw [hcast]
  constructor
  · intro h
    have hlt : x / b % 2 ^ 32 < 2 ^ 32 := Int.emod_lt_of_pos _ (by decide)
    refine ⟨h ▸ Int.dvd_mul_left _ b, ?_⟩
    rw [← h]
    exact Int.mul_lt_mul_of_pos_right hlt hb
  · rintro ⟨hd, hlt⟩
    have hlt : x / b < 2 ^ 32 := Int.ediv_lt_of_lt_mul hb hlt
    rw [Int.emod_eq_of_lt hq hlt, Int.ediv_mul_cancel hd]

theorem read_part_iff {args : Args} (hb : 0 < args.blockSize) (table : List TableEntry)
    {e : TableEntry} (hs : Small e) :
    read (part e) = recorded args (verTableEntry args table e) ↔ WholeBlocks args e := by
  have hstart : startBlkind args e = unsigned (e.start / args.blockSize) := by
    rw [startBlkind, Int.tdiv_eq_ediv_of_nonneg hs.nonneg]
  have hst := blocks_eq_iff hb hs.nonneg
  have hsz := blocks_eq_iff hb (Int.natCast_nonneg e.size)
  have hnat : ((part e).start : Int) = e.start := Int.toNat_of_nonneg hs.nonneg
  have heq : read (part e) = recorded args (verTableEntry args table e) ↔
      (unsigned (e.start / args.blockSize)).toNat * args.blockSize = e.start ∧
        (unsigned (e.size / args.blockSize)).toNat * args.blockSize = e.size := by
    simp only [read, recorded, verTableEntry, Prod.mk.injEq, hstart, blks, hnat]
    exact ⟨fun h => ⟨h.2.1.symm, h.2.2.symm⟩, fun h => ⟨rfl, h.1.symm, h.2.symm⟩⟩
  rw [heq, hst, hsz]
  exact ⟨fun h => ⟨h.1.1, h.2.1, h.1.2, h.2.2⟩,
    fun h => ⟨⟨h.start_dvd, h.start_lt⟩, h.size_dvd, h.size_lt⟩⟩

theorem filter_zip_part (table : List TableEntry) :
    ((table.zip (table.map part)).filter fun q => !q.1.isBackUp).map (fun q => read q.2) =
      (table.filter fun e => !e.isBackUp).map fun e => read (part e) := by
  induction table with
  | nil => rfl
  | cons e es ih =>
    rw [List.map_cons, List.zip_cons_cons, List.filter_cons, List.filter_cons]
    cases e.isBackUp with
    | true => exact ih
    | false => exact congrArg (read (part e) :: ·) ih

theorem versionTable_eq_iff {args : Args} (hb : 0 < args.blockSize) (vt : VerTableEntry)
    {table : List TableEntry} (hs : ∀ e ∈ table, Small e) :
    ((table.zip (table.map part)).filter fun q => !q.1.isBackUp).map (fun q => read q.2) =
        (versionTable false args vt table).map (recorded args) ↔
      ∀ e ∈ table, e.isBackUp = false → WholeBlocks args e := by
  rw [filter_zip_part, versionTable, if_neg (by decide), List.nil_append, List.map_map,
    List.map_inj_left]
  constructor
  · intro h e he hback
    exact (read_part_iff hb table (hs e he)).mp (h e (List.mem_filter.mpr ⟨he, by simp [hback]⟩))
  · intro h e he
    obtain ⟨he, hback⟩ := List.mem_filter.mp he
    exact (read_part_iff hb table (hs e he)).mpr (h e he (by simpa using hback))

theorem names_of_count {table : List TableEntry}
    (h : table.length + (table.map fun e => e.name.count ')').sum = table.length) :
    ∀ e ∈ table, ')' ∉ e.name := by
  intro e he
  have hle := List.single_le_sum (l := table.map fun e => e.name.count ')')
    (fun _ _ => Nat.zero_le _) _ (List.mem_map_of_mem he)
  exact List.count_eq_zero.mp (by omega)

theorem agrees_iff {args : Args} (hb : 0 < args.blockSize) (vt : VerTableEntry)
    {table : List TableEntry} (hs : ∀ e ∈ table, Small e) (hf : Follows 0 table) :
    Agrees args vt table ↔ (∀ e ∈ table, ')' ∉ e.name) ∧
      ∀ e ∈ table, e.isBackUp = false → WholeBlocks args e := by
  by_cases hne : table = []
  · subst hne
    exact ⟨fun _ => ⟨by simp, by simp⟩, fun _ => ⟨_, [], rfl, rfl, rfl, rfl⟩⟩
  obtain ⟨texts, ht⟩ := exists_texts hs
  have hparam := kernelParam_eq ht hne
  have hcount := count_texts ht
  have hlength := List.length_pos_iff.mpr hne
  have hbody : [','].intercalate texts ≠ [] := by
    intro h
    rw [h, List.count_nil] at hcount
    omega
  have hread := readMtdparts_append hbody
  -- without a closing bracket in a name the configured partitions are read
  have hparts (hname : ∀ e ∈ table, ')' ∉ e.name) :
      readMtdparts (mtdparts ++ [','].intercalate texts) = some (table.map part) := by
    have hlen := List.count_le_length (a := ')') (l := [','].intercalate texts)
    rw [hread]
    exact readParts_texts ht hne hs hname _ 0 (by omega) hf
  constructor
  · rintro ⟨text, parts, htext, hp, hl, heq⟩
    obtain rfl := Option.some.inj (hparam.symm.trans htext)
    have hname : ∀ e ∈ table, ')' ∉ e.name := by
      apply names_of_count
      rw [← hcount, ← length_readParts _ _ _ _ (hread.symm.trans hp), hl]
    obtain rfl := Option.some.inj ((hparts hname).symm.trans hp)
    exact ⟨hname, (versionTable_eq_iff hb vt hs).mp heq⟩
  · rintro ⟨hname, hwhole⟩
    exact ⟨_, _, hparam, hparts hname, List.length_map _,
      (versionTable_eq_iff hb vt hs).mpr hwhole⟩

theorem blockSize_pos {mode : Mode} {args : Args} {file : List Char} {table : List TableEntry}
    (h : acceptedTable mode args file = some table) : 0 < args.blockSize := by
  simp only [acceptedTable, layoutTable, Option.bind_eq_bind, Option.bind_eq_some_iff,
    Option.ite_none_left_eq_some, not_or, not_le] at h
  obtain ⟨_, ⟨⟨hb, -⟩, -⟩, -⟩ := h
  exact hb

/-- The kernel agrees with the version table when partitions consist of whole countable blocks. -/
theorem mtdparts_agree_iff (args : Args) (vt : VerTableEntry) (file : List Char)
    (table : List TableEntry) (h : acceptedTable .nand args file = some table)
    (hs : ∀ e ∈ table, Small e) :
    (Agrees args vt table ↔ (∀ e ∈ table, ')' ∉ e.name) ∧
      ∀ e ∈ table, e.isBackUp = false → WholeBlocks args e) ∧
    ∀ k, args.blockSize = 2 ^ k → (∀ l ∈ layouts file, InRange args.blockSize l) →
      (['-'] ∈ layouts file → args.blockSize ∣ args.chipSize) →
      ∀ e ∈ table, args.blockSize ∣ e.start ∧ args.blockSize ∣ e.size := by
  obtain ⟨hpos, t, ht, hov, hlen, hl, hplace⟩ := acceptedTable_nand h
  have hst := small_of_place hplace hs
  have hf := table_follows ht hov hpos args.chipSize_lt hlen hst
  refine ⟨agrees_iff (blockSize_pos h) vt hs (follows_congr hplace.symm hf), ?_⟩
  intro k hk hr hc e he
  rw [← hl, List.forall_mem_map] at hr
  rw [← hl] at hc
  have hn := ht.nonneg hk args.blockSize_lt hr fun f hf =>
    ⟨(hst f hf).nonneg, (hst f hf).size_lt.trans (by decide)⟩
  have haligned := ht.aligned hk args.blockSize_lt hpos args.chipSize_lt hlen hr hn hc
  have hmem : place e ∈ t.map place := hplace ▸ List.mem_map_of_mem he
  obtain ⟨f, hf, hfe⟩ := List.mem_map.mp hmem
  obtain ⟨-, hstart, hsize⟩ : f.layout = e.layout ∧ f.start = e.start ∧ f.size = e.size := by
    simpa [place] using hfe
  rw [← hstart, ← hsize]
  exact haligned f hf

def dataConfig : List Char :=
  ['1', 'M', ' ', 'b', 'o', 'o', 't', '\n', '-', ' ', 'd', 'a', 't', 'a', '\n']

instance (e : TableEntry) : Decidable (Small e) :=
  decidable_of_iff (0 ≤ e.start ∧ e.start < 2 ^ 40 ∧ e.size < 2 ^ 40)
    ⟨fun h => ⟨h.1, h.2.1, h.2.2⟩, fun h => ⟨h.nonneg, h.start_lt, h.size_lt⟩⟩

instance (args : Args) (e : TableEntry) : Decidable (WholeBlocks args e) :=
  decidable_of_iff (args.blockSize ∣ e.start ∧ args.blockSize ∣ e.size ∧
    e.start < 2 ^ 32 * args.blockSize ∧ e.size < 2 ^ 32 * args.blockSize)
    ⟨fun h => ⟨h.1, h.2.1, h.2.2.1, h.2.2.2⟩,
      fun h => ⟨h.start_dvd, h.size_dvd, h.start_lt, h.size_lt⟩⟩

theorem mtdparts_agree_small : ∃ table, acceptedTable .nand smallChip dataConfig = some table ∧
    Agrees smallChip blank table := by
  have h : (acceptedTable .nand smallChip dataConfig).isSome := by decide +kernel
  have hall : ∀ table ∈ acceptedTable .nand smallChip dataConfig, (∀ e ∈ table, Small e) ∧
      (∀ e ∈ table, ')' ∉ e.name) ∧
      ∀ e ∈ table, e.isBackUp = false → WholeBlocks smallChip e := by
    decide +kernel
  obtain ⟨table, ht⟩ := Option.isSome_iff_exists.mp h
  obtain ⟨hs, hagree⟩ := hall table ht
  exact ⟨table, ht, (mtdparts_agree_iff smallChip blank dataConfig table ht hs).1.mpr hagree⟩

def halfBlockChip : Args :=
  ⟨1, 0, 2 ^ 20, 2 ^ 24 + 2 ^ 19, smallChip.blockSize_lt, by decide⟩

def halfBlockTable : List TableEntry :=
  [{ layout := ['1', 'M'], name := ['b', 'o', 'o', 't'], start := 0, size := 2 ^ 20 },
    { layout := ['-'], name := ['d', 'a', 't', 'a'], start := 2 ^ 20,
      size := 15 * 2 ^ 20 + 2 ^ 19 }]

def halfBlockText : List Char :=
  mtdparts ++ ['1', 'M', '(', 'b', 'o', 'o', 't', ')', ',', '1', '5', '8', '7', '2', 'K', '(', 'd',
    'a', 't', 'a', ')']

theorem half_block_disagrees :
    acceptedTable .nand halfBlockChip dataConfig = some halfBlockTable ∧
      (∀ e ∈ halfBlockTable, Small e) ∧ kernelParam halfBlockTable = some halfBlockText ∧
      readMtdparts halfBlockText = some [⟨['b', 'o', 'o', 't'], 0, 2 ^ 20⟩,
        ⟨['d', 'a', 't', 'a'], 2 ^ 20, 15 * 2 ^ 20 + 2 ^ 19⟩] ∧
      (versionTable false halfBlockChip blank halfBlockTable).map
          (fun v => (recorded halfBlockChip v).2) = [(0, 2 ^ 20), (2 ^ 20, 15 * 2 ^ 20)] ∧
      ¬Agrees halfBlockChip blank halfBlockTable := by
  have hread : readMtdparts halfBlockText = some (halfBlockTable.map part) := by decide +kernel
  have hparam : kernelParam halfBlockTable = some halfBlockText := by decide +kernel
  refine ⟨by decide +kernel, by decide +kernel, hparam, hread, by decide +kernel, ?_⟩
  rintro ⟨text, parts, ht, hp, -, heq⟩
  obtain rfl := Option.some.inj (hparam.symm.trans ht)
  obtain rfl := Option.some.inj (hread.symm.trans hp)
  exact absurd (congrArg (List.map (·.2)) heq) (by decide +kernel)

end SynaBoot.MtdPlacement
