import SynaBoot.BoundedArray
import SynaBoot.ByteStore
import SynaBoot.CString
import SynaBoot.GptLookup

namespace SynaBoot.PartBuffer

open SynaBoot.BoundedArray SynaBoot.ByteStore SynaBoot.CString SynaBoot.CText
open SynaBoot.Emmcburn (Burner DiskPartition cleanMbrGptTable createGptPartition gptRestore
  maxGptPtNum partNameLen sectionPart setGpt strtoull)

def bufferSize : ℕ := 0x1000
def argvSize : ℕ := 4

def load (file : List Char) : List Char :=
  file ++ List.replicate (bufferSize - file.length) '\x00'

def kept (c : Char) : Bool := c ≠ ' ' && c ≠ '\t' && c ≠ '\r'

def squeeze : ℕ → ℕ → ℕ → List Char → Option (ℕ × List Char)
  | 0, _, ret, input => some (ret, input)
  | left + 1, i, ret, input =>
    match input[i]? with
    | none => none
    | some c =>
      if c = '\x00' then some (ret, input)
      else if kept c then (store input ret [c]).bind (squeeze left (i + 1) (ret + 1))
      else squeeze left (i + 1) ret input

def clear : ℕ → ℕ → List Char → Option (List Char)
  | 0, _, input => some input
  | left + 1, i, input => (store input i ['\x00']).bind (clear left (i + 1))

def processInput (input : List Char) (len : ℕ) : Option (List Char) :=
  (squeeze len 0 0 input).bind fun r => clear (len - r.1) r.1 r.2

def getLine (mem : List Char) : Option (Bool × ℕ × List Char) :=
  match strchr '\n' mem with
  | none => none
  | some none => (strlen mem).map fun n => (1 < n, n, mem)
  | some (some n) => (store mem n ['\x00']).map fun mem => (1 < n, n, mem)

def parseArg (len : ℕ) : ℕ → ℕ → List ℕ → List Char → Option (List ℕ × List Char)
  | 0, _, _, _ => none
  | fuel + 1, p, argv, mem =>
    if p < len then
      match push argvSize argv p, strchr ',' (mem.drop p) with
      | some argv, some none => some (argv, mem)
      | some argv, some (some n) =>
        (store mem (p + n) ['\x00']).bind (parseArg len fuel (p + n + 1) argv)
      | _, _ => none
    else some (argv, mem)

/-- The name is copied without a limit. -/
def addPartition (partitions : List DiskPartition) (name : List Char) (start size : ℤ) :
    Option (List DiskPartition) :=
  if name.length < partNameLen then
    push maxGptPtNum partitions (createGptPartition name start size)
  else none

inductive Rows where
  | done (partitions : List DiskPartition) (len : ℕ) (mem : List Char)
  | invalid

def rows : ℕ → List DiskPartition → ℤ → ℤ → List Char → Option Rows
  | 0, _, _, _, _ => none
  | fuel + 1, partitions, ptStart, ptSize, mem =>
    match getLine mem with
    | none => none
    | some (false, len, mem) => some (.done partitions len mem)
    | some (true, len, mem) =>
      match parseArg len (len + 1) 0 [] mem with
      | none => none
      | some (name :: start :: size :: _, mem) =>
        match text (mem.drop name), text (mem.drop start), text (mem.drop size) with
        | some name, some start, some size =>
          let ptStart := if partitions.length = 0 then int64 (strtoull start)
            else int64 (ptStart + ptSize)
          let ptSize := int64 (strtoull size)
          (addPartition partitions name ptStart ptSize).bind fun partitions =>
            rows fuel partitions ptStart ptSize (mem.drop (len + 1))
        | _, _, _ => none
      | some (_, _) => some .invalid

inductive Section where
  | failed (b : Burner)
  | restored (len : ℕ) (mem : List Char) (b : Burner)

def importSection (part : ℕ) (b : Burner) (mem : List Char) : Option Section :=
  match rows (mem.length + 1) [] 0 0 mem with
  | none => none
  | some .invalid => some (.failed b)
  | some (.done partitions len mem) =>
    match (b.hw part).bind fun h => gptRestore h.lba partitions with
    | none => some (.failed b)
    | some es => some (.restored len mem { setGpt part (some es) b with isGptReady := false })

def sections : ℕ → ℕ → List Char → Burner → Option (ℤ × Burner)
  | 0, _, _, b => some (0, b)
  | n + 1, len, mem, b =>
    match getLine (mem.drop (len + 1)) with
    | none => none
    | some (false, _, _) => some (0, b)
    | some (true, len, mem) =>
      match (text mem).map sectionPart with
      | none => none
      | some none => some (0, b)
      | some (some (part, named)) =>
        match cleanMbrGptTable part b with
        | (false, b) => some (-1, b)
        | (true, b) =>
          match importSection part b (if named then mem.drop (len + 1) else mem) with
          | none => none
          | some (.failed b) => some (-1, b)
          | some (.restored len mem b) => sections n len mem b

/-- `none` is an access outside of an array. -/
def parsePartAndGenGpt (buff : List Char) (size : ℕ) (b : Burner) : Option (ℤ × Burner) :=
  match (processInput buff size).bind getLine with
  | none => none
  | some (false, _, _) => some (-1, b)
  | some (true, len, mem) =>
    match text mem with
    | none => none
    | some line =>
      if len ≠ 4 ∧ line.take 4 ≠ "#GPT".toList then some (0, b) else sections 5 len mem b

section ProcessInput

def squeezed (cs : List Char) : List Char := (cs.takeWhile (· ≠ '\x00')).filter kept

theorem squeezed_eq (file : List Char) : squeezed file = Emmcburn.processInput file := rfl

theorem store_middle {α : Type} (pre : List α) (old new : α) (post : List α) :
    store (pre ++ old :: post) pre.length [new] = some (pre ++ new :: post) := by
  rw [store_room (by simp), List.take_left]
  congr 1
  rw [List.length_singleton, ← List.drop_drop, List.drop_left]
  rfl

theorem squeeze_eq (out gap cs rest : List Char) :
    ∃ gap', (squeezed cs).length + gap'.length = gap.length + cs.length ∧
      squeeze cs.length (out.length + gap.length) out.length (out ++ gap ++ (cs ++ rest)) =
        some (out.length + (squeezed cs).length, out ++ squeezed cs ++ gap' ++ rest) := by
  induction cs generalizing out gap with
  | nil => exact ⟨gap, by simp [squeezed], by simp [squeeze, squeezed]⟩
  | cons c cs ih =>
    have hget : (out ++ gap ++ (c :: cs ++ rest))[out.length + gap.length]? = some c := by
      rw [← List.length_append, List.getElem?_append_right le_rfl, Nat.sub_self]
      rfl
    rw [List.length_cons, squeeze, hget]
    dsimp only
    by_cases hnul : c = '\x00'
    · refine ⟨gap ++ c :: cs, ?_, ?_⟩
      · simp [squeezed, hnul]
      · simp [squeezed, hnul]
    · rw [if_neg hnul]
      by_cases hkept : kept c
      · rw [if_pos hkept]
        have hsq : squeezed (c :: cs) = c :: squeezed cs := by
          simp [squeezed, hnul, hkept]
        obtain ⟨g, gap₁, hgap⟩ := List.exists_cons_of_ne_nil (List.append_ne_nil_of_right_ne_nil gap
          (List.cons_ne_nil c []))
        have hlen₁ : gap₁.length = gap.length := by simpa using (congrArg List.length hgap).symm
        have hmem : out ++ gap ++ (c :: cs ++ rest) = out ++ g :: (gap₁ ++ (cs ++ rest)) := by
          rw [← List.cons_append, ← hgap]
          simp
        obtain ⟨gap', hlen, heq⟩ := ih (out ++ [c]) gap₁
        refine ⟨gap', ?_, ?_⟩
        · rw [hsq, List.length_cons]
          omega
        · rw [hmem, store_middle, Option.bind_some, hsq]
          rw [hlen₁] at heq
          simpa [Nat.add_assoc, Nat.add_comm 1] using heq
      · have hsq : squeezed (c :: cs) = squeezed cs := by
          simp [squeezed, hnul, hkept]
        obtain ⟨gap', hlen, heq⟩ := ih out (gap ++ [c])
        refine ⟨gap', ?_, ?_⟩
        · rw [hsq]
          simp at hlen ⊢
          omega
        · rw [if_neg hkept, hsq]
          simpa [Nat.add_assoc] using heq

theorem clear_eq (pre mid rest : List Char) : clear mid.length pre.length (pre ++ mid ++ rest) =
    some (pre ++ List.replicate mid.length '\x00' ++ rest) := by
  induction mid generalizing pre with
  | nil => simp [clear]
  | cons c mid ih =>
    have hnext := ih (pre ++ ['\x00'])
    rw [List.append_assoc, List.cons_append, List.length_cons, clear, store_middle,
      Option.bind_some]
    simpa [List.replicate_succ] using hnext

theorem length_squeezed_le (cs : List Char) : (squeezed cs).length ≤ cs.length :=
  (List.length_filter_le _ _).trans (List.takeWhile_prefix _).length_le

theorem processInput_load {file : List Char} (h : file.length ≤ bufferSize) :
    processInput (load file) file.length =
      some (squeezed file ++ List.replicate (bufferSize - (squeezed file).length) '\x00') := by
  have hle := length_squeezed_le file
  obtain ⟨gap, hlen, heq⟩ :=
    squeeze_eq [] [] file (List.replicate (bufferSize - file.length) '\x00')
  simp only [List.nil_append, List.length_nil, Nat.zero_add, List.append_nil] at heq hlen
  have hgap : file.length - (squeezed file).length = gap.length := by omega
  rw [processInput, load, heq, Option.bind_some, hgap, clear_eq, List.append_assoc,
    ← List.replicate_add]
  congr 4
  omega

end ProcessInput

section Lines

inductive Holds (z : ℕ) : List (List Char) → List Char → Prop where
  | nil : Holds z [] (List.replicate z '\x00')
  | cons {line : List Char} {lines : List (List Char)} {sep : Char} {mem : List Char}
      (newline : '\n' ∉ line) (nul : '\x00' ∉ line) (terminated : sep = '\n' ∨ sep = '\x00')
      (rest : Holds z lines mem) : Holds z (line :: lines) (line ++ sep :: mem)

def extent (lines : List (List Char)) : ℕ := (lines.map fun line => line.length + 1).sum

variable {z : ℕ} {line : List Char} {lines : List (List Char)} {mem : List Char}

theorem extent_cons (line : List Char) (lines : List (List Char)) :
    extent (line :: lines) = line.length + 1 + extent lines := List.sum_cons

theorem Holds.length_eq (h : Holds z lines mem) : mem.length = extent lines + z := by
  induction h with
  | nil => rw [List.length_replicate, extent, List.map_nil, List.sum_nil, Nat.zero_add]
  | cons _ _ _ _ ih =>
    rw [List.length_append, List.length_cons, ih, extent_cons]
    omega

theorem length_le_extent (lines : List (List Char)) : lines.length ≤ extent lines := by
  induction lines with
  | nil => exact Nat.zero_le _
  | cons line lines ih =>
    rw [extent_cons, List.length_cons]
    omega

theorem holds_fields {s : List Char} (hnul : '\x00' ∉ s) {n : ℕ} (hn : 0 < n) :
    ∃ z, Holds z (fields '\n' s) (s ++ List.replicate n '\x00') := by
  induction s using fields_induction '\n' with
  | nil => exact ⟨n, .nil⟩
  | last s hs hx =>
    obtain ⟨n, rfl⟩ := Nat.exists_eq_add_of_lt hn
    rw [fields_last hs hx, Nat.zero_add, List.replicate_succ]
    exact ⟨n, .cons hx hnul (.inr rfl) .nil⟩
  | next f s hx ih =>
    rw [List.mem_append, List.mem_cons, not_or, not_or] at hnul
    obtain ⟨z, hz⟩ := ih hnul.2.2
    rw [fields_append s hx, List.append_assoc]
    exact ⟨z, .cons hx hnul.1 (.inl rfl) hz⟩

theorem getLine_cons {sep : Char} (newline : '\n' ∉ line) (nul : '\x00' ∉ line)
    (terminated : sep = '\n' ∨ sep = '\x00') :
    getLine (line ++ sep :: mem) =
      some (decide (1 < line.length), line.length, line ++ '\x00' :: mem) := by
  obtain rfl | rfl := terminated
  · rw [getLine, strchr_append newline nul]
    dsimp only
    rw [store_middle]
    rfl
  · rw [getLine, strchr_missing (by decide) newline nul]
    dsimp only
    rw [strlen_append nul]
    rfl

theorem getLine_zeros (z : ℕ) : getLine (List.replicate z '\x00') =
    if z = 0 then none else some (false, 0, List.replicate z '\x00') := by
  cases z with
  | zero => rfl
  | succ z =>
    rw [if_neg (Nat.succ_ne_zero z)]
    rfl

end Lines

section Fields

def offsets : ℕ → List (List Char) → List ℕ
  | _, [] => []
  | p, f :: fs => p :: offsets (p + f.length + 1) fs

def terminate (line : List Char) : List Char := line.map fun c => if c = ',' then '\x00' else c

theorem terminate_of_not_mem {f : List Char} (h : ',' ∉ f) : terminate f = f := by
  have hid : ∀ c ∈ f, (if c = ',' then '\x00' else c) = id c := by
    intro c hc
    have hne : c ≠ ',' := fun hcomma => h (hcomma ▸ hc)
    exact if_neg hne
  rw [terminate, List.map_congr_left hid, List.map_id]

theorem terminate_append {f : List Char} (h : ',' ∉ f) (s : List Char) :
    terminate (f ++ ',' :: s) = f ++ '\x00' :: terminate s := by
  rw [terminate, List.map_append, ← terminate, terminate_of_not_mem h, List.map_cons, if_pos rfl]
  rfl

theorem length_behind (pre f : List Char) :
    (pre ++ f ++ ['\x00']).length = pre.length + f.length + 1 := by
  rw [List.length_append, List.length_append, List.length_singleton]

variable {len fuel p n : ℕ} {argv : List ℕ} {mem mem' : List Char}

theorem parseArg_full (hp : p < len) (hfull : argvSize ≤ argv.length) :
    parseArg len (fuel + 1) p argv mem = none := by
  rw [parseArg, if_pos hp, push_full hfull]

theorem parseArg_last (hp : p < len) (hroom : argv.length < argvSize)
    (hchr : strchr ',' (mem.drop p) = some none) :
    parseArg len (fuel + 1) p argv mem = some (argv ++ [p], mem) := by
  rw [parseArg, if_pos hp, push_room hroom, hchr]

theorem parseArg_next (hp : p < len) (hroom : argv.length < argvSize)
    (hchr : strchr ',' (mem.drop p) = some (some n))
    (hstore : store mem (p + n) ['\x00'] = some mem') :
    parseArg len (fuel + 1) p argv mem = parseArg len fuel (p + n + 1) (argv ++ [p]) mem' := by
  rw [parseArg, if_pos hp, push_room hroom, hchr]
  dsimp only
  rw [hstore, Option.bind_some]

theorem parseArg_eq {line : List Char} (hnul : '\x00' ∉ line) (pre mem : List Char) (argv : List ℕ)
    (hargv : argv.length ≤ argvSize) (hfuel : line.length < fuel) :
    parseArg (pre.length + line.length) fuel pre.length argv (pre ++ (line ++ '\x00' :: mem)) =
      if argv.length + (fields ',' line).length ≤ argvSize then
        some (argv ++ offsets pre.length (fields ',' line),
          pre ++ (terminate line ++ '\x00' :: mem))
      else none := by
  induction line using fields_induction ',' generalizing pre argv fuel with
  | nil =>
    cases fuel with
    | zero => cases hfuel
    | succ fuel =>
      have hzero : argv.length + (fields ',' []).length ≤ argvSize := hargv
      rw [if_pos hzero, parseArg, if_neg (by simp)]
      simp [fields, offsets, terminate]
  | last line hne hcomma =>
    have hpos := List.length_pos_of_ne_nil hne
    rw [fields_last hne hcomma, terminate_of_not_mem hcomma, List.length_singleton]
    cases fuel with
    | zero => omega
    | succ fuel =>
      by_cases hroom : argv.length < argvSize
      · rw [if_pos (Nat.succ_le_of_lt hroom)]
        refine parseArg_last (by omega) hroom ?_
        rw [List.drop_left]
        exact strchr_missing (by decide) hcomma hnul
      · rw [if_neg (by omega), parseArg_full (by omega) (by omega)]
  | next f line hcomma ih =>
    rw [List.mem_append, List.mem_cons, not_or, not_or] at hnul
    rw [fields_append line hcomma, terminate_append hcomma, List.length_cons]
    have hlen : (f ++ ',' :: line).length = f.length + 1 + line.length := by
      simp only [List.length_append, List.length_cons]
      omega
    rw [hlen] at hfuel ⊢
    cases fuel with
    | zero => omega
    | succ fuel =>
      by_cases hroom : argv.length < argvSize
      · have hchr : strchr ',' ((pre ++ (f ++ ',' :: line ++ '\x00' :: mem)).drop pre.length) =
            some (some f.length) := by
          rw [List.drop_left, List.append_assoc]
          exact strchr_append hcomma hnul.1
        have hstore : store (pre ++ (f ++ ',' :: line ++ '\x00' :: mem)) (pre.length + f.length)
            ['\x00'] = some (pre ++ f ++ ['\x00'] ++ (line ++ '\x00' :: mem)) := by
          have hmid := store_middle (pre ++ f) ',' '\x00' (line ++ '\x00' :: mem)
          rw [List.length_append] at hmid
          simpa only [List.append_assoc, List.cons_append, List.nil_append] using hmid
        have hpre := length_behind pre f
        have hnext := ih hnul.2.2 (pre ++ f ++ ['\x00']) (argv ++ [pre.length])
          (by rw [List.length_append]; exact hroom) (show line.length < fuel by omega)
        rw [parseArg_next (by omega) hroom hchr hstore]
        rw [hpre, List.length_append, List.length_singleton] at hnext
        have hend : pre.length + (f.length + 1 + line.length) =
            pre.length + f.length + 1 + line.length := by omega
        have hcount : argv.length + 1 + (fields ',' line).length =
            argv.length + ((fields ',' line).length + 1) := by omega
        rw [hend, hnext, hcount]
        simp only [offsets, List.append_assoc, List.cons_append, List.nil_append]
      · rw [parseArg_full (by omega) (by omega), if_neg (by omega)]

theorem text_offsets {line : List Char} (hnul : '\x00' ∉ line) (pre mem : List Char) :
    (offsets pre.length (fields ',' line)).map
        (fun p => text ((pre ++ (terminate line ++ '\x00' :: mem)).drop p)) =
      (fields ',' line).map some := by
  induction line using fields_induction ',' generalizing pre with
  | nil => rfl
  | last line hne hcomma =>
    rw [fields_last hne hcomma, terminate_of_not_mem hcomma]
    simp only [offsets, List.map_cons, List.map_nil, List.drop_left, text_append hnul]
  | next f line hcomma ih =>
    rw [List.mem_append, List.mem_cons, not_or, not_or] at hnul
    have hnext := ih hnul.2.2 (pre ++ f ++ ['\x00'])
    have hpre := length_behind pre f
    have hmem : pre ++ f ++ ['\x00'] ++ (terminate line ++ '\x00' :: mem) =
        pre ++ (f ++ '\x00' :: (terminate line ++ '\x00' :: mem)) := by simp
    rw [hpre, hmem] at hnext
    rw [fields_append line hcomma, terminate_append hcomma, offsets, List.map_cons, List.map_cons,
      List.append_assoc, List.cons_append, List.drop_left, text_append hnul.1, hnext]

theorem parseArg_line {line : List Char} (hnul : '\x00' ∉ line) (mem : List Char) :
    parseArg line.length (line.length + 1) 0 [] (line ++ '\x00' :: mem) =
      if (fields ',' line).length ≤ argvSize then
        some (offsets 0 (fields ',' line), terminate line ++ '\x00' :: mem)
      else none := by
  have h := parseArg_eq hnul [] mem [] (Nat.zero_le _) (Nat.lt_succ_self line.length)
  simpa only [List.nil_append, List.length_nil, Nat.zero_add] using h

end Fields

section Rows

variable {z fuel : ℕ} {line : List Char} {lines : List (List Char)} {mem : List Char}
  {partitions : List DiskPartition} {ptStart ptSize : ℤ}

theorem drop_terminate (line mem : List Char) :
    (terminate line ++ '\x00' :: mem).drop (line.length + 1) = mem := by
  have hlen : (terminate line).length = line.length := List.length_map _
  rw [← hlen, ← List.drop_drop, List.drop_left]
  rfl

theorem addPartition_eq (name : List Char) (start size : ℤ) :
    addPartition partitions name start size =
      if partNameLen ≤ name.length ∨ maxGptPtNum ≤ partitions.length then none
      else some (partitions ++ [createGptPartition name start size]) := by
  unfold addPartition push
  split_ifs <;> first | rfl | omega

theorem rows_long {sep : Char} (newline : '\n' ∉ line) (nul : '\x00' ∉ line)
    (terminated : sep = '\n' ∨ sep = '\x00') (hlong : 1 < line.length) :
    rows (fuel + 1) partitions ptStart ptSize (line ++ sep :: mem) =
      match fields ',' line with
      | name :: start :: size :: option =>
        if 1 < option.length ∨ partNameLen ≤ name.length ∨ maxGptPtNum ≤ partitions.length then none
        else
          let ptStart := if partitions.length = 0 then int64 (strtoull start)
            else int64 (ptStart + ptSize)
          let ptSize := int64 (strtoull size)
          rows fuel (partitions ++ [createGptPartition name ptStart ptSize]) ptStart ptSize mem
      | _ => some .invalid := by
  have htext := text_offsets nul [] mem
  rw [rows, getLine_cons newline nul terminated, decide_eq_true hlong]
  dsimp only
  rw [parseArg_line nul]
  rw [List.length_nil] at htext
  generalize fields ',' line = fs at htext ⊢
  match fs with
  | [] | [_] | [_, _] => rfl
  | name :: start :: size :: option =>
    dsimp only
    by_cases hargs : option.length ≤ 1
    · have hlen : (name :: start :: size :: option).length ≤ argvSize := by
        simp only [List.length_cons, argvSize]
        omega
      simp only [offsets, List.map_cons, List.cons.injEq, List.nil_append] at htext
      rw [if_pos hlen]
      dsimp only [offsets]
      rw [htext.1, htext.2.1, htext.2.2.1]
      dsimp only
      rw [addPartition_eq, drop_terminate]
      by_cases hover : partNameLen ≤ name.length ∨ maxGptPtNum ≤ partitions.length
      · have hany : 1 < option.length ∨ partNameLen ≤ name.length ∨
            maxGptPtNum ≤ partitions.length := .inr hover
        rw [if_pos hover, if_pos hany]
        rfl
      · have hnone : ¬ (1 < option.length ∨ partNameLen ≤ name.length ∨
            maxGptPtNum ≤ partitions.length) := fun h => h.elim (by omega) hover
        rw [if_neg hover, if_neg hnone]
        rfl
    · have hlen : ¬ (name :: start :: size :: option).length ≤ argvSize := by
        simp only [List.length_cons, argvSize]
        omega
      rw [if_neg hlen, if_pos (.inl (by omega))]

def ending (lines : List (List Char)) : ℕ := if lines.all (1 < ·.length) then 1 else 0

def Follows (z : ℕ) (lines : List (List Char)) : Emmcburn.Rows → Option Rows → Prop
  | .overrun, r => r = none
  | .invalid, r => r = some .invalid
  | .done partitions rest, r =>
    if ending lines ≤ z then
      ∃ len mem, r = some (.done partitions len mem) ∧
        Holds (z - ending lines) rest (mem.drop (len + 1))
    else r = none

theorem ending_cons (h : 1 < line.length) : ending (line :: lines) = ending lines := by
  rw [ending, List.all_cons, decide_eq_true h, Bool.true_and, ending]

theorem Follows.cons {r : Emmcburn.Rows} {r' : Option Rows} (h : Follows z lines r r')
    (hlong : 1 < line.length) : Follows z (line :: lines) r r' := by
  unfold Follows at h ⊢
  rw [ending_cons hlong]
  exact h

theorem rows_follows (h : Holds z lines mem) (hfuel : lines.length < fuel) :
    Follows z lines (Emmcburn.parseRows partitions ptStart ptSize lines)
      (rows fuel partitions ptStart ptSize mem) := by
  induction h generalizing fuel partitions ptStart ptSize with
  | nil =>
    cases fuel with
    | zero => cases hfuel
    | succ fuel =>
      rw [rows, getLine_zeros]
      cases z with
      | zero => rfl
      | succ z => exact ⟨0, _, rfl, .nil⟩
  | @cons line lines sep mem newline nul terminated rest ih =>
    rw [List.length_cons] at hfuel
    cases fuel with
    | zero => omega
    | succ fuel =>
      have hfuel' : lines.length < fuel := by omega
      rw [Emmcburn.parseRows]
      by_cases hshort : line.length ≤ 1
      · have hfalse : decide (1 < line.length) = false := decide_eq_false (by omega)
        have hending : ending (line :: lines) = 0 := by
          rw [ending, List.all_cons, hfalse, Bool.false_and]
          rfl
        rw [if_pos hshort, rows, getLine_cons newline nul terminated, hfalse]
        dsimp only
        rw [Follows, hending, if_pos (Nat.zero_le z)]
        refine ⟨line.length, line ++ '\x00' :: mem, rfl, ?_⟩
        rw [← List.drop_drop, List.drop_left]
        exact rest
      · have hlong : 1 < line.length := by omega
        rw [if_neg hshort, rows_long newline nul terminated hlong]
        match fields ',' line with
        | [] | [_] | [_, _] => rfl
        | name :: start :: size :: option =>
          dsimp only
          split
          · rfl
          · exact (ih hfuel').cons hlong

end Rows

section Sections

inductive Turn where
  | ended
  | unclean (b : Burner)
  | overrun (rows : List (List Char))
  | invalid (rows : List (List Char)) (b : Burner)
  | unrestored (rows : List (List Char)) (b : Burner)
  | restored (part : ℕ) (rows : List (List Char)) (partitions : List DiskPartition)
      (rest : List (List Char)) (b : Burner)

def importRows (part : ℕ) (b : Burner) (rows : List (List Char)) : Turn :=
  match Emmcburn.parseRows [] 0 0 rows with
  | .overrun => .overrun rows
  | .invalid => .invalid rows b
  | .done partitions rest =>
    match (b.hw part).bind fun h => gptRestore h.lba partitions with
    | none => .unrestored rows b
    | some es =>
      .restored part rows partitions rest { setGpt part (some es) b with isGptReady := false }

def turn (lines : List (List Char)) (b : Burner) : Turn :=
  match (Emmcburn.getLine lines).bind sectionPart with
  | none => .ended
  | some (part, named) =>
    match cleanMbrGptTable part b with
    | (false, b) => .unclean b
    | (true, b) => importRows part b (if named then lines.tail else lines)

structure Walk where
  sections : List (List (List Char))
  behind : ℕ
  deriving DecidableEq

def walk : ℕ → List (List Char) → Burner → Walk
  | 0, _, _ => ⟨[], 0⟩
  | n + 1, lines, b =>
    match turn lines b with
    | .ended => ⟨[], if lines = [] then 1 else 0⟩
    | .unclean _ => ⟨[], 0⟩
    | .overrun rows => ⟨[rows], 0⟩
    | .invalid rows _ => ⟨[rows], 0⟩
    | .unrestored rows _ => ⟨[rows], ending rows⟩
    | .restored _ rows _ rest b =>
      let w := walk n rest b
      ⟨rows :: w.sections, ending rows + w.behind⟩

variable {z n len part : ℕ} {lines : List (List Char)} {mem : List Char} {b b' : Burner}

theorem parseSections_succ : Emmcburn.parseSections (n + 1) lines b =
    match turn lines b with
    | .ended => some (0, b)
    | .unclean b | .invalid _ b | .unrestored _ b => some (-1, b)
    | .overrun _ => none
    | .restored _ _ _ rest b => Emmcburn.parseSections n rest b := by
  rw [Emmcburn.parseSections, turn]
  cases (Emmcburn.getLine lines).bind sectionPart with
  | none => rfl
  | some r =>
    obtain ⟨part, named⟩ := r
    dsimp only
    cases cleanMbrGptTable part b with
    | mk ok b =>
      cases ok with
      | false => rfl
      | true =>
        dsimp only [importRows]
        cases Emmcburn.parseRows [] 0 0 (if named then lines.tail else lines) with
        | overrun => rfl
        | invalid => rfl
        | done partitions rest =>
          dsimp only
          cases (b.hw part).bind fun h => gptRestore h.lba partitions <;> rfl

def Turn.Spec (b : Burner) : Turn → Prop
  | .ended | .unclean _ => True
  | .overrun rows => Emmcburn.parseRows [] 0 0 rows = .overrun
  | .invalid rows _ => Emmcburn.parseRows [] 0 0 rows = .invalid
  | .unrestored rows _ => ∃ partitions rest, Emmcburn.parseRows [] 0 0 rows = .done partitions rest
  | .restored part rows partitions rest b' =>
    Emmcburn.parseRows [] 0 0 rows = .done partitions rest ∧
      ∃ b₁ h es, cleanMbrGptTable part b = (true, b₁) ∧ b₁.hw part = some h ∧
        gptRestore h.lba partitions = some es ∧
        b' = { setGpt part (some es) b₁ with isGptReady := false }

theorem importRows_spec {rows : List (List Char)} (h : cleanMbrGptTable part b = (true, b')) :
    (importRows part b' rows).Spec b := by
  unfold importRows
  cases hrows : Emmcburn.parseRows [] 0 0 rows with
  | overrun => exact hrows
  | invalid => exact hrows
  | done partitions rest =>
    dsimp only
    cases hgpt : (b'.hw part).bind fun h => gptRestore h.lba partitions with
    | none => exact ⟨partitions, rest, hrows⟩
    | some es =>
      obtain ⟨hw, hdev, hes⟩ := Option.bind_eq_some_iff.mp hgpt
      exact ⟨hrows, b', hw, es, h, hdev, hes, rfl⟩

theorem turn_spec (lines : List (List Char)) (b : Burner) : (turn lines b).Spec b := by
  unfold turn
  split
  · trivial
  · split
    · trivial
    · next hclean => exact importRows_spec hclean

def Turn.Follows (z : ℕ) (r : Option Section) : Turn → Prop
  | .ended | .unclean _ => False
  | .overrun _ => r = none
  | .invalid _ b => r = some (.failed b)
  | .unrestored rows b => if ending rows ≤ z then r = some (.failed b) else r = none
  | .restored _ rows _ rest b =>
    if ending rows ≤ z then
      ∃ len mem, r = some (.restored len mem b) ∧ Holds (z - ending rows) rest (mem.drop (len + 1))
    else r = none

theorem importSection_follows (part : ℕ) (b : Burner) (h : Holds z lines mem) :
    (importRows part b lines).Follows z (importSection part b mem) := by
  have hfuel : lines.length < mem.length + 1 := by
    rw [h.length_eq]
    have := length_le_extent lines
    omega
  have hfollows : Follows z lines (Emmcburn.parseRows [] 0 0 lines)
      (rows (mem.length + 1) [] 0 0 mem) := rows_follows h hfuel
  unfold importRows importSection
  generalize rows (mem.length + 1) [] 0 0 mem = r at hfollows ⊢
  cases hrows : Emmcburn.parseRows [] 0 0 lines with
  | overrun =>
    rw [hrows] at hfollows
    obtain rfl : r = none := hfollows
    rfl
  | invalid =>
    rw [hrows] at hfollows
    obtain rfl : r = some .invalid := hfollows
    rfl
  | done partitions rest =>
    rw [hrows] at hfollows
    dsimp only
    by_cases hend : ending lines ≤ z
    · obtain ⟨len, mem', rfl, hrest⟩ := (if_pos hend).mp hfollows
      dsimp only
      cases (b.hw part).bind fun h => gptRestore h.lba partitions with
      | none => exact (if_pos hend).mpr rfl
      | some es => exact (if_pos hend).mpr ⟨len, mem', rfl, hrest⟩
    · obtain rfl : r = none := (if_neg hend).mp hfollows
      cases (b.hw part).bind fun h => gptRestore h.lba partitions with
      | none => exact (if_neg hend).mpr rfl
      | some es => exact (if_neg hend).mpr rfl

structure Agrees {α : Type} (k z : ℕ) (r r' : Option α) : Prop where
  within : k ≤ z → r = r'
  outside : z < k → r = none

namespace Agrees

variable {α : Type} {j k z : ℕ} {r r' : Option α}

theorem of_le (hk : k ≤ z) (h : r = r') : Agrees k z r r' :=
  ⟨fun _ => h, fun hlt => absurd hlt (Nat.not_lt.mpr hk)⟩

theorem refl (r : Option α) : Agrees 0 z r r := of_le (Nat.zero_le z) rfl

theorem none_left (hk : z < k) : Agrees k z none r' :=
  ⟨fun hle => absurd hk (Nat.not_lt.mpr hle), fun _ => rfl⟩

theorem add (hk : k ≤ z) (h : Agrees j (z - k) r r') : Agrees (k + j) z r r' :=
  ⟨fun hle => h.within (by omega), fun hlt => h.outside (by omega)⟩

end Agrees

theorem holds_section {line : List Char} (named : Bool) (hnewline : '\n' ∉ line)
    (hnul : '\x00' ∉ line) (h : Holds z lines mem) :
    Holds z (if named then (line :: lines).tail else line :: lines)
      (if named then (line ++ '\x00' :: mem).drop (line.length + 1) else line ++ '\x00' :: mem) := by
  cases named with
  | false => exact .cons hnewline hnul (.inr rfl) h
  | true =>
    rw [if_pos rfl, if_pos rfl, ← List.drop_drop, List.drop_left]
    exact h

theorem sections_agrees (h : Holds z lines (mem.drop (len + 1))) :
    Agrees (walk n lines b).behind z (sections n len mem b) (Emmcburn.parseSections n lines b) := by
  induction n generalizing lines len mem b z with
  | zero => exact .refl _
  | succ n ih =>
    rw [sections, walk, parseSections_succ, turn]
    generalize mem.drop (len + 1) = mem at h ⊢
    cases h with
    | nil =>
      rw [getLine_zeros]
      cases z with
      | zero => exact .none_left (Nat.zero_lt_one)
      | succ z => exact .of_le (Nat.le_add_left 1 z) rfl
    | @cons line lines sep mem newline nul terminated rest =>
      rw [getLine_cons newline nul terminated, Emmcburn.getLine]
      by_cases hshort : line.length ≤ 1
      · rw [if_pos hshort, decide_eq_false (Nat.not_lt.mpr hshort)]
        exact .refl _
      · rw [if_neg hshort, decide_eq_true (by omega), Option.bind_some]
        dsimp only
        rw [text_append nul, Option.map_some]
        cases sectionPart line with
        | none => exact .refl _
        | some r =>
          obtain ⟨part, named⟩ := r
          dsimp only
          cases cleanMbrGptTable part b with
          | mk ok b =>
            cases ok with
            | false => exact .refl _
            | true =>
              have hfollows := importSection_follows part b (holds_section named newline nul rest)
              dsimp only
              generalize importSection part b _ = r at hfollows ⊢
              generalize importRows part b _ = t at hfollows ⊢
              cases t with
              | ended => exact hfollows.elim
              | unclean b => exact hfollows.elim
              | overrun rows =>
                obtain rfl : r = none := hfollows
                exact .refl _
              | invalid rows b =>
                obtain rfl : r = some (.failed b) := hfollows
                exact .refl _
              | unrestored rows b =>
                by_cases hend : ending rows ≤ z
                · obtain rfl : r = some (.failed b) := (if_pos hend).mp hfollows
                  exact .of_le hend rfl
                · obtain rfl : r = none := (if_neg hend).mp hfollows
                  exact .none_left (Nat.not_le.mp hend)
              | restored part rows partitions rest b =>
                by_cases hend : ending rows ≤ z
                · obtain ⟨len, mem, rfl, hrest⟩ := (if_pos hend).mp hfollows
                  exact .add hend (ih hrest)
                · obtain rfl : r = none := (if_neg hend).mp hfollows
                  exact .none_left (Nat.lt_add_right _ (Nat.not_le.mp hend))

end Sections

section Arrays

def isRow (line : List Char) : Bool := 1 < line.length && 3 ≤ (fields ',' line).length

def RowFits (line : List Char) : Prop :=
  (fields ',' line).length ≤ argvSize ∧ ((fields ',' line).headD []).length < partNameLen

def RowsFit (count : ℕ) (lines : List (List Char)) : Prop :=
  count + (lines.takeWhile isRow).length ≤ maxGptPtNum ∧
    ∀ line ∈ lines.takeWhile isRow, RowFits line

instance (line : List Char) : Decidable (RowFits line) := inferInstanceAs (Decidable (_ ∧ _))

instance (count : ℕ) (lines : List (List Char)) : Decidable (RowsFit count lines) :=
  inferInstanceAs (Decidable (_ ∧ _))

variable {n : ℕ} {line : List Char} {lines : List (List Char)} {b : Burner}
  {partitions : List DiskPartition} {ptStart ptSize : ℤ}

theorem rowsFit_of_not_isRow (hcount : partitions.length ≤ maxGptPtNum) (h : ¬ isRow line) :
    RowsFit partitions.length (line :: lines) := by
  unfold RowsFit
  rw [List.takeWhile_cons_of_neg h]
  exact ⟨hcount, List.forall_mem_nil _⟩

theorem rowsFit_cons {count : ℕ} (h : isRow line) :
    RowsFit count (line :: lines) ↔ RowFits line ∧ RowsFit (count + 1) lines := by
  unfold RowsFit
  rw [List.takeWhile_cons_of_pos h, List.length_cons, List.forall_mem_cons, Nat.add_assoc,
    Nat.add_comm 1]
  exact and_left_comm

theorem parseRows_overrun_iff (hcount : partitions.length ≤ maxGptPtNum) :
    Emmcburn.parseRows partitions ptStart ptSize lines = .overrun ↔
      ¬ RowsFit partitions.length lines := by
  induction lines generalizing partitions ptStart ptSize with
  | nil =>
    refine iff_of_false (fun h => by cases h) (not_not_intro ?_)
    exact ⟨hcount, List.forall_mem_nil _⟩
  | cons line lines ih =>
    rw [Emmcburn.parseRows]
    by_cases hshort : line.length ≤ 1
    · have hrow : ¬ isRow line := by
        rw [isRow, decide_eq_false (Nat.not_lt.mpr hshort), Bool.false_and]
        exact Bool.false_ne_true
      rw [if_pos hshort]
      exact iff_of_false (fun h => by cases h) (not_not_intro (rowsFit_of_not_isRow hcount hrow))
    · rw [if_neg hshort]
      match hfields : fields ',' line with
      | [] | [_] | [_, _] =>
        have hrow : ¬ isRow line := by
          rw [isRow, hfields]
          simp
        exact iff_of_false (fun h => by cases h) (not_not_intro (rowsFit_of_not_isRow hcount hrow))
      | name :: start :: size :: option =>
        have hrow : isRow line := by
          rw [isRow, hfields, decide_eq_true (Nat.not_le.mp hshort)]
          simp
        have hfits : RowFits line ↔ ¬ (1 < option.length ∨ partNameLen ≤ name.length) := by
          rw [RowFits, hfields]
          simp only [List.length_cons, List.headD_cons, argvSize]
          omega
        rw [rowsFit_cons hrow, hfits]
        dsimp only
        by_cases hover : 1 < option.length ∨ partNameLen ≤ name.length ∨
            maxGptPtNum ≤ partitions.length
        · rw [if_pos hover]
          refine iff_of_true rfl fun h => ?_
          have hcap := h.2.1
          omega
        · rw [if_neg hover, ih (by rw [List.length_append, List.length_singleton]; omega),
            List.length_append, List.length_singleton, and_iff_right (by omega)]

theorem rowsFit_iff {rows : List (List Char)} :
    RowsFit 0 rows ↔ Emmcburn.parseRows [] 0 0 rows ≠ .overrun := by
  have hover : Emmcburn.parseRows [] 0 0 rows = .overrun ↔ ¬ RowsFit 0 rows :=
    parseRows_overrun_iff (Nat.zero_le _)
  rw [Ne, hover, not_not]

theorem parseSections_isSome_iff : (Emmcburn.parseSections n lines b).isSome ↔
    ∀ rows ∈ (walk n lines b).sections, RowsFit 0 rows := by
  have hnil : ∀ rows ∈ ([] : List (List (List Char))), RowsFit 0 rows :=
    List.forall_mem_nil _
  induction n generalizing lines b with
  | zero => exact iff_of_true rfl hnil
  | succ n ih =>
    have hspec := turn_spec lines b
    rw [walk, parseSections_succ]
    cases hturn : turn lines b with
    | ended => exact iff_of_true rfl hnil
    | unclean => exact iff_of_true rfl hnil
    | overrun rows =>
      rw [hturn] at hspec
      refine iff_of_false (fun h => by cases h) fun h => ?_
      exact rowsFit_iff.mp (h rows List.mem_cons_self) hspec
    | invalid rows b =>
      have hrows : Emmcburn.parseRows [] 0 0 rows = .invalid := by
        rw [hturn] at hspec
        exact hspec
      refine iff_of_true rfl (List.forall_mem_singleton.mpr (rowsFit_iff.mpr ?_))
      rw [hrows]
      exact Emmcburn.Rows.noConfusion
    | unrestored rows b =>
      obtain ⟨partitions, rest, hrows⟩ : ∃ partitions rest,
          Emmcburn.parseRows [] 0 0 rows = .done partitions rest := by
        rw [hturn] at hspec
        exact hspec
      refine iff_of_true rfl (List.forall_mem_singleton.mpr (rowsFit_iff.mpr ?_))
      rw [hrows]
      exact Emmcburn.Rows.noConfusion
    | restored part rows partitions rest b =>
      have hfits : RowsFit 0 rows := by
        rw [hturn] at hspec
        rw [rowsFit_iff, hspec.1]
        exact Emmcburn.Rows.noConfusion
      dsimp only
      rw [List.forall_mem_cons, and_iff_right hfits]
      exact ih

end Arrays

def linesOf (file : List Char) : List (List Char) := fields '\n' (Emmcburn.processInput file)

def walkOf (file : List Char) (b : Burner) : Walk :=
  match Emmcburn.getLine (linesOf file) with
  | none => ⟨[], 0⟩
  | some line =>
    if line.length ≠ 4 ∧ line.take 4 ≠ "#GPT".toList then ⟨[], 0⟩
    else walk 5 (linesOf file).tail b

theorem isSome_iff (file : List Char) (b : Burner) :
    (Emmcburn.parsePartAndGenGpt file b).isSome ↔
      ∀ rows ∈ (walkOf file b).sections, RowsFit 0 rows := by
  have hnil : ∀ rows ∈ ([] : List (List (List Char))), RowsFit 0 rows :=
    List.forall_mem_nil _
  rw [Emmcburn.parsePartAndGenGpt, walkOf, linesOf]
  cases Emmcburn.getLine (fields '\n' (Emmcburn.processInput file)) with
  | none => exact iff_of_true rfl hnil
  | some line =>
    dsimp only
    split
    · exact iff_of_true rfl hnil
    · exact parseSections_isSome_iff

theorem parsePartAndGenGpt_agrees {file : List Char} (b : Burner) (h : file.length < bufferSize) :
    ∃ z, extent (linesOf file) + z = bufferSize ∧
      Agrees (walkOf file b).behind z (parsePartAndGenGpt (load file) file.length b)
        (Emmcburn.parsePartAndGenGpt file b) := by
  have hlen := length_squeezed_le file
  have hnul : '\x00' ∉ squeezed file := by
    intro hmem
    have := List.mem_takeWhile_imp (List.mem_of_mem_filter hmem)
    simp at this
  obtain ⟨z, hz⟩ := holds_fields hnul (show 0 < bufferSize - (squeezed file).length by omega)
  refine ⟨z, ?_, ?_⟩
  · have heq := hz.length_eq
    rw [List.length_append, List.length_replicate] at heq
    rw [linesOf, ← squeezed_eq]
    omega
  · rw [parsePartAndGenGpt, processInput_load h.le, Option.bind_some, walkOf, linesOf,
      Emmcburn.parsePartAndGenGpt, ← squeezed_eq]
    generalize fields '\n' (squeezed file) = lines at hz ⊢
    generalize hmem : squeezed file ++ List.replicate _ '\x00' = mem at hz ⊢
    cases hz with
    | nil =>
      rw [getLine_zeros]
      cases z with
      | zero =>
        have hzero := congrArg List.length hmem
        simp at hzero
        omega
      | succ z => exact .refl _
    | @cons line lines sep mem newline nul terminated rest =>
      rw [getLine_cons newline nul terminated, Emmcburn.getLine]
      by_cases hshort : line.length ≤ 1
      · rw [if_pos hshort, decide_eq_false (Nat.not_lt.mpr hshort)]
        exact .refl _
      · rw [if_neg hshort, decide_eq_true (Nat.not_le.mp hshort)]
        dsimp only
        rw [text_append nul]
        dsimp only
        by_cases hgpt : line.length ≠ 4 ∧ line.take 4 ≠ "#GPT".toList
        · rw [if_pos hgpt, if_pos hgpt, if_pos hgpt]
          exact .refl _
        · rw [if_neg hgpt, if_neg hgpt, if_neg hgpt]
          refine sections_agrees ?_
          rw [← List.drop_drop, List.drop_left]
          exact rest

/-- Parsing keeps to its arrays exactly if the rows fit and the zeros behind the text suffice. -/
theorem parse_in_bounds_iff (file : List Char) (b : Burner) (hfile : file.length ≤ 4095) :
    (parsePartAndGenGpt (load file) file.length b).isSome ↔
      (∀ rows ∈ (walkOf file b).sections, RowsFit 0 rows) ∧
        extent (linesOf file) + (walkOf file b).behind ≤ bufferSize := by
  have hsize : file.length < bufferSize := Nat.lt_succ_of_le hfile
  obtain ⟨z, hz, hagrees⟩ := parsePartAndGenGpt_agrees b hsize
  by_cases hbehind : (walkOf file b).behind ≤ z
  · rw [hagrees.within hbehind, isSome_iff]
    exact (and_iff_left (by omega)).symm
  · rw [hagrees.outside (by omega)]
    exact iff_of_false Bool.false_ne_true fun h => hbehind (by omega)

theorem parse_in_bounds_two :
    (parsePartAndGenGpt (load GptLookup.otherList) GptLookup.otherList.length
      (Emmcburn.poweron GptLookup.blank 0)).isSome :=
  (parse_in_bounds_iff _ _ (by decide)).mpr (by decide +kernel)

section Short

variable {n : ℕ} {lines rest : List (List Char)} {b : Burner}
  {partitions partitions' : List DiskPartition} {ptStart ptSize : ℤ}

theorem ending_le (lines : List (List Char)) : ending lines ≤ 1 := by
  unfold ending
  split <;> omega

theorem parseRows_cons_done {line : List Char} (hlong : ¬ line.length ≤ 1)
    (h : Emmcburn.parseRows partitions ptStart ptSize (line :: lines) = .done partitions' rest) :
    ∃ name start size option ptStart' ptSize', fields ',' line = name :: start :: size :: option ∧
      option.length ≤ 1 ∧ partitions.length < maxGptPtNum ∧
      Emmcburn.parseRows (partitions ++ [createGptPartition name ptStart' ptSize']) ptStart' ptSize'
        lines = .done partitions' rest := by
  rw [Emmcburn.parseRows, if_neg hlong] at h
  match hfields : fields ',' line with
  | [] | [_] | [_, _] =>
    rw [hfields] at h
    cases h
  | name :: start :: size :: option =>
    rw [hfields] at h
    dsimp only at h
    split at h
    · cases h
    · next hfit => exact ⟨name, start, size, option, _, _, rfl, by omega, by omega, h⟩

theorem parseRows_rest (h : Emmcburn.parseRows partitions ptStart ptSize lines =
    .done partitions' rest) (hend : ending lines ≠ 0) : rest = [] := by
  induction lines generalizing partitions ptStart ptSize with
  | nil =>
    cases h
    rfl
  | cons line lines ih =>
    by_cases hshort : line.length ≤ 1
    · refine absurd ?_ hend
      rw [ending, List.all_cons, decide_eq_false (Nat.not_lt.mpr hshort), Bool.false_and]
      rfl
    · rw [ending_cons (Nat.not_le.mp hshort)] at hend
      obtain ⟨_, _, _, _, _, _, -, -, -, hrest⟩ := parseRows_cons_done hshort h
      exact ih hrest hend

theorem walk_nil_behind (n : ℕ) (b : Burner) : (walk n [] b).behind ≤ 1 := by
  cases n with
  | zero => exact Nat.zero_le 1
  | succ n => exact le_rfl

theorem walk_behind_le : (walk n lines b).behind ≤ 2 := by
  induction n generalizing lines b with
  | zero => exact Nat.zero_le 2
  | succ n ih =>
    have hspec := turn_spec lines b
    rw [walk]
    cases hturn : turn lines b with
    | ended =>
      dsimp only
      split <;> omega
    | unclean => exact Nat.zero_le 2
    | overrun => exact Nat.zero_le 2
    | invalid => exact Nat.zero_le 2
    | unrestored rows b => exact (ending_le rows).trans (by decide)
    | restored part rows partitions rest b =>
      rw [hturn] at hspec
      dsimp only
      by_cases hend : ending rows = 0
      · rw [hend, Nat.zero_add]
        exact ih
      · rw [parseRows_rest hspec.1 hend]
        exact Nat.add_le_add (ending_le rows) (walk_nil_behind n _)

theorem extent_fields_le (s : List Char) : extent (fields '\n' s) ≤ s.length + 1 := by
  induction s using fields_induction '\n' with
  | nil => exact Nat.zero_le _
  | last s hs hx =>
    rw [fields_last hs hx]
    exact le_rfl
  | next f s hx ih =>
    rw [fields_append s hx, extent_cons, List.length_append, List.length_cons]
    omega

theorem parsePartAndGenGpt_short {file : List Char} (b : Burner)
    (h : file.length + 3 ≤ bufferSize) :
    parsePartAndGenGpt (load file) file.length b = Emmcburn.parsePartAndGenGpt file b := by
  obtain ⟨z, hz, hagrees⟩ := parsePartAndGenGpt_agrees b (show file.length < bufferSize by omega)
  have hextent : extent (linesOf file) ≤ file.length + 1 :=
    (extent_fields_le _).trans (Nat.succ_le_succ (length_squeezed_le file))
  have hbehind : (walkOf file b).behind ≤ 2 := by
    unfold walkOf
    split
    · exact Nat.zero_le 2
    · split
      · exact Nat.zero_le 2
      · exact walk_behind_le
  exact hagrees.within (by omega)

end Short

def fiveFields : List Char := "#GPT\nboot,16,8,,x\n".toList

def fullLine : List Char := "#GPT".toList ++ List.replicate 4091 '#'

theorem linesOf_fullLine : linesOf fullLine = [fullLine] := by
  have hchar : ∀ c ∈ fullLine, c = '#' ∨ c = 'G' ∨ c = 'P' ∨ c = 'T' := by
    intro c hc
    obtain hc | hc := List.mem_append.mp hc
    · simpa using hc
    · exact .inl (List.mem_replicate.mp hc).2
  have hself : Emmcburn.processInput fullLine = fullLine := by
    rw [Emmcburn.processInput, List.takeWhile_eq_self_iff.mpr, List.filter_eq_self.mpr]
    · intro c hc
      obtain rfl | rfl | rfl | rfl := hchar c hc <;> rfl
    · intro c hc
      obtain rfl | rfl | rfl | rfl := hchar c hc <;> rfl
  rw [linesOf, hself]
  exact fields_last (List.cons_ne_nil _ _) fun h => absurd (hchar _ h) (by decide)

theorem lists_leave_buffer :
    parsePartAndGenGpt (load fiveFields) fiveFields.length (Emmcburn.poweron GptLookup.blank 0) =
      none ∧
    fullLine.length = 4095 ∧ ∀ b, parsePartAndGenGpt (load fullLine) fullLine.length b = none := by
  have hlen : fullLine.length = 4095 := calc
    fullLine.length = "#GPT".toList.length + (List.replicate 4091 '#').length := List.length_append
    _ = 4095 := by
      rw [List.length_replicate]
      rfl
  refine ⟨?_, hlen, fun b => ?_⟩
  · have hnone : Emmcburn.parsePartAndGenGpt fiveFields (Emmcburn.poweron GptLookup.blank 0) =
        none := by
      rw [← Option.not_isSome_iff_eq_none, isSome_iff]
      decide +kernel
    rw [parsePartAndGenGpt_short _ (by decide), hnone]
  · obtain ⟨z, hz, hagrees⟩ := parsePartAndGenGpt_agrees b (show fullLine.length < bufferSize by
      rw [hlen]
      decide)
    have hgpt : ¬ (fullLine.length ≠ 4 ∧ fullLine.take 4 ≠ "#GPT".toList) := fun h => h.2 rfl
    have hwalk : walkOf fullLine b = ⟨[], 1⟩ := by
      rw [walkOf, linesOf_fullLine, Emmcburn.getLine, if_neg (by omega)]
      dsimp only
      rw [if_neg hgpt]
      rfl
    rw [linesOf_fullLine, extent_cons, hlen] at hz
    rw [hwalk] at hagrees
    refine hagrees.outside ?_
    unfold bufferSize at hz
    dsimp only
    omega

end SynaBoot.PartBuffer
