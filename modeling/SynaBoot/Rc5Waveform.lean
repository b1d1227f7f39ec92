import SynaBoot.Rc5

namespace SynaBoot.Rc5Waveform

open SynaBoot.CircularBuffer SynaBoot.IrSamples SynaBoot.Rc5 SynaBoot.Schedules

inductive Segment where
  | idle
  | half (level : Bool)
  deriving DecidableEq, Repr

def Segment.level : Segment → Bool
  | .idle => true
  | .half v => v

structure Run where
  level : Bool
  halves : ℕ
  idle : Bool
  deriving DecidableEq, Repr

def Run.of : Segment → Run
  | .idle => ⟨true, 0, true⟩
  | .half v => ⟨v, 1, false⟩

def Run.join (x : Segment) (r : Run) : Run :=
  ⟨r.level, (Run.of x).halves + r.halves, (Run.of x).idle || r.idle⟩

def runs : List Segment → List Run
  | [] => []
  | x :: xs =>
    match runs xs with
    | [] => [.of x]
    | r :: rs => if x.level = r.level then r.join x :: rs else .of x :: r :: rs

def bits (c : UInt32) : List Bool := (List.range 14).map fun i => c.toNat.testBit (13 - i)

def halves (vs : List Bool) : List Segment := vs.flatMap fun v => [.half v, .half (!v)]

def line : List UInt32 → List Segment
  | [] => [.idle]
  | c :: cs => .idle :: (halves (bits c) ++ line cs)

structure IsSample (r : Run) (w : UInt32) : Prop where
  level : isHigh w = r.level
  time : r.idle = false → r.halves * minBitTime < levelLen w ∧ levelLen w < r.halves * maxBitTime

instance (r : Run) (w : UInt32) : Decidable (IsSample r w) :=
  decidable_of_iff (isHigh w = r.level ∧ (r.idle = false → r.halves * minBitTime < levelLen w ∧
    levelLen w < r.halves * maxBitTime)) ⟨fun h => ⟨h.1, h.2⟩, fun h => ⟨h.level, h.time⟩⟩

structure IsCode (c : UInt32) : Prop where
  lt : c.toNat < 2 ^ 14
  first : c.toNat.testBit 13 = true
  second : c.toNat.testBit 12 = true

def marked (prev : Option UInt32) : List UInt32 → List (UInt32 × Bool)
  | [] => []
  | c :: cs => (c, prev == some c) :: marked (some c) cs

def finish (code : UInt32) (vs : List Bool) : UInt32 :=
  vs.foldl (fun code v => code <<< 1 + v.toUInt32) code

inductive At (d : Decoder) (segs : List Segment) (exp : List (UInt32 × Bool)) : Prop
  | idle (lead : List Segment) (cs : List UInt32) (lead_eq : lead = [] ∨ lead = [.half true])
      (bit : d.codeBit = 0) (code : d.code = 0) (last : d.lastBit = false)
      (codes : ∀ c ∈ cs, IsCode c) (segs_eq : segs = lead ++ line cs)
      (exp_eq : exp = marked (some d.prevCode) cs)
  | last (cs : List UInt32) (bit : d.codeBit = 0) (code : d.code = 0) (last : d.lastBit = true)
      (codes : ∀ c ∈ cs, IsCode c) (segs_eq : segs = .half false :: line cs)
      (exp_eq : exp = marked (some d.prevCode) cs)
  | bit (v : Bool) (vs : List Bool) (cs : List UInt32) (started : d.codeBit ≠ 0)
      (bit : d.codeBit + (vs.length + 1) = 14) (first : d.codeBit = 1 → d.prevData = true ∧ v = true)
      (last : d.lastBit = false) (code : finish d.code (v :: vs) ≠ noCode)
      (codes : ∀ c ∈ cs, IsCode c)
      (segs_eq : segs = .half (!d.prevData) :: (halves (v :: vs) ++ line cs))
      (exp_eq : exp = marked (some d.prevCode) (finish d.code (v :: vs) :: cs))
  | mid (vs : List Bool) (cs : List UInt32) (started : d.codeBit ≠ 0)
      (bit : d.codeBit + (vs.length + 1) = 14) (first : d.codeBit = 1 → d.prevData = true)
      (last : d.lastBit = false) (code : finish d.code (d.prevData :: vs) ≠ noCode)
      (codes : ∀ c ∈ cs, IsCode c) (segs_eq : segs = halves (d.prevData :: vs) ++ line cs)
      (exp_eq : exp = marked (some d.prevCode) (finish d.code (d.prevData :: vs) :: cs))
  | ended (segs_eq : segs = []) (exp_eq : exp = [])

section Runs

variable {x y : Segment} {ys : List Segment}

theorem exists_runs (y : Segment) (ys : List Segment) :
    ∃ r rs, runs (y :: ys) = r :: rs ∧ r.level = y.level := by
  have hof : (Run.of y).level = y.level := by cases y <;> rfl
  rw [runs]
  cases runs ys with
  | nil => exact ⟨_, _, rfl, hof⟩
  | cons r rs =>
    by_cases h : y.level = r.level
    · exact ⟨_, _, if_pos h, h.symm⟩
    · exact ⟨_, _, if_neg h, hof⟩

theorem runs_edge (h : x.level ≠ y.level) : runs (x :: y :: ys) = .of x :: runs (y :: ys) := by
  obtain ⟨r, rs, hr, hlevel⟩ := exists_runs y ys
  rw [runs, hr]
  exact if_neg (by rw [hlevel]; exact h)

theorem runs_join {r : Run} {rs : List Run} (h : x.level = y.level) (hr : runs (y :: ys) = r :: rs) :
    runs (x :: y :: ys) = r.join x :: rs := by
  obtain ⟨r', rs', hr', hlevel⟩ := exists_runs y ys
  obtain ⟨rfl, rfl⟩ := List.cons.inj (hr'.symm.trans hr)
  rw [runs, hr]
  exact if_pos (h.trans hlevel.symm)

theorem runs_start {lead : List Segment} (ys : List Segment) (h : lead = [] ∨ lead = [.half true]) :
    ∃ r, runs (lead ++ .idle :: .half true :: .half false :: ys) = r :: runs (.half false :: ys) ∧
      r.level = true := by
  have hfirst : runs (.half true :: .half false :: ys) = _ := runs_edge (by decide)
  have hidle : runs (.idle :: .half true :: .half false :: ys) = _ := runs_join rfl hfirst
  rcases h with rfl | rfl
  · exact ⟨_, hidle, rfl⟩
  · exact ⟨_, runs_join rfl hidle, rfl⟩

theorem runs_end {lead : List Segment} (h : lead = [] ∨ lead = [.half true]) :
    ∃ r, runs (lead ++ [.idle]) = [r] ∧ r.level = true := by
  rcases h with rfl | rfl
  · exact ⟨_, rfl, rfl⟩
  · exact ⟨_, rfl, rfl⟩

theorem length_runs_cons (x : Segment) (xs : List Segment) :
    (runs xs).length ≤ (runs (x :: xs)).length := by
  rw [runs]
  cases runs xs with
  | nil => exact Nat.zero_le _
  | cons r rs =>
    dsimp only
    split
    · exact le_rfl
    · exact Nat.le_succ _

theorem two_runs (h : x.level ≠ y.level) : 2 ≤ (runs (x :: y :: ys)).length := by
  obtain ⟨r, rs, hr, -⟩ := exists_runs y ys
  rw [runs_edge h, hr]
  exact Nat.succ_le_succ (Nat.succ_le_succ (Nat.zero_le _))

theorem line_head (cs : List UInt32) : ∃ ys, line cs = .idle :: ys := by
  cases cs with
  | nil => exact ⟨_, rfl⟩
  | cons c cs => exact ⟨_, rfl⟩

end Runs

section Codes

variable {c : UInt32}

theorem finish_bits (h : c.toNat < 2 ^ 14) : finish 0 (bits c) = c := by
  have hpart (k : ℕ) (hk : k ≤ 14) :
      (finish 0 ((List.range k).map fun i => c.toNat.testBit (13 - i))).toNat =
        c.toNat / 2 ^ (14 - k) := by
    induction k with
    | zero => exact (Nat.div_eq_of_lt h).symm
    | succ k ih =>
      have hlast : (c.toNat.testBit (13 - k)).toUInt32.toNat = c.toNat / 2 ^ (13 - k) % 2 := by
        rw [← Nat.toNat_testBit]
        cases c.toNat.testBit (13 - k) <;> rfl
      have hpow : 2 ^ (14 - k) = 2 ^ (13 - k) * 2 := by
        rw [← pow_succ]
        congr 1
        omega
      have hsub : 14 - (k + 1) = 13 - k := by omega
      have hbound : c.toNat / 2 ^ (14 - k) < 2 ^ 14 := lt_of_le_of_lt (Nat.div_le_self _ _) h
      have hdiv : c.toNat / 2 ^ (14 - k) = c.toNat / 2 ^ (13 - k) / 2 := by
        rw [hpow, Nat.div_div_eq_div_mul]
      rw [List.range_succ, List.map_append, finish, List.foldl_append]
      change ((finish 0 _) <<< 1 + (c.toNat.testBit (13 - k)).toUInt32).toNat = _
      rw [UInt32.toNat_add, UInt32.toNat_shiftLeft, ih (by omega), hlast, hsub]
      change ((c.toNat / 2 ^ (14 - k)) <<< 1 % 2 ^ 32 + _) % 2 ^ 32 = _
      rw [Nat.shiftLeft_eq]
      omega
  exact UInt32.toNat_inj.mp ((hpart 14 le_rfl).trans (Nat.div_one _))

theorem IsCode.ne_noCode (h : IsCode c) : c ≠ noCode := by
  rintro rfl
  exact absurd h.lt (by decide)

theorem IsCode.bits_eq (h : IsCode c) :
    ∃ vs, bits c = true :: true :: vs ∧ vs.length = 12 := by
  refine ⟨(bits c).drop 2, ?_, by rw [List.length_drop]; rfl⟩
  change c.toNat.testBit 13 :: c.toNat.testBit 12 :: _ = _
  rw [h.first, h.second]
  rfl

end Codes

section Steps

variable {now w : UInt32} {s : Pass} {segs : List Segment} {exp : List (UInt32 × Bool)}

def answer (s : Pass) : List (UInt32 × Bool) :=
  if s.rcvCode = noCode then [] else [(s.rcvCode, s.isHold)]

theorem settle_none (h : s.rcvCode = noCode) : settle s = s.decoder := if_neg fun hne => hne h

theorem answer_none (h : s.rcvCode = noCode) : answer s = [] := if_pos h

theorem addBit_at (v : Bool) (vs : List Bool) (cs : List UInt32) (hs : s.rcvCode = noCode)
    (hhold : s.isHold = false) (hlast : s.decoder.lastBit = false)
    (hbit : s.decoder.codeBit + (vs.length + 1) = 14)
    (hfirst : s.decoder.codeBit = 0 → v = true ∧ vs.head? = some true)
    (hcode : finish s.decoder.code (v :: vs) ≠ noCode) (hcs : ∀ c ∈ cs, IsCode c) :
    ∃ exp, At (settle (addBit v s)) (.half (!v) :: (halves vs ++ line cs)) exp ∧
      marked (some s.decoder.prevCode) (finish s.decoder.code (v :: vs) :: cs) =
        answer (addBit v s) ++ exp ∧
      ((addBit v s).rcvCode = noCode → (addBit v s).isHold = false) := by
  cases vs with
  | nil =>
    have hdone : s.decoder.codeBit + 1 = 14 := hbit
    have hadd : addBit v s =
        ⟨⟨s.decoder.codeBit + 1, finish s.decoder.code [v], finish s.decoder.code [v], v,
            s.decoder.errTime, v⟩,
          finish s.decoder.code [v], s.isHold || s.decoder.prevCode == finish s.decoder.code [v]⟩ :=
      if_pos hdone
    rw [hadd, settle, answer, if_pos hcode, if_neg hcode, hhold, Bool.false_or]
    refine ⟨marked (some (finish s.decoder.code [v])) cs, ?_, rfl, fun hnone => absurd hnone hcode⟩
    cases v with
    | true => exact .last cs rfl rfl rfl hcs rfl rfl
    | false => exact .idle [.half true] cs (.inr rfl) rfl rfl rfl hcs rfl rfl
  | cons v' vs =>
    rw [List.length_cons] at hbit
    have hmore : s.decoder.codeBit + 1 ≠ 14 := by omega
    have hadd : addBit v s = { s with decoder := { s.decoder with
        code := s.decoder.code <<< 1 + v.toUInt32, prevData := v, codeBit := s.decoder.codeBit + 1 } } :=
      if_neg hmore
    rw [hadd, settle_none (by exact hs), answer_none (by exact hs)]
    refine ⟨_, .bit v' vs cs (Nat.succ_ne_zero _) ?_ ?_ hlast hcode hcs rfl rfl, rfl, fun _ => hhold⟩
    · dsimp only
      omega
    · intro hone
      obtain ⟨hv, hv'⟩ := hfirst (Nat.succ.inj hone)
      exact ⟨hv, Option.some.inj hv'⟩

theorem sampleStep_take (hlast : s.decoder.lastBit = false)
    (hjudge : judge (isHigh w) (levelLen w) s.decoder = .take) :
    sampleStep now w s = (true, addBit (isHigh w) s) := by
  rw [sampleStep, hlast, hjudge]
  rfl

theorem sampleStep_skip (hlast : s.decoder.lastBit = false)
    (hjudge : judge (isHigh w) (levelLen w) s.decoder = .skip s.decoder) :
    sampleStep now w s = (true, s) := by
  rw [sampleStep, hlast, hjudge]
  rfl

section Judge

variable {data : Bool} {time : ℕ} {d : Decoder}

theorem judge_edge (hstarted : d.codeBit ≠ 0) (hmin : minBitTime < time) (hmax : time < maxBitTime)
    (hdata : data ≠ d.prevData) : judge data time d = .skip d := by
  rw [judge, if_neg hstarted]
  by_cases hone : d.codeBit = 1
  · rw [if_pos hone, if_neg (by omega), if_pos hdata]
  · rw [if_neg hone, if_pos ⟨hmax, hmin, hdata⟩]

theorem judge_same (hstarted : d.codeBit ≠ 0) (hmin : minBitTime < time) (hmax : time < maxBitTime)
    (hfirst : d.codeBit = 1 → d.prevData = true) : judge d.prevData time d = .take := by
  rw [judge, if_neg hstarted]
  by_cases hone : d.codeBit = 1
  · rw [if_pos hone, if_neg (by omega), if_neg fun h => h rfl, hfirst hone]
    rfl
  · rw [if_neg hone, if_neg fun h => h.2.2 rfl, if_pos ⟨hmax, hmin, rfl⟩]

theorem judge_double (hstarted : d.codeBit ≠ 0) (hlater : d.codeBit ≠ 1) (hmin : 2 * minBitTime < time)
    (hmax : time < 2 * maxBitTime) (hdata : data ≠ d.prevData) : judge data time d = .take := by
  have hranges : maxBitTime ≤ 2 * minBitTime := by decide
  rw [judge, if_neg hstarted, if_neg hlater, if_neg (by omega), if_neg (by omega),
    if_pos ⟨hmax, hmin, hdata⟩]

end Judge

theorem IsSample.single {v : Bool} (hw : IsSample (.of (.half v)) w) :
    isHigh w = v ∧ minBitTime < levelLen w ∧ levelLen w < maxBitTime := by
  have htime := hw.time rfl
  change 1 * _ < _ ∧ _ < 1 * _ at htime
  rw [Nat.one_mul, Nat.one_mul] at htime
  exact ⟨hw.level, htime⟩

def Goes (now w : UInt32) (s : Pass) (rs : List Run) (exp : List (UInt32 × Bool)) : Prop :=
  (sampleStep now w s).1 = true ∧ ∃ segs exp', runs segs = rs ∧
    At (settle (sampleStep now w s).2) segs exp' ∧ exp = answer (sampleStep now w s).2 ++ exp' ∧
    ((sampleStep now w s).2.rcvCode = noCode → (sampleStep now w s).2.isHold = false)

theorem goes_take {v : Bool} {vs : List Bool} {cs : List UInt32} (hs : s.rcvCode = noCode)
    (hhold : s.isHold = false) (hlast : s.decoder.lastBit = false)
    (hjudge : judge (isHigh w) (levelLen w) s.decoder = .take) (hlevel : isHigh w = v)
    (hbit : s.decoder.codeBit + (vs.length + 1) = 14)
    (hfirst : s.decoder.codeBit = 0 → v = true ∧ vs.head? = some true)
    (hcode : finish s.decoder.code (v :: vs) ≠ noCode) (hcs : ∀ c ∈ cs, IsCode c)
    (hexp : exp = marked (some s.decoder.prevCode) (finish s.decoder.code (v :: vs) :: cs)) :
    Goes now w s (runs (.half (!v) :: (halves vs ++ line cs))) exp := by
  obtain ⟨exp', hat, hmarked, hflag⟩ := addBit_at v vs cs hs hhold hlast hbit hfirst hcode hcs
  rw [Goes, sampleStep_take hlast hjudge, hlevel]
  exact ⟨rfl, _, exp', rfl, hat, hexp.trans hmarked, hflag⟩

theorem sampleStep_at (now : UInt32) {r : Run} {rs : List Run} (hs : s.rcvCode = noCode)
    (hhold : s.isHold = false) (h : At s.decoder segs exp) (hruns : runs segs = r :: rs)
    (hw : IsSample r w) : Goes now w s rs exp := by
  cases h with
  | ended segs_eq exp_eq =>
    rw [segs_eq] at hruns
    cases hruns
  | last cs bit code last codes segs_eq exp_eq =>
    obtain ⟨ys, hline⟩ := line_head cs
    have hedge : runs (.half false :: .idle :: ys) = _ := runs_edge (by decide)
    rw [segs_eq, hline, hedge, ← hline] at hruns
    obtain ⟨rfl, rfl⟩ := List.cons.inj hruns
    have hstep : sampleStep now w s = (true, { s with decoder := { s.decoder with lastBit := false } }) := by
      rw [sampleStep, last]
      rfl
    rw [Goes, hstep, settle_none (by exact hs), answer_none (by exact hs)]
    exact ⟨rfl, line cs, exp, rfl, .idle [] cs (.inl rfl) bit code rfl codes rfl exp_eq, rfl,
      fun _ => hhold⟩
  | idle lead cs lead_eq bit code last codes segs_eq exp_eq =>
    have hjudge (hhigh : isHigh w = true) : judge (isHigh w) (levelLen w) s.decoder = .take := by
      rw [judge, if_pos bit, hhigh]
      rfl
    cases cs with
    | nil =>
      obtain ⟨r', hr', hlevel⟩ := runs_end lead_eq
      rw [segs_eq] at hruns
      obtain ⟨rfl, rfl⟩ := List.cons.inj (hr'.symm.trans hruns)
      have hhigh : isHigh w = true := hw.level.trans hlevel
      have hmore : s.decoder.codeBit + 1 ≠ 14 := by omega
      have hadd : (addBit (isHigh w) s).rcvCode = noCode ∧ (addBit (isHigh w) s).isHold = false := by
        rw [addBit, if_neg hmore]
        exact ⟨hs, hhold⟩
      rw [Goes, sampleStep_take last (hjudge hhigh), answer_none hadd.1]
      exact ⟨rfl, [], [], rfl, .ended rfl rfl, exp_eq, fun _ => hadd.2⟩
    | cons c cs =>
      have hc : IsCode c := codes c List.mem_cons_self
      obtain ⟨vs, hvs, hlen⟩ := hc.bits_eq
      have hcode : finish s.decoder.code (true :: true :: vs) = c := by
        rw [code, ← hvs, finish_bits hc.lt]
      have hline : line (c :: cs) = .idle :: .half true :: .half false :: (halves (true :: vs) ++ line cs) := by
        rw [line, hvs]
        rfl
      obtain ⟨r', hr', hlevel⟩ := runs_start (halves (true :: vs) ++ line cs) lead_eq
      rw [segs_eq, hline] at hruns
      obtain ⟨rfl, rfl⟩ := List.cons.inj (hr'.symm.trans hruns)
      have hhigh : isHigh w = true := hw.level.trans hlevel
      have hbit : s.decoder.codeBit + ((true :: vs).length + 1) = 14 := by
        rw [List.length_cons, hlen, bit]
      exact goes_take hs hhold last (hjudge hhigh) hhigh hbit (fun _ => ⟨rfl, rfl⟩)
        (by rw [hcode]; exact hc.ne_noCode) (fun c hc => codes c (List.mem_cons_of_mem _ hc))
        (by rw [hcode]; exact exp_eq)
  | bit v vs cs started bit first last code codes segs_eq exp_eq =>
    by_cases hv : v = s.decoder.prevData
    · -- the second half of the last bit stands alone
      have hedge : runs (.half (!s.decoder.prevData) :: (halves (v :: vs) ++ line cs)) =
          .of (.half (!s.decoder.prevData)) :: runs (halves (v :: vs) ++ line cs) :=
        runs_edge (by rw [hv]; exact Bool.not_ne_self _)
      rw [segs_eq, hedge] at hruns
      obtain ⟨rfl, rfl⟩ := List.cons.inj hruns
      obtain ⟨hlevel, hmin, hmax⟩ := hw.single
      have hjudge : judge (isHigh w) (levelLen w) s.decoder = .skip s.decoder :=
        judge_edge started hmin hmax (by rw [hlevel]; exact Bool.not_ne_self _)
      rw [Goes, sampleStep_skip last hjudge, settle_none hs, answer_none hs]
      rw [hv] at code exp_eq ⊢
      exact ⟨rfl, _, exp, rfl, .mid vs cs started bit (fun h => (first h).1) last code codes rfl exp_eq, rfl,
        fun _ => hhold⟩
    · -- it has the level of the next bit, and one run holds both
      have hnot : v = !s.decoder.prevData := Bool.eq_not.mpr hv
      have hedge : runs (.half v :: .half (!v) :: (halves vs ++ line cs)) =
          .of (.half v) :: runs (.half (!v) :: (halves vs ++ line cs)) :=
        runs_edge (Bool.not_ne_self v).symm
      have hjoin : runs (.half (!s.decoder.prevData) :: (halves (v :: vs) ++ line cs)) = _ :=
        runs_join hnot.symm hedge
      rw [segs_eq, hjoin] at hruns
      obtain ⟨rfl, rfl⟩ := List.cons.inj hruns
      have hlevel : isHigh w = v := hw.level
      obtain ⟨hmin, hmax⟩ := hw.time rfl
      have hlater : s.decoder.codeBit ≠ 1 := by
        intro hone
        obtain ⟨hprev, htrue⟩ := first hone
        exact hv (htrue.trans hprev.symm)
      have hjudge : judge (isHigh w) (levelLen w) s.decoder = .take :=
        judge_double started hlater hmin hmax (by rw [hlevel]; exact hv)
      exact goes_take hs hhold last hjudge hlevel bit (fun h => absurd h started) code codes exp_eq
  | mid vs cs started bit first last code codes segs_eq exp_eq =>
    have hedge : runs (.half s.decoder.prevData :: .half (!s.decoder.prevData) :: (halves vs ++ line cs)) =
        .of (.half s.decoder.prevData) :: runs (.half (!s.decoder.prevData) :: (halves vs ++ line cs)) :=
      runs_edge (Bool.not_ne_self _).symm
    have hsegs : halves (s.decoder.prevData :: vs) ++ line cs =
      .half s.decoder.prevData :: .half (!s.decoder.prevData) :: (halves vs ++ line cs) := rfl
    rw [segs_eq, hsegs, hedge] at hruns
    obtain ⟨rfl, rfl⟩ := List.cons.inj hruns
    obtain ⟨hlevel, hmin, hmax⟩ := hw.single
    have hjudge : judge (isHigh w) (levelLen w) s.decoder = .take := by
      rw [hlevel]
      exact judge_same started hmin hmax first
    exact goes_take hs hhold last hjudge hlevel bit (fun h => absurd h started) code codes exp_eq

theorem judge_skip {data : Bool} {time : ℕ} {d d' : Decoder} (h : judge data time d = .skip d') :
    d'.errTime = d.errTime := by
  unfold judge at h
  split_ifs at h <;> (cases h; rfl)

theorem sampleStep_errTime (h : (sampleStep now w s).1 = true) :
    (sampleStep now w s).2.decoder.errTime = s.decoder.errTime := by
  unfold sampleStep at h ⊢
  split
  · rfl
  · next hlast =>
    rw [if_neg hlast] at h
    cases hjudge : judge (isHigh w) (levelLen w) s.decoder with
    | skip d => exact judge_skip hjudge
    | take =>
      change (addBit _ s).decoder.errTime = _
      unfold addBit
      dsimp only
      split <;> rfl
    | fail =>
      rw [hjudge] at h
      cases h

theorem settle_errTime : (settle s).errTime = s.decoder.errTime := by
  unfold settle
  split <;> rfl

theorem At.exp_nil {d : Decoder} (h : At d segs exp) (hlen : (runs segs).length ≤ 1) : exp = [] := by
  have hcode (c : UInt32) (cs : List UInt32) (hc : IsCode c) : 2 ≤ (runs (line (c :: cs))).length := by
    obtain ⟨vs, hvs, -⟩ := hc.bits_eq
    rw [line, hvs]
    exact (two_runs (by decide : (Segment.half true).level ≠ (Segment.half false).level)).trans
      (length_runs_cons _ _)
  have hline (cs : List UInt32) (hcs : ∀ c ∈ cs, IsCode c) (hle : (runs (line cs)).length ≤ 1) :
      cs = [] := by
    cases cs with
    | nil => rfl
    | cons c cs => exact absurd ((hcode c cs (hcs c List.mem_cons_self)).trans hle) (by decide)
  cases h with
  | ended segs_eq exp_eq => exact exp_eq
  | idle lead cs lead_eq bit code last codes segs_eq exp_eq =>
    have hle : (runs (line cs)).length ≤ 1 := by
      rw [segs_eq] at hlen
      rcases lead_eq with rfl | rfl
      · exact hlen
      · exact (length_runs_cons _ _).trans hlen
    rw [exp_eq, hline cs codes hle]
    rfl
  | last cs bit code last codes segs_eq exp_eq =>
    rw [segs_eq] at hlen
    rw [exp_eq, hline cs codes ((length_runs_cons _ _).trans hlen)]
    rfl
  | bit v vs cs started bit first last code codes segs_eq exp_eq =>
    have htwo : 2 ≤ (runs (halves (v :: vs) ++ line cs)).length :=
      two_runs (Bool.not_ne_self v).symm
    rw [segs_eq] at hlen
    exact absurd ((htwo.trans (length_runs_cons _ _)).trans hlen) (by decide)
  | mid vs cs started bit first last code codes segs_eq exp_eq =>
    have htwo : 2 ≤ (runs (halves (d.prevData :: vs) ++ line cs)).length :=
      two_runs (Bool.not_ne_self _).symm
    rw [segs_eq] at hlen
    exact absurd (htwo.trans hlen) (by decide)

theorem scan_at (now : UInt32) {ws later : List UInt32} (hs : s.rcvCode = noCode) (hhold : s.isHold = false)
    (herr : s.decoder.errTime = 0) (h : At s.decoder segs exp)
    (hws : List.Forall₂ IsSample (runs segs) (ws ++ later)) :
    ∃ segs' exp', List.Forall₂ IsSample (runs segs') ((scan now ws s).1 ++ later) ∧
      At (settle (scan now ws s).2) segs' exp' ∧ (settle (scan now ws s).2).errTime = 0 ∧
      exp = answer (scan now ws s).2 ++ exp' ∧
      ((scan now ws s).2.rcvCode = noCode → (scan now ws s).1 = []) := by
  induction ws generalizing s segs exp with
  | nil =>
    refine ⟨segs, exp, hws, ?_, settle_errTime.trans herr, ?_, fun _ => rfl⟩
    · change At (settle s) segs exp
      rw [settle_none hs]
      exact h
    · change exp = answer s ++ exp
      rw [answer_none hs, List.nil_append]
  | cons w ws ih =>
    obtain ⟨r, rs, hw, hrest, hruns⟩ := List.forall₂_cons_right_iff.mp hws
    obtain ⟨hgoes, segs', exp', hruns', hat, hexp, hflag⟩ :=
      sampleStep_at now hs hhold h hruns hw
    rw [scan, if_pos hs, if_pos hgoes]
    have herr' := (sampleStep_errTime hgoes).trans herr
    rw [← hruns'] at hrest
    by_cases hcode : (sampleStep now w s).2.rcvCode = noCode
    · rw [settle_none hcode] at hat
      rw [answer_none hcode, List.nil_append] at hexp
      rw [hexp]
      exact ih hcode (hflag hcode) herr' hat hrest
    · rw [scan_of_code hcode]
      exact ⟨segs', exp', hrest, hat, settle_errTime.trans herr', hexp, fun hnone => absurd hnone hcode⟩

end Steps

section Receiving

variable {r : Receiver} {later rest : List UInt32} {exp : List (UInt32 × Bool)}

def Awaits (r : Receiver) (later : List UInt32) (exp : List (UInt32 × Bool)) : Prop :=
  r.decoder.errTime = 0 ∧
    ∃ segs, List.Forall₂ IsSample (runs segs) (r.buffer.contents ++ later) ∧ At r.decoder segs exp

theorem store_awaits {len highLow : UInt32} (h : Awaits r (sample len highLow :: later) exp)
    (hpending : r.buffer.pending < 255) : Awaits (step (.store len highLow) r) later exp := by
  obtain ⟨herr, segs, hws, hat⟩ := h
  refine ⟨herr, segs, ?_, hat⟩
  change List.Forall₂ IsSample (runs segs) ((storeIrcbuffer len highLow r.buffer).contents ++ later)
  rw [contents_store hpending, List.append_assoc]
  exact hws

theorem call_awaits (now : UInt32) (h : Awaits r later exp) :
    ∃ exp', Awaits (step (.call now) r) later exp' ∧
      (step (.call now) r).reports ++ exp' = r.reports ++ exp ∧
      ((step (.call now) r).reports = r.reports → (step (.call now) r).buffer.contents = []) := by
  obtain ⟨herr, segs, hws, hat⟩ := h
  have hlen : r.buffer.contents.length ≤ 256 := by
    rw [Buffer.length_contents]
    exact (r.buffer.stop - r.buffer.start).isLt.le
  obtain ⟨hcontents, hpass⟩ := loop_eq_scan now (s := ⟨r.decoder, noCode, false⟩) hlen
  obtain ⟨segs', exp', hws', hat', herr', hexp, hleft⟩ :=
    scan_at (s := ⟨r.decoder, noCode, false⟩) now rfl rfl herr hat hws
  rw [← hpass] at hat' herr' hexp hleft
  rw [← hcontents] at hws' hleft
  have hread : readRc5 now r.buffer false r.decoder = _ := if_neg fun hne => hne herr
  rw [step, hread]
  refine ⟨exp', ⟨herr', segs', hws', hat'⟩, ?_, fun hquiet => hleft ?_⟩
  · change r.reports ++ answer _ ++ exp' = _
    rw [hexp, List.append_assoc]
  · have hnil : answer (loop now 256 r.buffer ⟨r.decoder, noCode, false⟩).2 = [] :=
      List.append_right_eq_self.mp hquiet
    by_contra hne
    rw [answer, if_neg hne] at hnil
    cases hnil

theorem run_awaits {acts : List Act} (h : Awaits r (stored acts ++ rest) exp)
    (hok : Meets step Fits r acts) :
    ∃ exp', Awaits (run step r acts) rest exp' ∧ (run step r acts).reports ++ exp' = r.reports ++ exp := by
  induction acts generalizing r exp with
  | nil => exact ⟨exp, h, rfl⟩
  | cons a acts ih =>
    cases a with
    | store len highLow => exact ih (store_awaits h hok.1) hok.2
    | call now =>
      obtain ⟨exp', hnext, hreports, -⟩ := call_awaits now h
      obtain ⟨exp'', hlast, hrest⟩ := ih hnext hok.2
      exact ⟨exp'', hlast, hrest.trans hreports⟩

theorem run_calls {calls : List UInt32} (h : Awaits r rest exp) (hrest : rest.length ≤ 1)
    (hcalls : exp.length ≤ calls.length) :
    (run step r (calls.map Act.call)).reports = r.reports ++ exp := by
  induction calls generalizing r exp with
  | nil =>
    have hnil : exp = [] := List.length_eq_zero_iff.mp (Nat.le_zero.mp hcalls)
    rw [hnil, List.append_nil]
    rfl
  | cons now calls ih =>
    obtain ⟨exp', hnext, hreports, hleft⟩ := call_awaits now h
    have hle : exp'.length ≤ calls.length := by
      have hlen := congrArg List.length hreports
      rw [List.length_append, List.length_append] at hlen
      rw [List.length_cons] at hcalls
      by_cases hsame : (step (.call now) r).reports = r.reports
      · obtain ⟨-, segs, hws, hat⟩ := hnext
        rw [hleft hsame, List.nil_append] at hws
        rw [hat.exp_nil (hws.length_eq.trans_le hrest)]
        exact Nat.zero_le _
      · have hmore : r.reports.length < (step (.call now) r).reports.length := by
          refine lt_of_le_of_ne (List.length_append.symm ▸ Nat.le_add_right _ _) fun heq => hsame ?_
          exact (List.prefix_append _ _).eq_of_length heq |>.symm
        omega
    exact (ih hnext hle).trans hreports

theorem awaits_line {codes samples : List UInt32} {b : Cbuffer} (hcodes : ∀ c ∈ codes, IsCode c)
    (hsamples : List.Forall₂ IsSample (runs (line codes)) samples) (hb : b.start = b.stop) :
    Awaits ⟨b, poweron, []⟩ samples (marked none codes) := by
  refine ⟨rfl, line codes, ?_, .idle [] codes (.inl rfl) rfl rfl rfl hcodes rfl ?_⟩
  · rw [Buffer.contents_eq_nil_iff.mpr hb]
    exact hsamples
  · cases codes with
    | nil => rfl
    | cons c cs =>
      have hne : (some 0 == some c) = false := by
        refine beq_eq_false_iff_ne.mpr fun heq => ?_
        have hfirst := (hcodes c List.mem_cons_self).first
        rw [← Option.some.inj heq] at hfirst
        exact absurd hfirst (by decide)
      rw [marked, marked]
      change (c, false) :: _ = (c, some 0 == some c) :: _
      rw [hne]

/-- However the samples reach the buffer, the calls return the codes, marked where they repeat. -/
theorem rc5_codes_decoded {codes samples : List UInt32} (hcodes : ∀ c ∈ codes, IsCode c)
    (hsamples : List.Forall₂ IsSample (runs (line codes)) samples) {b : Cbuffer} (hb : b.start = b.stop)
    {acts : List Act} (hacts : Meets step Fits ⟨b, poweron, []⟩ acts) (hstored : stored acts <+: samples) :
    (run step ⟨b, poweron, []⟩ acts).reports <+: marked none codes ∧
      ∀ calls : List UInt32, samples.length ≤ (stored acts).length + 1 → codes.length ≤ calls.length →
        (run step ⟨b, poweron, []⟩ (acts ++ calls.map Act.call)).reports = marked none codes := by
  obtain ⟨rest, hrest⟩ := hstored
  have hstart := awaits_line hcodes hsamples hb
  rw [← hrest] at hstart
  obtain ⟨exp, hlast, hreports⟩ := run_awaits hstart hacts
  rw [List.nil_append] at hreports
  refine ⟨⟨exp, hreports⟩, fun calls hall hlen => ?_⟩
  have hone : rest.length ≤ 1 := by
    rw [← hrest, List.length_append] at hall
    omega
  have hmarked (prev : Option UInt32) (cs : List UInt32) : (marked prev cs).length = cs.length := by
    induction cs generalizing prev with
    | nil => rfl
    | cons c cs ih => exact congrArg Nat.succ (ih (some c))
  have hexp : exp.length ≤ calls.length := by
    have hsum := congrArg List.length hreports
    rw [List.length_append, hmarked] at hsum
    omega
  rw [run_append, run_calls hlast hone hexp]
  exact hreports

def nominal (r : Run) : UInt32 := UInt32.ofNat (if r.idle then 1000000 else r.halves * (889 * smSystemHz))

def nominalStores (codes : List UInt32) : List Act :=
  (runs (line codes)).map fun r => .store (nominal r) r.level.toUInt32

theorem repeated_code_held :
    (run step ⟨⟨fun _ => 0, 250, 250⟩, poweron, []⟩
      (nominalStores [0x3035, 0x3035, 0x382a] ++ [5, 6, 7].map Act.call)).reports =
        [(0x3035, false), (0x3035, true), (0x382a, false)] := by
  have hcodes : ∀ c ∈ [(0x3035 : UInt32), 0x3035, 0x382a], IsCode c := by
    simp only [List.forall_mem_cons]
    refine ⟨⟨by decide, by decide, by decide⟩, ⟨by decide, by decide, by decide⟩,
      ⟨by decide, by decide, by decide⟩, fun c hc => absurd hc List.not_mem_nil⟩
  have hsamples : List.Forall₂ IsSample (runs (line [0x3035, 0x3035, 0x382a]))
      (stored (nominalStores [0x3035, 0x3035, 0x382a])) := by decide +kernel
  exact (rc5_codes_decoded hcodes hsamples rfl (by decide +kernel) List.prefix_rfl).2 [5, 6, 7]
    (Nat.le_succ _) (by decide)

end Receiving

end SynaBoot.Rc5Waveform
