import NemoRL.Foundations.Contests
import NemoRL.Foundations.KeyedStore

namespace NemoRL.XToken

open Foundations Foundations.Contests

variable {K : Type} {n k : ℕ}

inductive ExactMapError (Path : Type)
  /-- `Projection matrix file not found`. -/
  | fileNotFound (path : Path)
  /-- `gold_loss requires the dense projection-matrix format`. -/
  | unsupportedFormat (path : Path)
  /-- A column that the arrays do not have. -/
  | index
  /-- A tensor of a negative size. -/
  | negativeSize
  deriving DecidableEq, Repr

section Model

/-- The dense arrays of a projection file. -/
structure TopkProjection (K : Type) where
  vStudent : ℕ
  topK : ℕ
  indices : Fin vStudent → Fin topK → ℤ
  likelihoods : Fin vStudent → Fin topK → K

/-- `torch.sort(values, dim=-1, descending=True)`, which orders equal values as it likes. -/
structure RowSort [Preorder K] (values : Fin n → Fin k → K) where
  order : Fin n → Equiv.Perm (Fin k)
  descending : ∀ s, Antitone fun j ↦ values s (order s j)

def column {β Path : Type} (table : Fin n → Fin k → β) (j : ℕ) :
    Except (ExactMapError Path) (Fin n → β) :=
  if h : j < k then .ok fun s ↦ table s ⟨j, h⟩ else .error .index

/-- One entry of `s_vec`, `t_vec` and `prob_vec`. -/
structure Candidate (K : Type) where
  student : ℕ
  teacher : ℤ
  prob : K
  deriving DecidableEq, Repr

structure ExactTokenMap where
  commonStudent : List ℕ
  commonTeacher : List ℕ
  uncommonStudent : List ℕ
  uncommonTeacher : List ℕ
  deriving DecidableEq, Repr

variable [LinearOrder K]

def maxProbPerT (candidates : List (Candidate K)) : ℤ → WithBot K :=
  scatterReduce max (fun _ ↦ ⊥) (candidates.map fun c ↦ (c.teacher, (c.prob : WithBot K)))

def eligible (xtokenLoss : Bool) (candidates : List (Candidate K)) (c : Candidate K) : Bool :=
  !xtokenLoss || decide (maxProbPerT candidates c.teacher ≤ c.prob)

def minSPerT (vStudent : ℕ) (xtokenLoss : Bool) (candidates : List (Candidate K)) : ℤ → ℕ :=
  scatterReduce min (fun _ ↦ vStudent) (candidates.map fun c ↦
    (c.teacher, if eligible xtokenLoss candidates c then c.student else vStudent))

def winners (vStudent : ℕ) (xtokenLoss : Bool) (candidates : List (Candidate K)) :
    List (Candidate K) :=
  candidates.filter fun c ↦ eligible xtokenLoss candidates c &&
    decide (c.student = minSPerT vStudent xtokenLoss candidates c.teacher)

/-- The pairs in the order of their students, and the ids that no pair has. -/
def partitionVocab (vStudent vTeacher : ℕ) (won : List (Candidate K)) : ExactTokenMap :=
  let common := won.insertionSort fun c d ↦ c.student ≤ d.student
  let commonStudent := common.map Candidate.student
  let commonTeacher := common.map fun c ↦ c.teacher.toNat
  ⟨commonStudent, commonTeacher,
    (List.range vStudent).filter fun s ↦ !decide (s ∈ commonStudent),
    (List.range vTeacher).filter fun t ↦ !decide (t ∈ commonTeacher)⟩

variable [One K] [OfScientific K] {Path : Type}

def hasExactMap (p : TopkProjection K) (firstValues : Fin p.vStudent → K) (xtokenLoss : Bool) :
    Except (ExactMapError Path) (Fin p.vStudent → Bool) :=
  if xtokenLoss then
    .ok fun s ↦ decide (0.6 ≤ firstValues s)
  else do
    let second ← column p.indices 1
    .ok fun s ↦ decide (firstValues s = 1) && decide (second s = -1)

def exactTokenMap (p : TopkProjection K) (sort : RowSort p.likelihoods) (xtokenLoss : Bool)
    (teacherVocabSize : ℤ) : Except (ExactMapError Path) ExactTokenMap := do
  let firstValues ← column (fun s j ↦ p.likelihoods s (sort.order s j)) 0
  let exact ← hasExactMap p firstValues xtokenLoss
  let sCandidates := (List.finRange p.vStudent).filter exact
  if sCandidates = [] then
    if teacherVocabSize < 0 then
      .error .negativeSize
    else
      .ok ⟨[], [], List.range p.vStudent, List.range teacherVocabSize.toNat⟩
  else do
    let firstIndices ← column (fun s j ↦ p.indices s (sort.order s j)) 0
    let candidates := sCandidates.map fun s ↦
      (⟨s.val, firstIndices s, firstValues s⟩ : Candidate K)
    let inBounds := candidates.filter fun c ↦
      decide (0 ≤ c.teacher) && decide (c.teacher < teacherVocabSize)
    if teacherVocabSize < 0 then
      .error .negativeSize
    else
      .ok (partitionVocab p.vStudent teacherVocabSize.toNat
        (winners p.vStudent xtokenLoss inBounds))

/-- What `torch.load` finds at a path. -/
inductive ProjectionFile (K : Type)
  | dense (p : TopkProjection K)
  | other

structure Caches (Path Device K : Type) where
  topk : KeyedStore (Path × Device) (TopkProjection K)
  exact : KeyedStore (Path × Device × Bool × ℤ) ExactTokenMap

variable {Device : Type} [DecidableEq Path] [DecidableEq Device]

def getTopkProjection (files : Path → Option (ProjectionFile K)) (path : Path) (device : Device)
    (caches : Caches Path Device K) :
    Except (ExactMapError Path) (TopkProjection K) × Caches Path Device K :=
  match caches.topk (path, device) with
  | some cached => (.ok cached, caches)
  | none =>
    match files path with
    | none => (.error (.fileNotFound path), caches)
    | some .other => (.error (.unsupportedFormat path), caches)
    | some (.dense p) => (.ok p, { caches with topk := caches.topk.write (path, device) p })

def buildExactTokenMap (files : Path → Option (ProjectionFile K))
    (sort : ∀ p : TopkProjection K, RowSort p.likelihoods) (path : Path) (device : Device)
    (xtokenLoss : Bool) (teacherVocabSize : ℤ) (caches : Caches Path Device K) :
    Except (ExactMapError Path) ExactTokenMap × Caches Path Device K :=
  match caches.exact (path, device, xtokenLoss, teacherVocabSize) with
  | some cached => (.ok cached, caches)
  | none =>
    match getTopkProjection files path device caches with
    | (.error e, caches) => (.error e, caches)
    | (.ok p, caches) =>
      match exactTokenMap p (sort p) xtokenLoss teacherVocabSize with
      | .error e => (.error e, caches)
      | .ok map => (.ok map, { caches with
          exact := caches.exact.write (path, device, xtokenLoss, teacherVocabSize) map })

end Model

section ClaimedTeachers

variable {β : Type}

def entryAt (table : Fin n → Fin k → β) (s : Fin n) (j : ℕ) : Option β :=
  if h : j < k then some (table s ⟨j, h⟩) else none

variable [LinearOrder K] [One K] [OfScientific K] (p : TopkProjection K)
  (sort : RowSort p.likelihoods) (xtokenLoss : Bool) (teacherVocabSize : ℤ)

/-- The teacher id that a row has an exact map to, with its weight. -/
def claimOf (s : Fin p.vStudent) : Option (Candidate K) :=
  (entryAt (fun s j ↦ p.likelihoods s (sort.order s j)) s 0).bind fun prob ↦
    (entryAt (fun s j ↦ p.indices s (sort.order s j)) s 0).bind fun teacher ↦
      if (xtokenLoss = true → 0.6 ≤ prob) ∧
          (xtokenLoss = false → prob = 1 ∧ entryAt p.indices s 1 = some (-1)) ∧
          0 ≤ teacher ∧ teacher < teacherVocabSize then
        some ⟨s, teacher, prob⟩
      else none

def claims : List (Candidate K) :=
  (List.finRange p.vStudent).filterMap (claimOf p sort xtokenLoss teacherVocabSize)

def Readable : Prop := 0 < p.topK ∧ (xtokenLoss = false → 1 < p.topK)

instance : Decidable (Readable p xtokenLoss) := inferInstanceAs (Decidable (_ ∧ _))

variable {p sort xtokenLoss teacherVocabSize} {c d : Candidate K} {s : Fin p.vStudent}

theorem claimOf_eq_some_iff : claimOf p sort xtokenLoss teacherVocabSize s = some c ↔
    c.student = s ∧
      entryAt (fun s j ↦ p.likelihoods s (sort.order s j)) s 0 = some c.prob ∧
      entryAt (fun s j ↦ p.indices s (sort.order s j)) s 0 = some c.teacher ∧
      (xtokenLoss = true → 0.6 ≤ c.prob) ∧
      (xtokenLoss = false → c.prob = 1 ∧ entryAt p.indices s 1 = some (-1)) ∧
      0 ≤ c.teacher ∧ c.teacher < teacherVocabSize := by
  rw [claimOf]
  constructor
  · intro h
    obtain ⟨prob, hprob, h⟩ := Option.bind_eq_some_iff.mp h
    obtain ⟨teacher, hteacher, h⟩ := Option.bind_eq_some_iff.mp h
    split_ifs at h with hcond
    obtain rfl := Option.some.inj h
    exact ⟨rfl, hprob, hteacher, hcond⟩
  · rintro ⟨hs, hprob, hteacher, hcond⟩
    rw [hprob, hteacher, Option.bind_some, Option.bind_some, if_pos hcond, ← hs]

theorem mem_claims : c ∈ claims p sort xtokenLoss teacherVocabSize ↔
    ∃ s, claimOf p sort xtokenLoss teacherVocabSize s = some c := by
  simp [claims]

theorem entryAt_of_lt {table : Fin n → Fin k → β} {j : ℕ} (h : j < k) (s : Fin n) :
    entryAt table s j = some (table s ⟨j, h⟩) := dif_pos h

theorem column_of_lt {Path : Type} {table : Fin n → Fin k → β} {j : ℕ} (h : j < k) :
    (column table j : Except (ExactMapError Path) _) = .ok fun s ↦ table s ⟨j, h⟩ := dif_pos h

theorem column_of_le {Path : Type} {table : Fin n → Fin k → β} {j : ℕ} (h : k ≤ j) :
    (column table j : Except (ExactMapError Path) _) = .error .index := dif_neg (Nat.not_lt.mpr h)

theorem hasExactMap_of_readable {Path : Type} (h : Readable p xtokenLoss)
    (firstValues : Fin p.vStudent → K) :
    (hasExactMap p firstValues xtokenLoss : Except (ExactMapError Path) _) =
      .ok fun s ↦ decide ((xtokenLoss = true → 0.6 ≤ firstValues s) ∧
        (xtokenLoss = false → firstValues s = 1 ∧ entryAt p.indices s 1 = some (-1))) := by
  cases xtokenLoss with
  | true => simp [hasExactMap]
  | false =>
    have hk := h.2 rfl
    rw [hasExactMap, if_neg Bool.false_ne_true, column_of_lt hk]
    simp [entryAt_of_lt hk, bind, Except.bind]

theorem hasExactMap_of_not_readable {Path : Type} (h : ¬ Readable p xtokenLoss)
    (hk : 0 < p.topK) (firstValues : Fin p.vStudent → K) :
    (hasExactMap p firstValues xtokenLoss : Except (ExactMapError Path) _) = .error .index := by
  cases xtokenLoss with
  | true => exact absurd ⟨hk, fun hx ↦ absurd hx.symm Bool.false_ne_true⟩ h
  | false =>
    have hle : p.topK ≤ 1 := Nat.not_lt.mp fun hlt ↦ h ⟨hk, fun _ ↦ hlt⟩
    rw [hasExactMap, if_neg Bool.false_ne_true, column_of_le hle]
    rfl

theorem claims_eq (hk : 0 < p.topK) :
    claims p sort xtokenLoss teacherVocabSize =
      (((List.finRange p.vStudent).filter fun s ↦
          decide ((xtokenLoss = true → 0.6 ≤ p.likelihoods s (sort.order s ⟨0, hk⟩)) ∧
            (xtokenLoss = false → p.likelihoods s (sort.order s ⟨0, hk⟩) = 1 ∧
              entryAt p.indices s 1 = some (-1)))).map fun s ↦
        (⟨s.val, p.indices s (sort.order s ⟨0, hk⟩), p.likelihoods s (sort.order s ⟨0, hk⟩)⟩ :
          Candidate K)).filter fun c ↦
        decide (0 ≤ c.teacher) && decide (c.teacher < teacherVocabSize) := by
  rw [claims]
  induction List.finRange p.vStudent with
  | nil => rfl
  | cons s l ih =>
    rw [List.filterMap_cons, ih, claimOf, entryAt_of_lt hk, entryAt_of_lt hk, Option.bind_some,
      Option.bind_some, List.filter_cons]
    by_cases hexact : (xtokenLoss = true → 0.6 ≤ p.likelihoods s (sort.order s ⟨0, hk⟩)) ∧
        (xtokenLoss = false → p.likelihoods s (sort.order s ⟨0, hk⟩) = 1 ∧
          entryAt p.indices s 1 = some (-1))
    · rw [if_pos (decide_eq_true hexact), List.map_cons, List.filter_cons]
      by_cases hrange : 0 ≤ p.indices s (sort.order s ⟨0, hk⟩) ∧
          p.indices s (sort.order s ⟨0, hk⟩) < teacherVocabSize
      · rw [if_pos ⟨hexact.1, hexact.2, hrange⟩]
        simp [hrange]
      · rw [if_neg fun h ↦ hrange h.2.2]
        have hout : 0 ≤ p.indices s (sort.order s ⟨0, hk⟩) →
            teacherVocabSize ≤ p.indices s (sort.order s ⟨0, hk⟩) :=
          fun hzero ↦ not_lt.mp fun hlt ↦ hrange ⟨hzero, hlt⟩
        simpa using hout
    · rw [if_neg fun h ↦ hexact ⟨h.1, h.2.1⟩, if_neg fun h ↦ hexact (of_decide_eq_true h)]

theorem exactTokenMap_eq {Path : Type} :
    (exactTokenMap p sort xtokenLoss teacherVocabSize : Except (ExactMapError Path) _) =
      if Readable p xtokenLoss then
        if teacherVocabSize < 0 then .error .negativeSize
        else .ok (partitionVocab p.vStudent teacherVocabSize.toNat
          (winners p.vStudent xtokenLoss (claims p sort xtokenLoss teacherVocabSize)))
      else .error .index := by
  rw [exactTokenMap]
  by_cases hk : 0 < p.topK
  · rw [column_of_lt hk]
    by_cases h : Readable p xtokenLoss
    · rw [if_pos h, column_of_lt hk, claims_eq hk]
      simp only [bind, Except.bind, hasExactMap_of_readable h]
      split_ifs with hnone hsize
      · rfl
      · rw [hnone]
        simp [partitionVocab, winners]
      · rfl
      · rfl
    · rw [if_neg h]
      simp only [bind, Except.bind, hasExactMap_of_not_readable h hk]
  · rw [column_of_le (Nat.not_lt.mp hk), if_neg fun h : Readable p xtokenLoss ↦ hk h.1]
    rfl

theorem claims_sorted :
    (claims p sort xtokenLoss teacherVocabSize).Pairwise fun c d ↦ c.student < d.student := by
  refine List.Pairwise.filterMap _ (fun s s' hlt c hc d hd ↦ ?_) (List.pairwise_lt_finRange _)
  rw [(claimOf_eq_some_iff.mp hc).1, (claimOf_eq_some_iff.mp hd).1]
  exact hlt

end ClaimedTeachers

section Winners

variable [LinearOrder K] {l : List (Candidate K)} {xtokenLoss : Bool} {vStudent : ℕ}
  {c d : Candidate K}

def precedence (c : Candidate K) : Lex (Kᵒᵈ × ℕ) := toLex (OrderDual.toDual c.prob, c.student)

theorem precedence_le_iff : precedence c ≤ precedence d ↔
    d.prob < c.prob ∨ d.prob = c.prob ∧ c.student ≤ d.student := by
  rw [precedence, precedence, Prod.Lex.toLex_le_toLex]
  simp only [OrderDual.toDual_lt_toDual, OrderDual.toDual_inj]
  rw [eq_comm]

theorem precedence_lt_iff : precedence c < precedence d ↔
    d.prob < c.prob ∨ d.prob = c.prob ∧ c.student < d.student := by
  rw [precedence, precedence, Prod.Lex.toLex_lt_toLex]
  simp only [OrderDual.toDual_lt_toDual, OrderDual.toDual_inj]
  rw [eq_comm]

/-- A list of claims: by student, and of one weight where the mode is strict. -/
structure Orderly (xtokenLoss : Bool) (vStudent : ℕ) (l : List (Candidate K)) : Prop where
  sorted : l.Pairwise fun c d ↦ c.student < d.student
  student : ∀ c ∈ l, c.student < vStudent
  strict : xtokenLoss = false → ∀ c ∈ l, ∀ d ∈ l, c.prob = d.prob

omit [LinearOrder K] in
theorem Orderly.injOn (h : Orderly xtokenLoss vStudent l) :
    Set.InjOn Candidate.student {z | z ∈ l} := by
  have hnodup : (l.map Candidate.student).Nodup := by
    rw [List.Nodup, List.pairwise_map]
    exact h.sorted.imp fun hlt ↦ hlt.ne
  exact fun c hc d hd ↦ List.inj_on_of_nodup_map hnodup hc hd

omit [LinearOrder K] in
theorem Orderly.precedence_injOn (h : Orderly xtokenLoss vStudent l) :
    Set.InjOn precedence {z | z ∈ l} := by
  intro c hc d hd heq
  have hpair : (OrderDual.toDual c.prob, c.student) = (OrderDual.toDual d.prob, d.student) :=
    toLex.injective heq
  exact h.injOn hc hd (Prod.ext_iff.mp hpair).2

theorem eligible_iff (h : Orderly xtokenLoss vStudent l) (hc : c ∈ l) :
    eligible xtokenLoss l c = true ↔ ∀ d ∈ l, d.teacher = c.teacher → d.prob ≤ c.prob := by
  cases xtokenLoss with
  | false =>
    rw [eligible, Bool.not_false, Bool.true_or]
    exact ⟨fun _ d hd _ ↦ (h.strict rfl d hd c hc).le, fun _ ↦ rfl⟩
  | true =>
    have hmax := isGreatest_scatterReduce (fun _ ↦ (⊥ : WithBot K))
      (l.map fun c ↦ (c.teacher, (c.prob : WithBot K))) c.teacher
    rw [eligible, Bool.not_true, Bool.false_or, decide_eq_true_iff]
    constructor
    · intro hle d hd hteacher
      have hentry : (c.teacher, (d.prob : WithBot K)) ∈
          l.map fun c ↦ (c.teacher, (c.prob : WithBot K)) :=
        List.mem_map.mpr ⟨d, hd, by rw [hteacher]⟩
      exact WithBot.coe_le_coe.mp ((hmax.2 (Set.mem_insert_of_mem _ hentry)).trans hle)
    · intro hall
      rcases Set.mem_insert_iff.mp hmax.1 with hbot | hentry
      · rw [maxProbPerT, hbot]
        exact bot_le
      · obtain ⟨d, hd, hpair⟩ := List.mem_map.mp hentry
        obtain ⟨hteacher, hprob⟩ := Prod.mk.inj hpair
        rw [maxProbPerT, ← hprob]
        exact WithBot.coe_le_coe.mpr (hall d hd hteacher)

theorem student_eq_minSPerT_iff (h : Orderly xtokenLoss vStudent l) (hc : c ∈ l)
    (heligible : eligible xtokenLoss l c = true) :
    c.student = minSPerT vStudent xtokenLoss l c.teacher ↔
      ∀ d ∈ l, d.teacher = c.teacher → eligible xtokenLoss l d = true →
        c.student ≤ d.student := by
  have hmin := isLeast_scatterReduce (fun _ ↦ vStudent) (l.map fun c ↦
    (c.teacher, if eligible xtokenLoss l c then c.student else vStudent)) c.teacher
  have hentry {d : Candidate K} (hd : d ∈ l) (hteacher : d.teacher = c.teacher)
      (hd' : eligible xtokenLoss l d = true) :
      minSPerT vStudent xtokenLoss l c.teacher ≤ d.student := by
    refine hmin.2 (Set.mem_insert_of_mem _ (List.mem_map.mpr ⟨d, hd, ?_⟩))
    rw [hteacher, if_pos hd']
  constructor
  · intro heq d hd hteacher hd'
    rw [heq]
    exact hentry hd hteacher hd'
  · intro hall
    refine le_antisymm ?_ (hentry hc rfl heligible)
    rcases Set.mem_insert_iff.mp hmin.1 with hsentinel | hmem
    · rw [minSPerT, hsentinel]
      exact (h.student c hc).le
    · obtain ⟨d, hd, hpair⟩ := List.mem_map.mp hmem
      obtain ⟨hteacher, hvalue⟩ := Prod.mk.inj hpair
      rw [minSPerT, ← hvalue]
      split_ifs with hd'
      · exact hall d hd hteacher hd'
      · exact (h.student c hc).le

/-- The rows that both masks leave are the ones that no other row of their teacher precedes. -/
theorem mem_winners_iff (h : Orderly xtokenLoss vStudent l) :
    c ∈ winners vStudent xtokenLoss l ↔ Leads Candidate.teacher precedence l c := by
  rw [winners, List.mem_filter, Bool.and_eq_true, decide_eq_true_iff]
  constructor
  · rintro ⟨hc, heligible, hstudent⟩
    rw [student_eq_minSPerT_iff h hc heligible] at hstudent
    have hheaviest := (eligible_iff h hc).mp heligible
    refine ⟨hc, fun d hd hteacher ↦ precedence_le_iff.mpr ?_⟩
    rcases (hheaviest d hd hteacher).lt_or_eq with hlt | heq
    · exact .inl hlt
    · refine .inr ⟨heq, hstudent d hd hteacher ((eligible_iff h hd).mpr fun e he hte ↦ ?_)⟩
      rw [heq]
      exact hheaviest e he (hte.trans hteacher)
  · rintro ⟨hc, hleads⟩
    have heligible : eligible xtokenLoss l c = true := by
      refine (eligible_iff h hc).mpr fun d hd hteacher ↦ ?_
      rcases precedence_le_iff.mp (hleads d hd hteacher) with hlt | ⟨heq, -⟩
      · exact hlt.le
      · exact heq.le
    refine ⟨hc, heligible, (student_eq_minSPerT_iff h hc heligible).mpr ?_⟩
    intro d hd hteacher hd'
    rcases precedence_le_iff.mp (hleads d hd hteacher) with hlt | ⟨-, hle⟩
    · exact absurd ((eligible_iff h hd).mp hd' c hc hteacher.symm) (not_le.mpr hlt)
    · exact hle

end Winners

section Map

variable [LinearOrder K] {l : List (Candidate K)} {xtokenLoss : Bool} {vStudent : ℕ}
  {vTeacher s t : ℕ} {c d : Candidate K}

def Wins (xtokenLoss : Bool) (l : List (Candidate K)) (c : Candidate K) : Prop :=
  c ∈ l ∧ ∀ d ∈ l, d.teacher = c.teacher →
    (xtokenLoss = false → c.student ≤ d.student) ∧
      (xtokenLoss = true → d.prob < c.prob ∨ d.prob = c.prob ∧ c.student ≤ d.student)

/-- A later row takes a teacher id in relaxed mode only, with a higher weight. -/
def beats (xtokenLoss : Bool) (c b : Candidate K) : Bool := xtokenLoss && decide (b.prob < c.prob)

def sequentialScan (xtokenLoss : Bool) (l : List (Candidate K)) : ℤ → Option (Candidate K) :=
  scan Candidate.teacher (beats xtokenLoss) l

theorem leads_iff_wins (h : Orderly xtokenLoss vStudent l) :
    Leads Candidate.teacher precedence l c ↔ Wins xtokenLoss l c := by
  refine and_congr_right fun hc ↦ forall₂_congr fun d hd ↦ forall_congr' fun _ ↦ ?_
  rw [precedence_le_iff]
  cases xtokenLoss with
  | true => simp
  | false => simp [h.strict rfl d hd c hc]

theorem sequentialScan_eq_some_iff (h : Orderly xtokenLoss vStudent l) {teacher : ℤ} :
    sequentialScan xtokenLoss l teacher = some c ↔ Wins xtokenLoss l c ∧ c.teacher = teacher := by
  rw [sequentialScan, scan_eq_some_iff ?_ h.precedence_injOn, leads_iff_wins h]
  refine h.sorted.imp_of_mem fun {b d} hb hd hlt _ ↦ ?_
  rw [beats, Bool.and_eq_true, decide_eq_true_iff, precedence_lt_iff]
  have hnot : ¬ d.student < b.student := hlt.asymm
  cases xtokenLoss with
  | true => simp [hnot]
  | false => simp [hnot, h.strict rfl b hb d hd]

omit [LinearOrder K] in
theorem perm_range {ids : List ℕ} {m : ℕ} (hnodup : ids.Nodup) (hlt : ∀ i ∈ ids, i < m) :
    (ids ++ (List.range m).filter fun i ↦ !decide (i ∈ ids)).Perm (List.range m) := by
  have hdisjoint : (ids ++ (List.range m).filter fun i ↦ !decide (i ∈ ids)).Nodup := by
    refine List.Nodup.append hnodup (List.nodup_range.filter _) fun i hi hrest ↦ ?_
    have hnot := (List.mem_filter.mp hrest).2
    simp [hi] at hnot
  refine (List.perm_ext_iff_of_nodup hdisjoint List.nodup_range).mpr fun i ↦ ?_
  rw [List.mem_append, List.mem_filter, List.mem_range]
  by_cases hi : i ∈ ids
  · simp [hi, hlt i hi]
  · simp [hi]

/-- What the docstring says of a map over claims. -/
structure Documented (xtokenLoss : Bool) (vStudent vTeacher : ℕ) (l : List (Candidate K))
    (map : ExactTokenMap) : Prop where
  paired : map.commonStudent.length = map.commonTeacher.length
  sorted : map.commonStudent.Pairwise (· < ·)
  teachers : map.commonTeacher.Nodup
  winner : ∀ s t, (s, t) ∈ map.commonStudent.zip map.commonTeacher ↔
    ∃ c, Wins xtokenLoss l c ∧ c.student = s ∧ c.teacher = t
  claimed : ∀ c ∈ l, ∃ s, (s, c.teacher.toNat) ∈ map.commonStudent.zip map.commonTeacher
  scanned : ∀ s t, (s, t) ∈ map.commonStudent.zip map.commonTeacher ↔
    ∃ c, sequentialScan xtokenLoss l t = some c ∧ c.student = s
  students : (map.commonStudent ++ map.uncommonStudent).Perm (List.range vStudent)
  teacherIds : (map.commonTeacher ++ map.uncommonTeacher).Perm (List.range vTeacher)
  uncommon : map.uncommonStudent.Pairwise (· < ·) ∧ map.uncommonTeacher.Pairwise (· < ·)

theorem winners_sorted (h : Orderly xtokenLoss vStudent l) :
    (winners vStudent xtokenLoss l).Pairwise fun c d ↦ c.student < d.student :=
  h.sorted.filter _

theorem winners_teacher_nodup (h : Orderly xtokenLoss vStudent l) (hrange : ∀ c ∈ l, 0 ≤ c.teacher) :
    ((winners vStudent xtokenLoss l).map fun c ↦ c.teacher.toNat).Nodup := by
  rw [List.Nodup, List.pairwise_map]
  refine (winners_sorted h).imp_of_mem fun {c d} hc hd hlt heq ↦ ?_
  have hleads := (mem_winners_iff h).mp hc
  have hleads' := (mem_winners_iff h).mp hd
  have hzero := hrange c hleads.1
  have hzero' := hrange d hleads'.1
  have hsame := hleads.unique h.precedence_injOn hleads' (by omega)
  rw [hsame] at hlt
  exact lt_irrefl _ hlt

theorem partitionVocab_documented (h : Orderly xtokenLoss vStudent l)
    (hrange : ∀ c ∈ l, 0 ≤ c.teacher ∧ c.teacher < vTeacher) :
    Documented xtokenLoss vStudent vTeacher l
      (partitionVocab vStudent vTeacher (winners vStudent xtokenLoss l)) := by
  have hsorted := winners_sorted h
  have hsort : (winners vStudent xtokenLoss l).insertionSort (fun c d ↦ c.student ≤ d.student) =
      winners vStudent xtokenLoss l :=
    List.Pairwise.insertionSort_eq (hsorted.imp fun hlt ↦ hlt.le)
  have hstudents : ((winners vStudent xtokenLoss l).map Candidate.student).Pairwise (· < ·) := by
    rwa [List.pairwise_map]
  have hteachers := winners_teacher_nodup h fun c hc ↦ (hrange c hc).1
  have hwin : ∀ s t : ℕ, (∃ c ∈ winners vStudent xtokenLoss l,
      (c.student, c.teacher.toNat) = (s, t)) ↔
        ∃ c, Wins xtokenLoss l c ∧ c.student = s ∧ c.teacher = t := by
    refine fun s t ↦ exists_congr fun c ↦ ?_
    rw [mem_winners_iff h, leads_iff_wins h, Prod.mk.injEq]
    refine and_congr_right fun hc ↦ and_congr_right fun _ ↦ ?_
    have hzero := (hrange c hc.1).1
    omega
  rw [partitionVocab, hsort]
  refine ⟨by simp, hstudents, hteachers, fun s t ↦ ?_, fun c hc ↦ ?_, fun s t ↦ ?_, ?_, ?_,
    List.pairwise_lt_range.filter _, List.pairwise_lt_range.filter _⟩
  · dsimp only
    rw [List.zip_map', List.mem_map, hwin]
  · obtain ⟨d, hleads, hteacher⟩ := @exists_leads _ _ _ _ Candidate.teacher precedence _ _ hc
    refine ⟨d.student, ?_⟩
    dsimp only
    rw [List.zip_map', List.mem_map]
    exact ⟨d, (mem_winners_iff h).mpr hleads, by rw [hteacher]⟩
  · dsimp only
    rw [List.zip_map', List.mem_map, hwin]
    refine exists_congr fun c ↦ ?_
    rw [sequentialScan_eq_some_iff h]
    exact ⟨fun ⟨hwins, hs, ht⟩ ↦ ⟨⟨hwins, ht⟩, hs⟩, fun ⟨⟨hwins, ht⟩, hs⟩ ↦ ⟨hwins, hs, ht⟩⟩
  · refine perm_range (hstudents.imp fun hlt ↦ hlt.ne) fun s hs ↦ ?_
    obtain ⟨c, hc, rfl⟩ := List.mem_map.mp hs
    exact h.student c ((mem_winners_iff h).mp hc).1
  · refine perm_range hteachers fun t ht ↦ ?_
    obtain ⟨c, hc, rfl⟩ := List.mem_map.mp ht
    have hbounds := hrange c ((mem_winners_iff h).mp hc).1
    omega

end Map

section Calls

variable [LinearOrder K] [One K] [OfScientific K] {Path Device : Type} [DecidableEq Path]
  [DecidableEq Device]

theorem orderly_claims (p : TopkProjection K) (sort : RowSort p.likelihoods) (xtokenLoss : Bool)
    (teacherVocabSize : ℤ) :
    Orderly xtokenLoss p.vStudent (claims p sort xtokenLoss teacherVocabSize) where
  sorted := claims_sorted
  student c hc := by
    obtain ⟨s, hs⟩ := mem_claims.mp hc
    rw [(claimOf_eq_some_iff.mp hs).1]
    exact s.isLt
  strict hx c hc d hd := by
    obtain ⟨s, hs⟩ := mem_claims.mp hc
    obtain ⟨s', hs'⟩ := mem_claims.mp hd
    obtain ⟨-, -, -, -, hone, -⟩ := claimOf_eq_some_iff.mp hs
    obtain ⟨-, -, -, -, hone', -⟩ := claimOf_eq_some_iff.mp hs'
    rw [(hone hx).1, (hone' hx).1]

omit [DecidableEq Path] in
theorem exactTokenMap_documented {p : TopkProjection K} {sort : RowSort p.likelihoods}
    {xtokenLoss : Bool} {teacherVocabSize : ℤ} {map : ExactTokenMap}
    (h : (exactTokenMap p sort xtokenLoss teacherVocabSize : Except (ExactMapError Path) _) =
      .ok map) :
    (Readable p xtokenLoss ∧ 0 ≤ teacherVocabSize) ∧
      Documented xtokenLoss p.vStudent teacherVocabSize.toNat
        (claims p sort xtokenLoss teacherVocabSize) map := by
  rw [exactTokenMap_eq] at h
  split_ifs at h with hreadable hsize
  obtain rfl := Except.ok.inj h
  refine ⟨⟨hreadable, not_lt.mp hsize⟩, ?_⟩
  refine partitionVocab_documented (orderly_claims ..) fun c hc ↦ ?_
  obtain ⟨s, hs⟩ := mem_claims.mp hc
  obtain ⟨-, -, -, -, -, hzero, hlt⟩ := claimOf_eq_some_iff.mp hs
  exact ⟨hzero, by omega⟩

/-- One call of a process, with the files as they are then. -/
structure Call (Path Device K : Type) [LinearOrder K] where
  files : Path → Option (ProjectionFile K)
  sort : ∀ p : TopkProjection K, RowSort p.likelihoods
  path : Path
  device : Device
  xtokenLoss : Bool
  teacherVocabSize : ℤ

def Call.run (call : Call Path Device K) (caches : Caches Path Device K) :
    Except (ExactMapError Path) ExactTokenMap × Caches Path Device K :=
  buildExactTokenMap call.files call.sort call.path call.device call.xtokenLoss
    call.teacherVocabSize caches

def cachesAfter (calls : List (Call Path Device K)) : Caches Path Device K :=
  calls.foldl (fun caches call ↦ (call.run caches).2) ⟨KeyedStore.empty, KeyedStore.empty⟩

def Coherent (caches : Caches Path Device K) : Prop :=
  ∀ path device xtokenLoss teacherVocabSize map,
    caches.exact (path, device, xtokenLoss, teacherVocabSize) = some map →
      ∃ p, ∃ sort : RowSort p.likelihoods, caches.topk (path, device) = some p ∧
        (exactTokenMap p sort xtokenLoss teacherVocabSize : Except (ExactMapError Path) _) =
          .ok map

variable {caches : Caches Path Device K} {call : Call Path Device K}

omit [LinearOrder K] [One K] [OfScientific K] in
theorem getTopkProjection_cases (files : Path → Option (ProjectionFile K)) (path : Path)
    (device : Device) (caches : Caches Path Device K) :
    (∃ e, getTopkProjection files path device caches = (.error e, caches)) ∨
      ∃ p caches', getTopkProjection files path device caches = (.ok p, caches') ∧
        caches'.exact = caches.exact ∧ caches'.topk (path, device) = some p ∧
        ∀ key q, caches.topk key = some q → caches'.topk key = some q := by
  rw [getTopkProjection]
  cases hcached : caches.topk (path, device) with
  | some cached => exact .inr ⟨cached, caches, rfl, rfl, hcached, fun _ _ hq ↦ hq⟩
  | none =>
    cases hfile : files path with
    | none => exact .inl ⟨_, rfl⟩
    | some file =>
      cases file with
      | other => exact .inl ⟨_, rfl⟩
      | dense p =>
        refine .inr ⟨p, _, rfl, rfl, if_pos rfl, fun key q hq ↦ ?_⟩
        have hne : key ≠ (path, device) := fun heq ↦ by
          rw [heq, hcached] at hq
          cases hq
        exact (if_neg hne).trans hq

/-- A call answers with the map of the arrays that the cache has then, and keeps the caches
coherent. -/
theorem Call.run_spec (h : Coherent caches) (call : Call Path Device K) :
    Coherent (call.run caches).2 ∧
      ∀ p, (getTopkProjection call.files call.path call.device caches).1 = .ok p →
        ∃ sort : RowSort p.likelihoods, (call.run caches).1 =
          exactTokenMap p sort call.xtokenLoss call.teacherVocabSize := by
  rw [Call.run, buildExactTokenMap]
  cases hexact : caches.exact
      (call.path, call.device, call.xtokenLoss, call.teacherVocabSize) with
  | some cached =>
    refine ⟨h, fun p hp ↦ ?_⟩
    obtain ⟨q, sort, hq, hmap⟩ := h _ _ _ _ _ hexact
    rw [getTopkProjection, hq] at hp
    obtain rfl := Except.ok.inj hp
    exact ⟨sort, hmap.symm⟩
  | none =>
    rcases getTopkProjection_cases call.files call.path call.device caches with
      ⟨e, herror⟩ | ⟨p, caches', hget, hsame, hp, hkeep⟩
    · rw [herror]
      exact ⟨h, fun p hp ↦ by cases hp⟩
    · rw [hget]
      have hold : Coherent caches' := fun path device xtokenLoss teacherVocabSize map hmap ↦ by
        rw [hsame] at hmap
        obtain ⟨q, sort, hq, heq⟩ := h _ _ _ _ _ hmap
        exact ⟨q, sort, hkeep _ _ hq, heq⟩
      have hsort : ∀ q, .ok p = (.ok q : Except (ExactMapError Path) _) →
          ∃ sort : RowSort q.likelihoods, (exactTokenMap p (call.sort p) call.xtokenLoss
            call.teacherVocabSize : Except (ExactMapError Path) _) =
              exactTokenMap q sort call.xtokenLoss call.teacherVocabSize := fun q hq ↦ by
        obtain rfl := Except.ok.inj hq
        exact ⟨call.sort p, rfl⟩
      dsimp only
      cases hmap : (exactTokenMap p (call.sort p) call.xtokenLoss call.teacherVocabSize :
          Except (ExactMapError Path) _) with
      | error e =>
        rw [hmap] at hsort
        exact ⟨hold, hsort⟩
      | ok map =>
        rw [hmap] at hsort
        refine ⟨fun path device xtokenLoss teacherVocabSize map' hentry ↦ ?_, hsort⟩
        dsimp only [KeyedStore.write] at hentry
        split_ifs at hentry with hkey
        · cases hkey
          obtain rfl := Option.some.inj hentry
          exact ⟨p, call.sort p, hp, hmap⟩
        · exact hold _ _ _ _ _ hentry

theorem coherent_cachesAfter (calls : List (Call Path Device K)) :
    Coherent (cachesAfter calls) := by
  rw [cachesAfter]
  induction calls using List.reverseRecOn with
  | nil => exact fun _ _ _ _ _ h ↦ by cases h
  | append_singleton calls call ih =>
    rw [List.foldl_append]
    exact (Call.run_spec ih call).1

end Calls

section Results

variable [LinearOrder K] [One K] [OfScientific K] {Path Device : Type} [DecidableEq Path]
  [DecidableEq Device]

/-- After any calls, the map is returned for arrays that have the columns of the mode, and it is
the documented one. -/
theorem buildExactTokenMap_documented (calls : List (Call Path Device K))
    (call : Call Path Device K) {p : TopkProjection K}
    (hp : (getTopkProjection call.files call.path call.device (cachesAfter calls)).1 = .ok p) :
    ((∃ map, (call.run (cachesAfter calls)).1 = .ok map) ↔
        Readable p call.xtokenLoss ∧ 0 ≤ call.teacherVocabSize) ∧
      ∃ sort : RowSort p.likelihoods, ∀ map, (call.run (cachesAfter calls)).1 = .ok map →
        Documented call.xtokenLoss p.vStudent call.teacherVocabSize.toNat
          (claims p sort call.xtokenLoss call.teacherVocabSize) map := by
  obtain ⟨sort, hrun⟩ := (Call.run_spec (coherent_cachesAfter calls) call).2 p hp
  rw [hrun]
  refine ⟨⟨fun ⟨map, hmap⟩ ↦ (exactTokenMap_documented hmap).1, fun ⟨hreadable, hsize⟩ ↦ ?_⟩,
    sort, fun map hmap ↦ (exactTokenMap_documented hmap).2⟩
  rw [exactTokenMap_eq, if_pos hreadable, if_neg (not_lt.mpr hsize)]
  exact ⟨_, rfl⟩

def stableSort (values : Fin n → Fin k → K) : RowSort values where
  order s := Tuple.sort (OrderDual.toDual ∘ values s)
  descending s := Tuple.monotone_sort (OrderDual.toDual ∘ values s)

def firstCall (p : TopkProjection K) (xtokenLoss : Bool) (teacherVocabSize : ℤ) :
    Call Unit Unit K :=
  ⟨fun _ ↦ some (.dense p), fun q ↦ stableSort q.likelihoods, (), (), xtokenLoss,
    teacherVocabSize⟩

end Results

def sharedTeacher : TopkProjection ℚ :=
  ⟨2, 2, fun _ ↦ ![0, -1], fun _ ↦ ![1, 0]⟩

theorem buildExactTokenMap_documented_shared :
    ∃ map, ((firstCall sharedTeacher false 1).run (cachesAfter [])).1 = .ok map ∧
      ∃ sort : RowSort sharedTeacher.likelihoods,
        Documented false 2 1 (claims sharedTeacher sort false 1) map := by
  obtain ⟨hreturns, sort, hdocumented⟩ :=
    @buildExactTokenMap_documented ℚ _ _ _ Unit Unit _ _ [] (firstCall sharedTeacher false 1)
      sharedTeacher rfl
  obtain ⟨map, hmap⟩ := hreturns.mpr ⟨⟨Nat.two_pos, fun _ ↦ Nat.one_lt_two⟩, Int.one_nonneg⟩
  exact ⟨map, hmap, sort, hdocumented map hmap⟩

def oneColumn : TopkProjection ℚ := ⟨1, 1, fun _ _ ↦ 0, fun _ _ ↦ 1⟩

theorem oneColumn_strict_raises :
    ((firstCall oneColumn false 1).run (cachesAfter [])).1 = .error .index := rfl

end NemoRL.XToken
