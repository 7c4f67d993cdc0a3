import Mathlib
import NemoRL.Foundations.Blocks
import NemoRL.XToken.CanonicalToken

namespace NemoRL.XToken.TokenAligner

open Foundations.Blocks

/-- One aligned span between student and teacher token sequences; an empty side has `-1` as
its start and its end. -/
structure AlignmentPair where
  sTokens : List String
  tTokens : List String
  sStart : ℤ
  sEnd : ℤ
  tStart : ℤ
  tEnd : ℤ
  isCorrect : Bool := false
  deriving DecidableEq, Repr

def canonicalText (tokens : List String) : String := String.join (tokens.map canonicalToken)

def AlignmentPair.isMatch (pair : AlignmentPair) : Bool :=
  stringsEqualFlexible (canonicalText pair.sTokens) (canonicalText pair.tTokens) false

section Dp

/-- The arithmetic of the scores, rounding included. -/
structure Scoring (Score : Type) where
  zero : Score
  add : Score → Score → Score
  gt : Score → Score → Bool
  exactMatchScore : Score
  /-- `-exact_match_score`. -/
  mismatchScore : Score
  gapPenalty : Score
  /-- `combination_score_multiplier * k`. -/
  combinationScore : ℕ → Score

inductive Move
  | blank
  | diag
  | up
  | left
  | combS1OverS2 (k : ℕ)
  | combS2OverS1 (k : ℕ)
  deriving DecidableEq, Repr

def defaultScoring : Scoring ℚ where
  zero := 0
  add := (· + ·)
  gt x y := y < x
  exactMatchScore := 3
  mismatchScore := -3
  gapPenalty := -3 / 2
  combinationScore k := 3 / 2 * k

structure Cell (Score : Type) where
  score : Score
  move : Move

variable {Score : Type} (scoring : Scoring Score) (maxCombinationLen : ℕ)
  (ignoreLeadingCharDiff : Bool) (studentTokens teacherTokens : List String)

def cellAt (row : List (Cell Score)) (j : ℕ) : Cell Score := row.getD j ⟨scoring.zero, .blank⟩

def Cell.improve (best : Cell Score) (score : Score) (move : Move) : Cell Score :=
  if scoring.gt score best.score then ⟨score, move⟩ else best

/-- One inner step: the best move into `(i, j)`, from the rows above and the row so far. -/
def bestCell (rows : List (List (Cell Score))) (row : List (Cell Score)) (i j : ℕ) : Cell Score :=
  let above := fun i' j' ↦ (cellAt scoring (rows.getD i' []) j').score
  let studentVal := studentTokens.getD (i - 1) ""
  let teacherVal := teacherTokens.getD (j - 1) ""
  let matchScore := if stringsEqualFlexible studentVal teacherVal ignoreLeadingCharDiff then
    scoring.exactMatchScore else scoring.mismatchScore
  let best : Cell Score := ⟨scoring.add (above (i - 1) (j - 1)) matchScore, .diag⟩
  let best := best.improve scoring (scoring.add (above (i - 1) j) scoring.gapPenalty) .up
  let best := best.improve scoring
    (scoring.add (cellAt scoring row (j - 1)).score scoring.gapPenalty) .left
  let best := (List.range' 2 (min (j + 1) (maxCombinationLen + 1) - 2)).foldl (fun best k ↦
    if stringsEqualFlexible studentVal (String.join (slice teacherTokens (j - k) j))
        ignoreLeadingCharDiff then
      best.improve scoring (scoring.add (above (i - 1) (j - k)) (scoring.combinationScore k))
        (.combS1OverS2 k)
    else best) best
  (List.range' 2 (min (i + 1) (maxCombinationLen + 1) - 2)).foldl (fun best k ↦
    if stringsEqualFlexible teacherVal (String.join (slice studentTokens (i - k) i))
        ignoreLeadingCharDiff then
      best.improve scoring (scoring.add (above (i - k) (j - 1)) (scoring.combinationScore k))
        (.combS2OverS1 k)
    else best) best

def firstRow : List (Cell Score) :=
  (List.range teacherTokens.length).foldl (fun row j ↦
    row ++ [⟨scoring.add (cellAt scoring row j).score scoring.gapPenalty, .left⟩])
    [⟨scoring.zero, .blank⟩]

def nextRow (rows : List (List (Cell Score))) (i : ℕ) : List (Cell Score) :=
  (List.range teacherTokens.length).foldl (fun row j ↦
    row ++ [bestCell scoring maxCombinationLen ignoreLeadingCharDiff studentTokens teacherTokens
      rows row i (j + 1)])
    [⟨scoring.add (cellAt scoring (rows.getD (i - 1) []) 0).score scoring.gapPenalty, .up⟩]

def dpTable : List (List (Cell Score)) :=
  (List.range studentTokens.length).foldl (fun rows i ↦
    rows ++ [nextRow scoring maxCombinationLen ignoreLeadingCharDiff studentTokens teacherTokens
      rows (i + 1)])
    [firstRow scoring teacherTokens]

def Move.size : Move → ℕ × ℕ
  | .blank => (0, 0)
  | .diag => (1, 1)
  | .up => (1, 0)
  | .left => (0, 1)
  | .combS1OverS2 k => (1, k)
  | .combS2OverS1 k => (k, 1)

def spanPair (i j ds dt : ℕ) : AlignmentPair :=
  { sTokens := slice studentTokens (i - ds) i
    tTokens := slice teacherTokens (j - dt) j
    sStart := if ds = 0 then -1 else (i - ds : ℕ)
    sEnd := if ds = 0 then -1 else i
    tStart := if dt = 0 then -1 else (j - dt : ℕ)
    tEnd := if dt = 0 then -1 else j }

def traceback (trace : ℕ → ℕ → Move) :
    ℕ → ℕ → ℕ → List AlignmentPair → List AlignmentPair
  | 0, _, _, aligned => aligned
  | fuel + 1, i, j, aligned =>
    if i > 0 ∨ j > 0 then
      let move := trace i j
      if move = .blank then aligned
      else traceback trace fuel (i - move.size.1) (j - move.size.2)
        (spanPair studentTokens teacherTokens i j move.size.1 move.size.2 :: aligned)
    else aligned

def alignDp : List AlignmentPair :=
  let table := dpTable scoring maxCombinationLen ignoreLeadingCharDiff studentTokens teacherTokens
  traceback studentTokens teacherTokens
    (fun i j ↦ (cellAt scoring (table.getD i []) j).move)
    (studentTokens.length + teacherTokens.length) studentTokens.length teacherTokens.length []

end Dp

section Anchors

/-- A coarse span of the same tokens on both sides, which is split into 1-1 matches. -/
def AlignmentPair.splits (pair : AlignmentPair) : Bool :=
  pair.sTokens.length > 1 ∧ pair.sTokens.length = pair.tTokens.length ∧
    pair.sTokens = pair.tTokens

def oneToOne (tokens : List String) (sStart tStart : ℤ) : List AlignmentPair :=
  tokens.zipIdx.map fun (token, k) ↦
    { sTokens := [token], tTokens := [token], sStart := sStart + k, sEnd := sStart + k + 1,
      tStart := tStart + k, tEnd := tStart + k + 1 }

def shiftIndex (index : ℤ) (shift : ℕ) : ℤ := if index ≠ -1 then index + shift else -1

def shiftPairs (pairs : List AlignmentPair) (shiftS shiftT : ℕ) : List AlignmentPair :=
  pairs.flatMap fun pair ↦
    let ns := shiftIndex pair.sStart shiftS
    let ne := shiftIndex pair.sEnd shiftS
    let nts := shiftIndex pair.tStart shiftT
    let nte := shiftIndex pair.tEnd shiftT
    if pair.splits ∧ 0 ≤ ns ∧ 0 ≤ nts then oneToOne pair.sTokens ns nts
    else [{ sTokens := pair.sTokens, tTokens := pair.tTokens, sStart := ns, sEnd := ne,
            tStart := nts, tEnd := nte }]

def ngramPositions (tokens ngram : List String) : List ℕ :=
  (List.range (tokens.length + 1 - ngram.length)).filter fun i ↦
    slice tokens i (i + ngram.length) = ngram

/-- The n-grams that each sequence has once, with their two positions and their length. -/
def potentialAnchors (studentTokens teacherTokens : List String) (anchorLen : ℕ) :
    List (ℕ × ℕ × ℕ) :=
  (List.range (studentTokens.length + 1 - anchorLen)).filterMap fun i ↦
    let ngram := slice studentTokens i (i + anchorLen)
    match ngramPositions studentTokens ngram, ngramPositions teacherTokens ngram with
    | [_], [j] => some (i, j, anchorLen)
    | _, _ => none

def anchorOrder (a b : ℕ × ℕ × ℕ) : Bool :=
  b.2.2 < a.2.2 ∨ a.2.2 = b.2.2 ∧ (a.1 < b.1 ∨ a.1 = b.1 ∧ a.2.1 ≤ b.2.1)

def tupleOrder (a b : ℕ × ℕ × ℕ) : Bool :=
  a.1 < b.1 ∨ a.1 = b.1 ∧ (a.2.1 < b.2.1 ∨ a.2.1 = b.2.1 ∧ a.2.2 ≤ b.2.2)

structure Selection where
  usedStudent : List ℕ
  usedTeacher : List ℕ
  selected : List (ℕ × ℕ × ℕ)

def Selection.take (s : Selection) (anchor : ℕ × ℕ × ℕ) : Selection :=
  let (i, j, k) := anchor
  let r₁ := List.range' i k
  let r₂ := List.range' j k
  if r₁.all (· ∉ s.usedStudent) ∧ r₂.all (· ∉ s.usedTeacher) then
    { usedStudent := s.usedStudent ++ r₁
      usedTeacher := s.usedTeacher ++ r₂
      selected := s.selected ++ [anchor] }
  else s

/-- The anchors that keep the order of the teacher, `lastJ` being the last position taken. -/
def validateAnchors (studentTokens teacherTokens : List String) :
    ℤ → List (ℕ × ℕ × ℕ) → List (ℕ × ℕ × ℕ)
  | _, [] => []
  | lastJ, (i, j, k) :: rest =>
    if (j : ℤ) > lastJ ∧ slice studentTokens i (i + k) = slice teacherTokens j (j + k) then
      (i, j, k) :: validateAnchors studentTokens teacherTokens (j + k - 1) rest
    else validateAnchors studentTokens teacherTokens lastJ rest

def findAnchors (studentTokens teacherTokens : List String) (anchorLengths : List ℕ) :
    List (ℕ × ℕ × ℕ) :=
  let all := anchorLengths.flatMap (potentialAnchors studentTokens teacherTokens)
  let selection := (all.mergeSort anchorOrder).foldl Selection.take ⟨[], [], []⟩
  validateAnchors studentTokens teacherTokens (-1) (selection.selected.mergeSort tupleOrder)

variable {Score : Type} (scoring : Scoring Score) (maxCombinationLen : ℕ)
  (ignoreLeadingCharDiff : Bool) (studentTokens teacherTokens : List String)

def alignSegment (lastI lastJ i j : ℕ) : List AlignmentPair :=
  let studentSeg := slice studentTokens lastI i
  let teacherSeg := slice teacherTokens lastJ j
  if studentSeg ≠ [] ∨ teacherSeg ≠ [] then
    shiftPairs (alignDp scoring maxCombinationLen ignoreLeadingCharDiff studentSeg teacherSeg)
      lastI lastJ
  else []

/-- The alignment from `lastI` and `lastJ` on, with the anchors that are left. -/
def alignAroundAnchors : ℕ → ℕ → List (ℕ × ℕ × ℕ) → List AlignmentPair
  | lastI, lastJ, [] =>
    alignSegment scoring maxCombinationLen ignoreLeadingCharDiff studentTokens teacherTokens
      lastI lastJ studentTokens.length teacherTokens.length
  | lastI, lastJ, (i, j, k) :: rest =>
    alignSegment scoring maxCombinationLen ignoreLeadingCharDiff studentTokens teacherTokens
      lastI lastJ i j ++
    (List.range k).map (fun kk ↦
      { sTokens := [studentTokens.getD (i + kk) ""], tTokens := [teacherTokens.getD (j + kk) ""],
        sStart := (i + kk : ℕ), sEnd := (i + kk + 1 : ℕ), tStart := (j + kk : ℕ),
        tEnd := (j + kk + 1 : ℕ) }) ++
    alignAroundAnchors (i + k) (j + k) rest

def alignWithAnchors (anchorLengths : List ℕ) : List AlignmentPair :=
  let validated := findAnchors studentTokens teacherTokens anchorLengths
  if validated = [] then
    alignDp scoring maxCombinationLen ignoreLeadingCharDiff studentTokens teacherTokens
  else alignAroundAnchors scoring maxCombinationLen ignoreLeadingCharDiff studentTokens
    teacherTokens 0 0 validated

end Anchors

section PostProcess

/-- The start of the first span and the end of the last, `-1` if there is none. -/
def spanBounds (spans : List (ℤ × ℤ)) : ℤ × ℤ :=
  (((spans.map Prod.fst).min?).getD (-1), ((spans.map Prod.snd).max?).getD (-1))

def combineRun (run : List AlignmentPair) : AlignmentPair :=
  let s := spanBounds ((run.filter fun p ↦ p.sTokens ≠ [] ∧ p.sStart ≠ -1).map
    fun p ↦ (p.sStart, p.sEnd))
  let t := spanBounds ((run.filter fun p ↦ p.tTokens ≠ [] ∧ p.tStart ≠ -1).map
    fun p ↦ (p.tStart, p.tEnd))
  { sTokens := run.flatMap (·.sTokens), tTokens := run.flatMap (·.tTokens),
    sStart := s.1, sEnd := s.2, tStart := t.1, tEnd := t.2 }

def endBoundary (n : ℕ) : ℕ := n * 4 / 5

/-- The pairs from index `i` on, runs of misaligned pairs before the boundary combined. -/
def combineFrom (boundary i : ℕ) (pairs : List AlignmentPair) : List AlignmentPair :=
  match pairs with
  | [] => []
  | cur :: rest =>
    let run := cur :: (rest.take (boundary - (i + 1))).takeWhile (!·.isMatch)
    if i < boundary ∧ !cur.isMatch ∧ rest ≠ [] ∧ 2 ≤ run.length then
      combineRun run :: combineFrom boundary (i + run.length) (rest.drop (run.length - 1))
    else cur :: combineFrom boundary (i + 1) rest
termination_by pairs.length
decreasing_by
  all_goals simp only [List.length_drop, List.length_cons]; omega

def combineConsecutiveMisaligned (alignedPairs : List AlignmentPair) : List AlignmentPair :=
  if alignedPairs.length < 2 then alignedPairs
  else combineFrom (endBoundary alignedPairs.length) 0 alignedPairs

def chunkBounds (chunk : List AlignmentPair) : (ℤ × ℤ) × (ℤ × ℤ) :=
  (spanBounds ((chunk.filter (·.sTokens ≠ [])).map fun p ↦ (p.sStart, p.sEnd)),
    spanBounds ((chunk.filter (·.tTokens ≠ [])).map fun p ↦ (p.tStart, p.tEnd)))

variable {Score : Type} (scoring : Scoring Score) (maxCombinationLen : ℕ)

abbrev AlignCache := List ((List String × List String) × (List AlignmentPair × Bool))

def realign (cache : AlignCache) (s t : List String) :
    (List AlignmentPair × Bool) × AlignCache :=
  match cache.lookup (s, t) with
  | some found => (found, cache)
  | none =>
    let subPairs := alignDp scoring maxCombinationLen false s t
    let found := (subPairs, subPairs.all (·.isMatch))
    (found, ((s, t), found) :: cache)

def realignChunk (cache : AlignCache) (chunk : List AlignmentPair) :
    Option (List AlignmentPair × AlignCache) :=
  let s := chunk.flatMap (·.sTokens)
  let t := chunk.flatMap (·.tTokens)
  let bounds := chunkBounds chunk
  if stringsEqualFlexible (canonicalText s) (canonicalText t) false then
    let found := realign scoring maxCombinationLen cache s t
    if found.1.2 then
      some (found.1.1.map fun sub ↦
        { sTokens := sub.sTokens, tTokens := sub.tTokens,
          sStart := if sub.sStart ≠ -1 then bounds.1.1 + sub.sStart else -1
          sEnd := if sub.sEnd ≠ -1 then bounds.1.1 + sub.sEnd else -1
          tStart := if sub.tStart ≠ -1 then bounds.2.1 + sub.tStart else -1
          tEnd := if sub.tEnd ≠ -1 then bounds.2.1 + sub.tEnd else -1 }, found.2)
    else
      some ([{ sTokens := s, tTokens := t, sStart := bounds.1.1, sEnd := bounds.1.2,
               tStart := bounds.2.1, tEnd := bounds.2.2 }], found.2)
  else none

def findChunk (cache : AlignCache) (pairs : List AlignmentPair) :
    Option (ℕ × List AlignmentPair × AlignCache) :=
  (List.range' 2 (min 10 pairs.length - 1)).findSome? fun chunkSize ↦
    (realignChunk scoring maxCombinationLen cache (pairs.take chunkSize)).map (chunkSize, ·)

def realignBadSpans (cache : AlignCache) (pairs : List AlignmentPair) : List AlignmentPair :=
  match pairs with
  | [] => []
  | cur :: rest =>
    if cur.splits then oneToOne cur.sTokens cur.sStart cur.tStart ++ realignBadSpans cache rest
    else
      match _ : (cur :: rest).dropWhile (·.isMatch) with
      | [] => cur :: rest
      | bad :: after =>
        (cur :: rest).takeWhile (·.isMatch) ++
          match findChunk scoring maxCombinationLen cache (bad :: after) with
          | some (chunkSize, sub, cache) => sub ++ realignBadSpans cache (after.drop (chunkSize - 1))
          | none => bad :: realignBadSpans cache after
termination_by pairs.length
decreasing_by
  all_goals
    have hle := List.length_dropWhile_le (fun p : AlignmentPair ↦ p.isMatch) (cur :: rest)
    simp_all only [List.length_drop, List.length_cons]
    omega

def postProcessAlignment (alignedPairs : List AlignmentPair) : List AlignmentPair :=
  realignBadSpans scoring maxCombinationLen [] (combineConsecutiveMisaligned alignedPairs)

end PostProcess

section Single

def remapSide (canonToOrig : List (ℕ × ℕ)) (start stop : ℤ) : ℤ × ℤ :=
  if start ≠ -1 then
    ((canonToOrig.getD start.toNat (0, 0)).1, (canonToOrig.getD (stop - 1).toNat (0, 0)).2)
  else (start, stop)

def remapPairsToOriginal (pairs : List AlignmentPair) (studentCanonToOrig
    teacherCanonToOrig : List (ℕ × ℕ)) : List AlignmentPair :=
  pairs.map fun pair ↦
    let s := remapSide studentCanonToOrig pair.sStart pair.sEnd
    let t := remapSide teacherCanonToOrig pair.tStart pair.tEnd
    { pair with sStart := s.1, sEnd := s.2, tStart := t.1, tEnd := t.2 }

variable {Score : Type} (scoring : Scoring Score) (maxCombinationLen : ℕ)

/-- Canonicalize, align around anchors, post-process and go back to the original tokens. -/
def alignSingle (anchorLengths : List ℕ) (studentTokens teacherTokens : List String) :
    List AlignmentPair :=
  let student := canonicalizeSequence studentTokens
  let teacher := canonicalizeSequence teacherTokens
  let aligned := alignWithAnchors scoring maxCombinationLen false student.1 teacher.1 anchorLengths
  let aligned := postProcessAlignment scoring maxCombinationLen aligned
  let aligned := remapPairsToOriginal aligned student.2 teacher.2
  aligned.map fun pair ↦ { pair with isCorrect := pair.isMatch }

end Single

section Batch

/-- Per-batch alignment payload, dense-padded; a row for each sample. -/
structure AlignmentBatch where
  pairValid : List (List Bool)
  pairIsCorrect : List (List Bool)
  studentExactPartitionMask : List (List Bool)
  teacherExactPartitionMask : List (List Bool)
  studentChunkId : List (List ℤ)
  teacherChunkId : List (List ℤ)
  numChunks : List ℕ

def writeChunkId (width : ℕ) (span : AlignmentPair → ℤ × ℤ) (row : List ℤ)
    (x : AlignmentPair × ℕ) : List ℤ :=
  let start := (span x.1).1
  let stop := (span x.1).2
  if start ≠ -1 ∧ stop ≠ -1 ∧ 0 ≤ start ∧ start < width ∧ 0 < stop ∧ stop ≤ width then
    row.mapIdx fun position id ↦ if start ≤ position ∧ position < stop then x.2 else id
  else row

def chunkIdRow (width : ℕ) (span : AlignmentPair → ℤ × ℤ) (pairs : List AlignmentPair) : List ℤ :=
  pairs.zipIdx.foldl (writeChunkId width span) (List.replicate width (-1))

def AlignmentPair.exactPartition (pair : AlignmentPair) : Bool :=
  pair.isCorrect ∧ pair.sStart ≠ -1 ∧ pair.tStart ≠ -1 ∧ pair.sEnd - pair.sStart = 1 ∧
    pair.tEnd - pair.tStart = 1

def partitionRow (width : ℕ) (start : AlignmentPair → ℤ) (pairs : List AlignmentPair) :
    List Bool :=
  pairs.foldl (fun row pair ↦
    if pair.exactPartition ∧ 0 ≤ start pair ∧ start pair < width then
      row.set (start pair).toNat true
    else row) (List.replicate width false)

def pairsToBatch (perSamplePairs : List (List AlignmentPair)) (tS tT : ℕ) : AlignmentBatch :=
  let maxPairs := max ((perSamplePairs.map List.length).foldl max 0) 1
  { pairValid := perSamplePairs.map fun pairs ↦
      pairs.map (fun _ ↦ true) ++ List.replicate (maxPairs - pairs.length) false
    pairIsCorrect := perSamplePairs.map fun pairs ↦
      pairs.map (·.isCorrect) ++ List.replicate (maxPairs - pairs.length) false
    studentExactPartitionMask := perSamplePairs.map (partitionRow tS (·.sStart))
    teacherExactPartitionMask := perSamplePairs.map (partitionRow tT (·.tStart))
    studentChunkId := perSamplePairs.map (chunkIdRow tS fun p ↦ (p.sStart, p.sEnd))
    teacherChunkId := perSamplePairs.map (chunkIdRow tT fun p ↦ (p.tStart, p.tEnd))
    numChunks := perSamplePairs.map List.length }

def dropWhere {α : Type} (sentinel : α) (mask : List (List ℕ)) (rows : List (List α)) :
    List (List α) :=
  List.zipWith (List.zipWith fun keep x ↦ if keep = 0 then sentinel else x) mask rows

def dropPadding (batch : AlignmentBatch)
    (studentAttentionMask teacherAttentionMask : Option (List (List ℕ))) : AlignmentBatch :=
  let batch := studentAttentionMask.elim batch fun mask ↦
    { batch with
      studentChunkId := dropWhere (-1) mask batch.studentChunkId
      studentExactPartitionMask := dropWhere false mask batch.studentExactPartitionMask }
  teacherAttentionMask.elim batch fun mask ↦
    { batch with
      teacherChunkId := dropWhere (-1) mask batch.teacherChunkId
      teacherExactPartitionMask := dropWhere false mask batch.teacherExactPartitionMask }

variable {Score : Type} (scoring : Scoring Score) (maxCombinationLen : ℕ)

def align (anchorLengths : List ℕ) (tS tT : ℕ)
    (studentTokenLists teacherTokenLists : List (List String))
    (studentAttentionMask teacherAttentionMask : Option (List (List ℕ))) : AlignmentBatch :=
  dropPadding (pairsToBatch (List.zipWith (alignSingle scoring maxCombinationLen anchorLengths)
    studentTokenLists teacherTokenLists) tS tT) studentAttentionMask teacherAttentionMask

end Batch

end NemoRL.XToken.TokenAligner
