import Mathlib
import NemoRL.Foundations.Tilings
import NemoRL.XToken.AlignmentDp

namespace NemoRL.XToken.TokenAligner

open Foundations.Blocks Foundations.Tilings

section Sides

def AlignmentPair.student (p : AlignmentPair) : List String × (ℤ × ℤ) :=
  (p.sTokens, (p.sStart, p.sEnd))

def AlignmentPair.teacher (p : AlignmentPair) : List String × (ℤ × ℤ) :=
  (p.tTokens, (p.tStart, p.tEnd))

def SideFollow (side : AlignmentPair → List String × (ℤ × ℤ)) : ℕ → List AlignmentPair → Prop
  | _, [] => True
  | lo, p :: pairs => SideAt (side p).1 (side p).2.1 (side p).2.2 lo ∧
      SideFollow side (lo + (side p).1.length) pairs

theorem Follow.sides {s t : ℕ} {pairs : List AlignmentPair} (h : Follow s t pairs) :
    SideFollow (·.student) s pairs ∧ SideFollow (·.teacher) t pairs := by
  induction pairs generalizing s t with
  | nil => exact ⟨trivial, trivial⟩
  | cons p pairs ih =>
    obtain ⟨hs, ht, hrest⟩ := h
    obtain ⟨hs', ht'⟩ := ih hrest
    exact ⟨⟨hs, hs'⟩, ht, ht'⟩

variable {side : AlignmentPair → List String × (ℤ × ℤ)} {lo : ℕ} {run : List AlignmentPair}

theorem eq_some_of_getD {o : Option ℤ} {n : ℤ} (h : o.getD (-1) = n) (hn : 0 ≤ n) :
    o = some n := by
  cases o with
  | none =>
    rw [Option.getD_none] at h
    omega
  | some m => exact congrArg some h

theorem spanBounds_cons (span : ℤ × ℤ) {spans : List (ℤ × ℤ)} {a b : ℤ}
    (hmin : (spanBounds spans).1 = a) (hmax : (spanBounds spans).2 = b) (hstart : span.1 ≤ a)
    (hstop : span.2 ≤ b) (ha : 0 ≤ a) (hb : 0 ≤ b) :
    (spanBounds (span :: spans)).1 = span.1 ∧ (spanBounds (span :: spans)).2 = b := by
  simp only [spanBounds, List.map_cons, List.min?_cons, List.max?_cons,
    eq_some_of_getD hmin ha, eq_some_of_getD hmax hb, Option.elim_some, Option.getD_some]
  exact ⟨min_eq_left hstart, max_eq_right hstop⟩

/-- The bounds of spans that follow one another are the first start and the last end. -/
theorem sideAt_spanBounds (h : SideFollow side lo run) :
    SideAt (run.flatMap fun p ↦ (side p).1)
      (spanBounds ((run.filter fun p ↦ (side p).1 ≠ []).map fun p ↦ (side p).2)).1
      (spanBounds ((run.filter fun p ↦ (side p).1 ≠ []).map fun p ↦ (side p).2)).2 lo := by
  induction run generalizing lo with
  | nil => exact .inl ⟨rfl, rfl, rfl⟩
  | cons p run ih =>
    obtain ⟨hp, hrest⟩ := h
    have hbounds := ih hrest
    rw [List.flatMap_cons]
    by_cases hempty : (side p).1 = []
    · rw [List.filter_cons_of_neg (by simp [hempty]), hempty, List.nil_append]
      rw [hempty, List.length_nil, Nat.add_zero] at hbounds
      exact hbounds
    · obtain ⟨hstart, hstop⟩ := hp.length_eq hempty
      have hne : (side p).1 ++ run.flatMap (fun p ↦ (side p).1) ≠ [] := by
        simp [hempty]
      rw [List.filter_cons_of_pos (by simp [hempty]), List.map_cons]
      refine .inr ⟨hne, ?_⟩
      rw [List.length_append]
      rcases hbounds with ⟨hnil, -, -⟩ | ⟨-, hmin, hmax⟩
      · have hnone : run.filter (fun p ↦ (side p).1 ≠ []) = [] := by
          apply List.filter_eq_nil_iff.mpr
          intro q hq
          simpa using List.flatMap_eq_nil_iff.mp hnil q hq
        rw [hnone, hnil]
        simpa [spanBounds] using ⟨hstart, hstop⟩
      · push_cast at hmin hmax
        obtain ⟨hfirst, hlast⟩ := spanBounds_cons (side p).2 hmin hmax (by omega)
          (by omega) (by omega) (by omega)
        rw [hfirst, hlast]
        refine ⟨hstart, ?_⟩
        push_cast
        ring

theorem started_of_mem (h : SideFollow side lo run) {p : AlignmentPair} (hp : p ∈ run)
    (hne : (side p).1 ≠ []) : (side p).2.1 ≠ -1 := by
  induction run generalizing lo with
  | nil => cases hp
  | cons q run ih =>
    rcases List.mem_cons.mp hp with rfl | hp
    · have hstart := (h.1.length_eq hne).1
      omega
    · exact ih h.2 hp

end Sides

section Combine

variable {s t : ℕ} {pairs run : List AlignmentPair}

theorem aligned_combineRun (h : Follow s t run) :
    Aligned s t (run.flatMap (·.sTokens)) (run.flatMap (·.tTokens)) [combineRun run] := by
  obtain ⟨hs, ht⟩ := h.sides
  have hsfilter : run.filter (fun p ↦ p.sTokens ≠ [] ∧ p.sStart ≠ -1) =
      run.filter fun p ↦ p.sTokens ≠ [] := by
    apply List.filter_congr
    intro p hp
    by_cases hne : p.sTokens = []
    · simp [hne]
    · have hstart : p.sStart ≠ -1 := started_of_mem hs hp hne
      simp [hne, hstart]
  have htfilter : run.filter (fun p ↦ p.tTokens ≠ [] ∧ p.tStart ≠ -1) =
      run.filter fun p ↦ p.tTokens ≠ [] := by
    apply List.filter_congr
    intro p hp
    by_cases hne : p.tTokens = []
    · simp [hne]
    · have hstart : p.tStart ≠ -1 := started_of_mem ht hp hne
      simp [hne, hstart]
  refine ⟨⟨?_, ?_, trivial⟩, List.append_nil _, List.append_nil _⟩
  · rw [combineRun, hsfilter]
    exact sideAt_spanBounds hs
  · rw [combineRun, htfilter]
    exact sideAt_spanBounds ht

theorem aligned_replace {pre post out out' : List AlignmentPair} (h : Follow s t (pre ++ post))
    (hout : Aligned s t (pre.flatMap (·.sTokens)) (pre.flatMap (·.tTokens)) out)
    (hout' : Follow (s + (pre.flatMap (·.sTokens)).length) (t + (pre.flatMap (·.tTokens)).length)
      post → Aligned (s + (pre.flatMap (·.sTokens)).length)
        (t + (pre.flatMap (·.tTokens)).length) (post.flatMap (·.sTokens))
        (post.flatMap (·.tTokens)) out') :
    Aligned s t ((pre ++ post).flatMap (·.sTokens)) ((pre ++ post).flatMap (·.tTokens))
      (out ++ out') := by
  rw [List.flatMap_append, List.flatMap_append]
  exact hout.append (hout' (follow_append.mp h).2)

theorem aligned_self (h : Follow s t pairs) :
    Aligned s t (pairs.flatMap (·.sTokens)) (pairs.flatMap (·.tTokens)) pairs := ⟨h, rfl, rfl⟩

theorem aligned_combineFrom (boundary i : ℕ) (h : Follow s t pairs) :
    Aligned s t (pairs.flatMap (·.sTokens)) (pairs.flatMap (·.tTokens))
      (combineFrom boundary i pairs) := by
  induction hn : pairs.length using Nat.strong_induction_on generalizing pairs s t i with
  | _ n ih =>
    cases pairs with
    | nil =>
      rw [combineFrom]
      exact .nil s t
    | cons cur rest =>
      rw [combineFrom]
      split
      · let tail := (rest.take (boundary - (i + 1))).takeWhile (!·.isMatch)
        have hprefix : tail <+: rest := (List.takeWhile_prefix _).trans (List.take_prefix _ _)
        obtain ⟨post, hpost⟩ := hprefix
        have hdrop : rest.drop ((cur :: tail).length - 1) = post := by
          rw [← hpost, List.length_cons, Nat.add_sub_cancel, List.drop_left]
        have hsplit : cur :: rest = (cur :: tail) ++ post := by rw [List.cons_append, hpost]
        show Aligned s t _ _ ([combineRun (cur :: tail)] ++ combineFrom boundary
          (i + (cur :: tail).length) (rest.drop ((cur :: tail).length - 1)))
        rw [hdrop, hsplit]
        rw [hsplit] at h hn
        apply aligned_replace h (aligned_combineRun (follow_append.mp h).1)
        intro hrest
        refine ih post.length ?_ _ hrest rfl
        rw [← hn, List.length_append, List.length_cons]
        omega
      · have hcur : Follow s t [cur] := ⟨h.1, h.2.1, trivial⟩
        show Aligned s t (([cur] ++ rest).flatMap _) (([cur] ++ rest).flatMap _)
          ([cur] ++ combineFrom boundary (i + 1) rest)
        apply aligned_replace h (aligned_self hcur)
        intro hrest
        refine ih rest.length ?_ _ hrest rfl
        rw [← hn, List.length_cons]
        omega

theorem aligned_combine (h : Follow s t pairs) :
    Aligned s t (pairs.flatMap (·.sTokens)) (pairs.flatMap (·.tTokens))
      (combineConsecutiveMisaligned pairs) := by
  rw [combineConsecutiveMisaligned]
  split
  · exact aligned_self h
  · exact aligned_combineFrom _ _ h

end Combine

section Realign

variable {Score : Type} {scoring : Scoring Score} {maxCombinationLen : ℕ} {s t : ℕ}
  {pairs : List AlignmentPair}

def CacheOk (scoring : Scoring Score) (maxCombinationLen : ℕ) (cache : AlignCache) : Prop :=
  ∀ student teacher found, cache.lookup (student, teacher) = some found →
    found.1 = alignDp scoring maxCombinationLen false student teacher

theorem realign_ok {cache : AlignCache} (h : CacheOk scoring maxCombinationLen cache)
    (student teacher : List String) :
    (realign scoring maxCombinationLen cache student teacher).1.1 =
        alignDp scoring maxCombinationLen false student teacher ∧
      CacheOk scoring maxCombinationLen
        (realign scoring maxCombinationLen cache student teacher).2 := by
  rw [realign]
  split
  · rename_i found hfound
    exact ⟨h _ _ _ hfound, h⟩
  · refine ⟨rfl, ?_⟩
    intro student' teacher' found hfound
    rw [List.lookup_cons] at hfound
    split at hfound
    · rename_i hkey
      obtain ⟨rfl, rfl⟩ := Prod.mk.inj (beq_iff_eq.mp hkey)
      obtain rfl := Option.some.inj hfound
      rfl
    · exact h _ _ _ hfound

theorem SideAt.offset {tokens : List String} {start stop : ℤ} {lo : ℕ}
    (h : SideAt tokens start stop lo) {base : ℤ} (hbase : tokens ≠ [] → base = s) :
    SideAt tokens (if start ≠ -1 then base + start else -1)
      (if stop ≠ -1 then base + stop else -1) (s + lo) := by
  rcases h with ⟨hnil, rfl, rfl⟩ | ⟨hne, rfl, rfl⟩
  · exact .inl ⟨hnil, rfl, rfl⟩
  · rw [hbase hne, if_pos (by omega), if_pos (by omega)]
    refine .inr ⟨hne, ?_, ?_⟩ <;> push_cast <;> ring

theorem follow_offset {sub : List AlignmentPair} {a b : ℕ} (h : Follow a b sub) {sBase tBase : ℤ}
    (hs : sub.flatMap (·.sTokens) ≠ [] → sBase = s)
    (ht : sub.flatMap (·.tTokens) ≠ [] → tBase = t) :
    Follow (s + a) (t + b) (sub.map fun sub ↦
      { sTokens := sub.sTokens, tTokens := sub.tTokens,
        sStart := if sub.sStart ≠ -1 then sBase + sub.sStart else -1
        sEnd := if sub.sEnd ≠ -1 then sBase + sub.sEnd else -1
        tStart := if sub.tStart ≠ -1 then tBase + sub.tStart else -1
        tEnd := if sub.tEnd ≠ -1 then tBase + sub.tEnd else -1 }) := by
  induction sub generalizing a b with
  | nil => trivial
  | cons p sub ih =>
    obtain ⟨hps, hpt, hrest⟩ := h
    rw [List.flatMap_cons] at hs ht
    rw [List.map_cons]
    refine ⟨hps.offset fun hne ↦ hs ?_, hpt.offset fun hne ↦ ht ?_, ?_⟩
    · simp [hne]
    · simp [hne]
    · have htail := ih hrest (fun hne ↦ hs (by simp [hne])) fun hne ↦ ht (by simp [hne])
      rw [← Nat.add_assoc, ← Nat.add_assoc] at htail
      exact htail

theorem aligned_realignChunk {cache cache' : AlignCache}
    (hcache : CacheOk scoring maxCombinationLen cache) {chunk out : List AlignmentPair}
    (h : Follow s t chunk)
    (hout : realignChunk scoring maxCombinationLen cache chunk = some (out, cache')) :
    Aligned s t (chunk.flatMap (·.sTokens)) (chunk.flatMap (·.tTokens)) out ∧
      CacheOk scoring maxCombinationLen cache' := by
  obtain ⟨hs, ht⟩ := h.sides
  have hsbounds := sideAt_spanBounds hs
  have htbounds := sideAt_spanBounds ht
  obtain ⟨hsub, hcache'⟩ := realign_ok hcache (chunk.flatMap (·.sTokens))
    (chunk.flatMap (·.tTokens))
  have hdp := aligned_alignDp scoring maxCombinationLen false (chunk.flatMap (·.sTokens))
    (chunk.flatMap (·.tTokens))
  rw [realignChunk] at hout
  dsimp only at hout
  split at hout
  · split at hout
    · obtain ⟨rfl, rfl⟩ := Prod.mk.inj (Option.some.inj hout)
      rw [hsub]
      refine ⟨⟨?_, ?_, ?_⟩, hcache'⟩
      · apply follow_offset hdp.follow
        · intro hne
          rw [hdp.student_eq] at hne
          exact (hsbounds.length_eq hne).1
        · intro hne
          rw [hdp.teacher_eq] at hne
          exact (htbounds.length_eq hne).1
      · rw [List.flatMap_map]
        exact hdp.student_eq
      · rw [List.flatMap_map]
        exact hdp.teacher_eq
    · obtain ⟨rfl, rfl⟩ := Prod.mk.inj (Option.some.inj hout)
      exact ⟨⟨⟨hsbounds, htbounds, trivial⟩, List.append_nil _, List.append_nil _⟩, hcache'⟩
  · cases hout

theorem findChunk_eq_some {cache cache' : AlignCache} {chunkSize : ℕ}
    {out : List AlignmentPair}
    (h : findChunk scoring maxCombinationLen cache pairs = some (chunkSize, out, cache')) :
    0 < chunkSize ∧
      realignChunk scoring maxCombinationLen cache (pairs.take chunkSize) = some (out, cache') := by
  obtain ⟨size, hsize, hmap⟩ := List.exists_of_findSome?_eq_some h
  obtain ⟨found, hfound, heq⟩ := Option.map_eq_some_iff.mp hmap
  obtain ⟨rfl, rfl⟩ := Prod.mk.inj heq
  have hbound := List.mem_range'_1.mp hsize
  exact ⟨by omega, hfound⟩

/-- Realigning keeps the tokens of the pairs and their places, whatever is in the cache. -/
theorem aligned_realignBadSpans {cache : AlignCache}
    (hcache : CacheOk scoring maxCombinationLen cache) (h : Follow s t pairs) :
    Aligned s t (pairs.flatMap (·.sTokens)) (pairs.flatMap (·.tTokens))
      (realignBadSpans scoring maxCombinationLen cache pairs) := by
  induction hn : pairs.length using Nat.strong_induction_on generalizing pairs s t cache with
  | _ n ih =>
    cases pairs with
    | nil =>
      rw [realignBadSpans]
      exact .nil s t
    | cons cur rest =>
      rw [realignBadSpans]
      split
      · rename_i hsplit
        obtain ⟨hne, heq⟩ := splits_eq hsplit
        have hone := aligned_oneToOne cur.sTokens s t
        have hcur := h
        obtain ⟨hs, ht, -⟩ := hcur
        rw [heq] at ht
        rw [(hs.length_eq hne).1, (ht.length_eq hne).1]
        show Aligned s t (([cur] ++ rest).flatMap _) (([cur] ++ rest).flatMap _) _
        apply aligned_replace h
        · rw [List.flatMap_singleton, List.flatMap_singleton, heq]
          exact hone
        · intro hrest
          refine ih rest.length ?_ hcache hrest rfl
          rw [← hn, List.length_cons]
          omega
      · split
        · exact aligned_self h
        · rename_i bad after hbad
          have hsplit := (List.takeWhile_append_dropWhile (p := (·.isMatch)) (l := cur :: rest)).symm
          rw [hbad] at hsplit
          generalize (cur :: rest).takeWhile (·.isMatch) = good at hsplit ⊢
          have hlen : good.length + (after.length + 1) = n := by
            rw [← hn, hsplit, List.length_append, List.length_cons]
          rw [hsplit] at h ⊢
          apply aligned_replace h (aligned_self (follow_append.mp h).1)
          intro hbadfollow
          split
          · rename_i chunkSize out cache' hfound
            obtain ⟨hpos, hchunk⟩ := findChunk_eq_some hfound
            have htake : bad :: after =
                (bad :: after).take chunkSize ++ after.drop (chunkSize - 1) := by
              obtain ⟨size, rfl⟩ := Nat.exists_eq_succ_of_ne_zero hpos.ne'
              rw [List.take_succ_cons, Nat.succ_sub_one, List.cons_append, List.take_append_drop]
            rw [htake] at hbadfollow
            obtain ⟨hout, hcache'⟩ :=
              aligned_realignChunk hcache (follow_append.mp hbadfollow).1 hchunk
            have hwhole := aligned_replace hbadfollow hout fun hrest ↦
              ih (after.drop (chunkSize - 1)).length
                (by rw [List.length_drop]; omega) hcache' hrest rfl
            rw [← htake] at hwhole
            exact hwhole
          · have hcur : Follow _ _ [bad] := ⟨hbadfollow.1, hbadfollow.2.1, trivial⟩
            show Aligned _ _ (([bad] ++ after).flatMap _) (([bad] ++ after).flatMap _)
              ([bad] ++ realignBadSpans scoring maxCombinationLen cache after)
            apply aligned_replace hbadfollow (aligned_self hcur)
            intro hrest
            exact ih after.length (by omega) hcache hrest rfl

variable (scoring maxCombinationLen) in
theorem aligned_postProcess {student teacher : List String} (h : Aligned s t student teacher pairs) :
    Aligned s t student teacher (postProcessAlignment scoring maxCombinationLen pairs) := by
  obtain ⟨hfollow, rfl, rfl⟩ := h
  have hcombined := aligned_combine hfollow
  have hempty : CacheOk scoring maxCombinationLen [] := by
    intro student teacher found hfound
    cases hfound
  have hrealigned := aligned_realignBadSpans hempty hcombined.follow
  rw [hcombined.student_eq, hcombined.teacher_eq] at hrealigned
  exact hrealigned

end Realign

section Canonical

/-- The positions of the merged tokens, from the first that no pattern has taken. -/
theorem tiles_mergeEncodingArtifacts {skip : ℕ} {tokens : List String} (i : ℕ)
    (h : skip ≤ tokens.length) :
    Tiles (i + skip) ((mergeEncodingArtifacts i skip tokens).map Prod.snd)
      (i + tokens.length) := by
  induction tokens generalizing i skip with
  | nil =>
    obtain rfl : skip = 0 := Nat.le_zero.mp h
    rw [mergeEncodingArtifacts]
    exact rfl
  | cons token rest ih =>
    have hend : i + (token :: rest).length = i + 1 + rest.length := by
      rw [List.length_cons]
      omega
    cases skip with
    | succ skip =>
      have htail := ih (i + 1) (Nat.le_of_succ_le_succ h)
      rw [mergeEncodingArtifacts, hend]
      have hstart : i + (skip + 1) = i + 1 + skip := by omega
      rw [hstart]
      exact htail
    | zero =>
      rw [mergeEncodingArtifacts, hend]
      split
      · rename_i pattern replacement hfind
        have hmem := List.mem_of_find?_eq_some hfind
        have hpos : 0 < pattern.length := by
          have hall : ∀ fix ∈ multiTokenArtifactFixes, 0 < fix.1.length := by decide
          exact hall _ hmem
        have hfound := List.find?_some hfind
        have hprefix : pattern <+: token :: rest := List.isPrefixOf_iff_prefix.mp hfound
        have hle := hprefix.length_le
        rw [List.length_cons] at hle
        have htail := ih (i + 1) (by omega : pattern.length - 1 ≤ rest.length)
        have hstart : i + 1 + (pattern.length - 1) = i + pattern.length := by omega
        rw [hstart] at htail
        exact ⟨rfl, by omega, htail⟩
      · exact ⟨rfl, by omega, ih (i + 1) (Nat.zero_le _)⟩

theorem tiles_tryMerge {lo mid : ℕ} {buffer : List (String × (ℕ × ℕ))}
    (h : Tiles lo (buffer.map Prod.snd) mid) :
    Tiles lo ((tryMergeByteBuffer buffer).map Prod.snd) mid := by
  cases buffer with
  | nil => exact h
  | cons first rest =>
    rw [tryMergeByteBuffer]
    split
    · exact h
    · split
      · have hlast : ((first :: rest).getLastD first).2.2 = mid := by
          have hends := Tiles.getLast (d := first.2) h
          rw [← List.map_cons, List.getLastD_map] at hends
          exact hends
        have hlt := h.lt (List.cons_ne_nil _ _)
        refine ⟨h.head, ?_, hlast⟩
        rw [hlast, h.head]
        exact hlt
      · exact h

theorem tiles_mergeConsecutiveBytes {lo hi : ℕ} {buffer l : List (String × (ℕ × ℕ))}
    (h : Tiles lo ((buffer ++ l).map Prod.snd) hi) :
    Tiles lo ((mergeConsecutiveBytes buffer l).map Prod.snd) hi := by
  induction l generalizing lo buffer with
  | nil =>
    rw [List.append_nil] at h
    exact tiles_tryMerge h
  | cons x l ih =>
    obtain ⟨token, rng⟩ := x
    rw [mergeConsecutiveBytes]
    split
    · apply ih
      rwa [List.append_assoc]
    · rw [List.map_append, List.map_cons] at h ⊢
      obtain ⟨mid, hbuffer, hrange, hlt, hrest⟩ := tiles_append.mp h
      exact tiles_append.mpr ⟨mid, tiles_tryMerge hbuffer, hrange, hlt, ih hrest⟩

theorem tiles_canonicalizeSequence (seq : List String) :
    Tiles 0 (canonicalizeSequence seq).2 seq.length ∧
      (canonicalizeSequence seq).1.length = (canonicalizeSequence seq).2.length := by
  have hartifacts := tiles_mergeEncodingArtifacts 0 (Nat.zero_le seq.length)
  rw [Nat.zero_add, Nat.zero_add] at hartifacts
  rw [canonicalizeSequence, List.unzip_eq_map]
  constructor
  · apply tiles_mergeConsecutiveBytes
    rw [List.nil_append, List.map_map]
    exact hartifacts
  · rw [List.length_map, List.length_map]

end Canonical

section Remap

/-- Spans of pairs end to end, a pair without one side being passed over there. -/
def SpansTile (span : AlignmentPair → ℤ × ℤ) : ℤ → List AlignmentPair → ℤ → Prop
  | lo, [], hi => lo = hi
  | lo, p :: pairs, hi => (span p = (-1, -1) ∧ SpansTile span lo pairs hi) ∨
      ((span p).1 = lo ∧ lo < (span p).2 ∧ SpansTile span (span p).2 pairs hi)

theorem spansTile_map {span span' : AlignmentPair → ℤ × ℤ} {f : AlignmentPair → AlignmentPair}
    (hf : ∀ p, span' (f p) = span p) {lo hi : ℤ} {pairs : List AlignmentPair} :
    SpansTile span' lo (pairs.map f) hi ↔ SpansTile span lo pairs hi := by
  induction pairs generalizing lo with
  | nil => rfl
  | cons p pairs ih => simp only [List.map_cons, SpansTile, hf, ih]

variable {side : AlignmentPair → List String × (ℤ × ℤ)} {ranges : List (ℕ × ℕ)} {n : ℕ}

theorem spansTile_remap {bound : ℕ → ℕ}
    (hbound : ∀ k x, ranges[k]? = some x → x = (bound k, bound (k + 1)) ∧ bound k < bound (k + 1))
    {lo : ℕ} {pairs : List AlignmentPair} (h : SideFollow side lo pairs)
    (hlen : lo + (pairs.flatMap fun p ↦ (side p).1).length ≤ ranges.length) :
    SpansTile (fun p ↦ remapSide ranges (side p).2.1 (side p).2.2) (bound lo) pairs
      (bound (lo + (pairs.flatMap fun p ↦ (side p).1).length)) := by
  induction pairs generalizing lo with
  | nil => exact rfl
  | cons p pairs ih =>
    obtain ⟨hp, hrest⟩ := h
    rw [List.flatMap_cons, List.length_append, ← Nat.add_assoc] at hlen ⊢
    have htail := ih hrest hlen
    rcases hp with ⟨hnil, hstart, hstop⟩ | ⟨hne, hstart, hstop⟩
    · left
      rw [hnil, List.length_nil, Nat.add_zero] at htail ⊢
      refine ⟨?_, htail⟩
      show remapSide _ _ _ = _
      rw [remapSide, if_neg (by omega), hstart, hstop]
    · right
      have hpos := List.length_pos_iff.mpr hne
      have hget : ∀ k < ranges.length, ranges.getD k (0, 0) = (bound k, bound (k + 1)) := by
        intro k hk
        rw [List.getD_eq_getElem _ _ hk]
        exact (hbound k _ (List.getElem?_eq_getElem hk)).1
      have hlast : lo + (side p).1.length - 1 + 1 = lo + (side p).1.length := by omega
      have hremap : remapSide ranges (side p).2.1 (side p).2.2 =
          ((bound lo : ℤ), (bound (lo + (side p).1.length) : ℤ)) := by
        have hsecond : ((side p).2.2 - 1).toNat = lo + (side p).1.length - 1 := by omega
        rw [remapSide, if_pos (by omega), hsecond, hstart, Int.toNat_natCast,
          hget lo (by omega), hget _ (by omega), hlast]
      have hlt : bound lo < bound (lo + (side p).1.length) := by
        apply bound_lt (n := ranges.length)
        · intro k hk
          exact (hbound k _ (List.getElem?_eq_getElem hk)).2
        · omega
        · omega
      show (remapSide _ _ _).1 = _ ∧ _ < (remapSide _ _ _).2 ∧ SpansTile _ (remapSide _ _ _).2 _ _
      rw [hremap]
      exact ⟨rfl, Int.ofNat_lt.mpr hlt, htail⟩

/-- One side of an alignment of the canonical tokens covers the original tokens. -/
theorem spansTile_canonical {seq : List String} {pairs : List AlignmentPair}
    (h : SideFollow side 0 pairs)
    (htokens : (pairs.flatMap fun p ↦ (side p).1) = (canonicalizeSequence seq).1) :
    SpansTile (fun p ↦ remapSide (canonicalizeSequence seq).2 (side p).2.1 (side p).2.2) 0 pairs
      seq.length := by
  obtain ⟨htiles, hlen⟩ := tiles_canonicalizeSequence seq
  obtain ⟨bound, hzero, hlast, hbound⟩ := htiles.exists_bound
  have hspans := spansTile_remap hbound h (by rw [htokens, hlen, Nat.zero_add])
  rw [htokens, hlen, Nat.zero_add, hlast, hzero] at hspans
  exact hspans

end Remap

section Single

variable {Score : Type} (scoring : Scoring Score) (maxCombinationLen : ℕ)

/-- The pairs of one sample cover the student tokens in order, and the teacher tokens. -/
theorem spansTile_alignSingle {anchorLengths : List ℕ} (hpos : ∀ k ∈ anchorLengths, 0 < k)
    (studentTokens teacherTokens : List String) :
    SpansTile (fun p ↦ (p.sStart, p.sEnd)) 0
        (alignSingle scoring maxCombinationLen anchorLengths studentTokens teacherTokens)
        studentTokens.length ∧
      SpansTile (fun p ↦ (p.tStart, p.tEnd)) 0
        (alignSingle scoring maxCombinationLen anchorLengths studentTokens teacherTokens)
        teacherTokens.length := by
  have haligned := aligned_postProcess scoring maxCombinationLen
    (aligned_alignWithAnchors (canonicalizeSequence studentTokens).1
      (canonicalizeSequence teacherTokens).1 scoring maxCombinationLen false hpos)
  obtain ⟨hs, ht⟩ := haligned.follow.sides
  rw [alignSingle, remapPairsToOriginal, List.map_map]
  constructor
  · exact (spansTile_map fun p ↦ rfl).mpr (spansTile_canonical hs haligned.student_eq)
  · exact (spansTile_map fun p ↦ rfl).mpr (spansTile_canonical ht haligned.teacher_eq)

end Single

end NemoRL.XToken.TokenAligner
