import Mathlib
import NemoRL.Foundations.Blocks
import NemoRL.Foundations.Positions
import NemoRL.XToken.TeacherLogits

namespace NemoRL.XToken.TeacherLogits

open Foundations.Blocks Foundations.Positions

variable {α β Payload : Type} {storage : Payload → Storage α} {toFloat32 : α → β}

def Handle.Covers (h : Handle Payload) (t v : ℕ) : Prop :=
  h.globalSeqStart ≤ t ∧ t < h.globalSeqStart + h.actualShape.1 ∧
    h.vocabStartIndex ≤ v ∧ v < h.vocabEndIndex

instance (h : Handle Payload) (t v : ℕ) : Decidable (h.Covers t v) :=
  inferInstanceAs (Decidable (_ ∧ _))

/-- A shard of one sample, its window in a slot of the storage. -/
structure Handle.Holds (storage : Payload → Storage α) (teacher : ℕ → ℕ → α)
    (fullSeqLen fullVocabSize : ℕ) (h : Handle Payload) : Prop where
  fullSeqLen_eq : h.fullSeqLen = fullSeqLen
  fullVocabSize_eq : h.fullVocabSize = fullVocabSize
  seq_le : h.globalSeqStart + h.actualShape.1 ≤ fullSeqLen
  vocabStart_le : h.vocabStartIndex ≤ h.vocabEndIndex
  vocabEnd_le : h.vocabEndIndex ≤ fullVocabSize
  vocab_eq : h.actualShape.2 = h.vocabEndIndex - h.vocabStartIndex
  bufIdx_lt : h.bufIdx < (storage h.payloadIpc).slots
  sample_lt : h.sampleIndexInBuf < (storage h.payloadIpc).samples
  rows_le : h.actualShape.1 ≤ (storage h.payloadIpc).rows
  cols_le : h.actualShape.2 ≤ (storage h.payloadIpc).cols
  entry_eq : ∀ t < h.actualShape.1, ∀ v < h.actualShape.2,
    (storage h.payloadIpc).entry h.bufIdx h.sampleIndexInBuf t v =
      teacher (h.globalSeqStart + t) (h.vocabStartIndex + v)

/-- The shards of one sample, whose windows tile its full logits. -/
structure Tiles (storage : Payload → Storage α) (teacher : ℕ → ℕ → α)
    (fullSeqLen fullVocabSize : ℕ) (shards : List (Handle Payload)) : Prop where
  nonempty : shards ≠ []
  holds : ∀ h ∈ shards, h.Holds storage teacher fullSeqLen fullVocabSize
  covered : ∀ t < fullSeqLen, ∀ v < fullVocabSize,
    (shards.countP fun h ↦ h.Covers t v) = 1

section Tensors

theorem Slice.clip_of_le {s : Slice} {n : ℕ} (hle : s.start ≤ s.stop) (hn : s.stop ≤ n) :
    s.clip n = s := by
  rw [Slice.clip, Nat.min_eq_left (hle.trans hn), Nat.min_eq_left hn]

theorem Tensor2.slice_eq {t : Tensor2 α} {r c : Slice} (hr : r.start ≤ r.stop)
    (hrows : r.stop ≤ t.rows) (hc : c.start ≤ c.stop) (hcols : c.stop ≤ t.cols) :
    t.slice r c = ⟨r.stop - r.start, c.stop - c.start,
      fun i j ↦ t.entry (r.start + i) (c.start + j)⟩ := by
  rw [Tensor2.slice, Slice.clip_of_le hr hrows, Slice.clip_of_le hc hcols]

theorem Tensor2.assign_eq {t src : Tensor2 α} {r c : Slice} (hr : r.start ≤ r.stop)
    (hrows : r.stop ≤ t.rows) (hc : c.start ≤ c.stop) (hcols : c.stop ≤ t.cols)
    (hsrows : src.rows = r.stop - r.start) (hscols : src.cols = c.stop - c.start) :
    t.assign r c src = .ok ⟨t.rows, t.cols, fun i j ↦ if r.Has i ∧ c.Has j then
      src.entry (i - r.start) (j - c.start) else t.entry i j⟩ := by
  rw [Tensor2.assign, Slice.clip_of_le hr hrows, Slice.clip_of_le hc hcols,
    if_pos ⟨.inl hsrows, .inl hscols⟩]
  congr 2
  funext i j
  by_cases h : r.Has i ∧ c.Has j
  · have hrow : (if src.rows = 1 then 0 else i - r.start) = i - r.start := by
      have hi := h.1
      unfold Slice.Has at hi
      split <;> omega
    have hcol : (if src.cols = 1 then 0 else j - c.start) = j - c.start := by
      have hj := h.2
      unfold Slice.Has at hj
      split <;> omega
    rw [if_pos h, if_pos h, hrow, hcol]
  · rw [if_neg h, if_neg h]

end Tensors

section Matches

variable {teacher : ℕ → ℕ → α} {fullSeqLen fullVocabSize rank size : ℕ}
  {shards : List (Handle Payload)}

theorem rank_mul_div (hdiv : fullSeqLen % size = 0) (rank : ℕ) :
    rank * fullSeqLen / size = rank * (fullSeqLen / size) :=
  Nat.mul_div_assoc rank (Nat.dvd_of_mod_eq_zero hdiv)

def Handle.toMatch (h : Handle Payload) (start stop : ℕ) : Match Payload :=
  { handle := h
    srcSeq := ⟨max start h.globalSeqStart - h.globalSeqStart,
      min stop (h.globalSeqStart + h.actualShape.1) - h.globalSeqStart⟩
    srcVocab := ⟨0, h.vocabEndIndex - h.vocabStartIndex⟩
    destSeq := ⟨max start h.globalSeqStart - start,
      min stop (h.globalSeqStart + h.actualShape.1) - start⟩
    destVocab := ⟨h.vocabStartIndex, h.vocabEndIndex⟩ }

theorem collect_eq (shards : List (Handle Payload)) (rank size fullSeqLen : ℕ) :
    collectOverlappingTeacherShards shards rank size fullSeqLen = shards.filterMap fun h ↦
      if min ((rank + 1) * fullSeqLen / size) (h.globalSeqStart + h.actualShape.1) ≤
          max (rank * fullSeqLen / size) h.globalSeqStart then none
      else some (h.toMatch (rank * fullSeqLen / size) ((rank + 1) * fullSeqLen / size)) := rfl

theorem mem_collect {m : Match Payload}
    (hm : m ∈ collectOverlappingTeacherShards shards rank size fullSeqLen) :
    ∃ h ∈ shards, m = h.toMatch (rank * fullSeqLen / size) ((rank + 1) * fullSeqLen / size) ∧
      max (rank * fullSeqLen / size) h.globalSeqStart <
        min ((rank + 1) * fullSeqLen / size) (h.globalSeqStart + h.actualShape.1) := by
  rw [collect_eq] at hm
  obtain ⟨h, hh, hmatch⟩ := List.mem_filterMap.mp hm
  split at hmatch
  · cases hmatch
  · exact ⟨h, hh, (Option.some.inj hmatch).symm, Nat.lt_of_not_le ‹_›⟩

theorem toMatch_has (h : Handle Payload) {start stop i : ℕ} (hi : start + i < stop) (v : ℕ) :
    (h.toMatch start stop).destSeq.Has i ∧ (h.toMatch start stop).destVocab.Has v ↔
      h.Covers (start + i) v := by
  simp only [Handle.toMatch, Slice.Has, Handle.Covers]
  omega

/-- What makes the write of a match stay inside of its source and its destination. -/
structure Match.Fits (m : Match Payload) (rows cols : ℕ) : Prop where
  srcSeq_le : m.srcSeq.stop ≤ m.handle.actualShape.1
  srcVocab_le : m.srcVocab.stop ≤ m.handle.actualShape.2
  destSeq_le : m.destSeq.stop ≤ rows
  destVocab_le : m.destVocab.stop ≤ cols
  seq_size : m.srcSeq.stop - m.srcSeq.start = m.destSeq.stop - m.destSeq.start
  vocab_size : m.srcVocab.stop - m.srcVocab.start = m.destVocab.stop - m.destVocab.start

theorem toMatch_fits {h : Handle Payload} (hh : h.Holds storage teacher fullSeqLen fullVocabSize)
    {start n : ℕ} (hover : max start h.globalSeqStart <
      min (start + n) (h.globalSeqStart + h.actualShape.1)) :
    (h.toMatch start (start + n)).Fits n fullVocabSize := by
  have hshape := hh.vocab_eq
  have hend := hh.vocabEnd_le
  constructor <;> simp only [Handle.toMatch] <;> omega

theorem countP_collect (ht : Tiles storage teacher fullSeqLen fullVocabSize shards)
    (hdiv : fullSeqLen % size = 0) (hrank : rank < size) {i v : ℕ} (hi : i < fullSeqLen / size)
    (hv : v < fullVocabSize) :
    ((collectOverlappingTeacherShards shards rank size fullSeqLen).countP fun m ↦
      m.destSeq.Has i ∧ m.destVocab.Has v) = 1 := by
  have hnext : (rank + 1) * (fullSeqLen / size) ≤ fullSeqLen := by
    calc _ ≤ size * (fullSeqLen / size) := Nat.mul_le_mul_right _ hrank
      _ = fullSeqLen := Nat.mul_div_cancel' (Nat.dvd_of_mod_eq_zero hdiv)
  rw [Nat.succ_mul] at hnext
  rw [collect_eq, rank_mul_div hdiv, rank_mul_div hdiv, Nat.succ_mul]
  generalize fullSeqLen / size = n at hi hnext ⊢
  rw [← ht.covered (rank * n + i) (by omega) v hv, List.countP_filterMap]
  apply List.countP_congr
  intro h _
  by_cases hover : min (rank * n + n) (h.globalSeqStart + h.actualShape.1) ≤
      max (rank * n) h.globalSeqStart
  · rw [if_pos hover]
    rw [Option.map_none, Option.getD_none, decide_eq_true_eq, Handle.Covers]
    simp only [Bool.false_eq_true, false_iff]
    omega
  · rw [if_neg hover, Option.map_some, Option.getD_some, decide_eq_true_eq, decide_eq_true_eq]
    exact toMatch_has h (by omega) v

end Matches

section Assembly

variable {teacher : ℕ → ℕ → α} {fullSeqLen fullVocabSize rank size : ℕ}
  {shards : List (Handle Payload)}

theorem readShard_ok {h : Handle Payload} (hh : h.Holds storage teacher fullSeqLen fullVocabSize) :
    ∃ src, readShard storage h = .ok src ∧ src.rows = h.actualShape.1 ∧
      src.cols = h.actualShape.2 ∧ ∀ t < h.actualShape.1, ∀ v < h.actualShape.2,
        src.entry t v = teacher (h.globalSeqStart + t) (h.vocabStartIndex + v) := by
  refine ⟨_, if_pos ⟨hh.bufIdx_lt, hh.sample_lt⟩, ?_, ?_, ?_⟩
  · simp [Tensor2.slice, Slice.clip, hh.rows_le]
  · simp [Tensor2.slice, Slice.clip, hh.cols_le]
  · intro t ht v hv
    simpa [Tensor2.slice, Slice.clip] using hh.entry_eq t ht v hv

variable (toFloat32) in
/-- Writing a match changes the places that its shard covers, to what the teacher has there. -/
theorem writeMatch_ok {h : Handle Payload}
    (hh : h.Holds storage teacher fullSeqLen fullVocabSize) {start n : ℕ}
    (hover : max start h.globalSeqStart <
      min (start + n) (h.globalSeqStart + h.actualShape.1))
    {dest : Tensor2 β} (hrows : dest.rows = n) (hcols : dest.cols = fullVocabSize) :
    ∃ dest', writeMatch storage toFloat32 dest (h.toMatch start (start + n)) = .ok dest' ∧
      dest'.rows = n ∧ dest'.cols = fullVocabSize ∧ ∀ i < n, ∀ v < fullVocabSize,
        dest'.entry i v = if h.Covers (start + i) v then toFloat32 (teacher (start + i) v)
          else dest.entry i v := by
  obtain ⟨src, hsrc, hsrows, hscols, hentry⟩ := readShard_ok hh
  have hvocab := hh.vocab_eq
  have hstart := hh.vocabStart_le
  have hfits := toMatch_fits hh hover
  have hsource : (h.toMatch start (start + n)).srcSeq.start ≤
      (h.toMatch start (start + n)).srcSeq.stop := by
    simp only [Handle.toMatch]
    omega
  have hdest : (h.toMatch start (start + n)).destSeq.start ≤
      (h.toMatch start (start + n)).destSeq.stop := by
    simp only [Handle.toMatch]
    omega
  have hpart := Tensor2.slice_eq (t := src) hsource (hfits.srcSeq_le.trans hsrows.ge)
    (Nat.zero_le _) (hfits.srcVocab_le.trans hscols.ge)
  let m := h.toMatch start (start + n)
  let part : Tensor2 β := ⟨m.srcSeq.stop - m.srcSeq.start, m.srcVocab.stop - m.srcVocab.start,
    fun i j ↦ toFloat32 (src.entry (m.srcSeq.start + i) (m.srcVocab.start + j))⟩
  have hprows : part.rows = m.destSeq.stop - m.destSeq.start := hfits.seq_size
  have hpcols : part.cols = m.destVocab.stop - m.destVocab.start := hfits.vocab_size
  have hassign := Tensor2.assign_eq hdest (hfits.destSeq_le.trans hrows.ge) hstart
    (hfits.destVocab_le.trans hcols.ge) hprows hpcols
  refine ⟨⟨dest.rows, dest.cols, fun i v ↦ if m.destSeq.Has i ∧ m.destVocab.Has v then
    part.entry (i - m.destSeq.start) (v - m.destVocab.start) else dest.entry i v⟩, ?_, hrows,
    hcols, ?_⟩
  · rw [writeMatch]
    dsimp only [bind, Except.bind]
    rw [show readShard storage (h.toMatch start (start + n)).handle = .ok src from hsrc]
    dsimp only
    rw [hpart]
    exact hassign
  · intro i hi v hv
    have hcovers := toMatch_has h (by omega : start + i < start + n) v
    dsimp only
    by_cases hc : h.Covers (start + i) v
    · rw [if_pos hc, if_pos (hcovers.mpr hc)]
      obtain ⟨hlo, hhi, hvlo, hvhi⟩ := hc
      simp only [part, m, Handle.toMatch]
      rw [hentry _ (by omega) _ (by omega)]
      congr 2 <;> omega
    · rw [if_neg hc, if_neg fun hm ↦ hc (hcovers.mp hm)]

variable (toFloat32) in
theorem foldlM_writeMatch {start n : ℕ} {hs : List (Handle Payload)}
    (hholds : ∀ h ∈ hs, h.Holds storage teacher fullSeqLen fullVocabSize)
    (hover : ∀ h ∈ hs, max start h.globalSeqStart <
      min (start + n) (h.globalSeqStart + h.actualShape.1))
    {dest : Tensor2 β} (hrows : dest.rows = n) (hcols : dest.cols = fullVocabSize) :
    ∃ dest', (hs.map (·.toMatch start (start + n))).foldlM (writeMatch storage toFloat32) dest =
        .ok dest' ∧ dest'.rows = n ∧ dest'.cols = fullVocabSize ∧
      ∀ i < n, ∀ v < fullVocabSize, dest'.entry i v =
        if ∃ h ∈ hs, h.Covers (start + i) v then toFloat32 (teacher (start + i) v)
          else dest.entry i v := by
  induction hs generalizing dest with
  | nil =>
    refine ⟨dest, rfl, hrows, hcols, ?_⟩
    intro i hi v hv
    simp
  | cons h hs ih =>
    obtain ⟨hh, hholds⟩ := List.forall_mem_cons.mp hholds
    obtain ⟨ho, hover⟩ := List.forall_mem_cons.mp hover
    obtain ⟨mid, hmid, hmrows, hmcols, hment⟩ :=
      writeMatch_ok toFloat32 hh ho hrows hcols
    obtain ⟨dest', hok, hrows', hcols', hentry⟩ := ih hholds hover hmrows hmcols
    refine ⟨dest', ?_, hrows', hcols', ?_⟩
    · rw [List.map_cons, List.foldlM_cons, hmid]
      exact hok
    · intro i hi v hv
      rw [hentry i hi v hv, hment i hi v hv]
      by_cases hrest : ∃ h ∈ hs, h.Covers (start + i) v
      · rw [if_pos hrest, if_pos]
        obtain ⟨h', hmem, hc⟩ := hrest
        exact ⟨h', List.mem_cons_of_mem _ hmem, hc⟩
      · rw [if_neg hrest]
        by_cases hc : h.Covers (start + i) v
        · rw [if_pos hc, if_pos ⟨h, List.mem_cons_self, hc⟩]
        · rw [if_neg hc, if_neg]
          rintro ⟨h', hmem, hc'⟩
          rcases List.mem_cons.mp hmem with rfl | hmem
          · exact hc hc'
          · exact hrest ⟨h', hmem, hc'⟩

theorem collect_eq_map (hdiv : fullSeqLen % size = 0) (shards : List (Handle Payload))
    (rank : ℕ) :
    collectOverlappingTeacherShards shards rank size fullSeqLen =
      (shards.filter fun h ↦ max (rank * (fullSeqLen / size)) h.globalSeqStart <
        min (rank * (fullSeqLen / size) + fullSeqLen / size)
          (h.globalSeqStart + h.actualShape.1)).map
        (·.toMatch (rank * (fullSeqLen / size))
          (rank * (fullSeqLen / size) + fullSeqLen / size)) := by
  rw [collect_eq, rank_mul_div hdiv, rank_mul_div hdiv, Nat.succ_mul, ← List.filterMap_eq_map,
    List.filterMap_filter]
  apply List.filterMap_congr
  intro h _
  by_cases hover : max (rank * (fullSeqLen / size)) h.globalSeqStart <
      min (rank * (fullSeqLen / size) + fullSeqLen / size) (h.globalSeqStart + h.actualShape.1)
  · rw [if_neg (Nat.not_le_of_lt hover), if_pos (decide_eq_true hover)]
    rfl
  · rw [if_pos (Nat.le_of_not_lt hover), if_neg (by simpa using hover)]

variable (toFloat32) in
theorem assemble_ok [Zero β] (ht : Tiles storage teacher fullSeqLen fullVocabSize shards)
    (hdiv : fullSeqLen % size = 0) (hrank : rank < size) :
    ∃ dest, assembleTeacherLogitsFromShards storage toFloat32 shards rank size = .ok dest ∧
      dest.rows = fullSeqLen / size ∧ dest.cols = fullVocabSize ∧
      ∀ i < fullSeqLen / size, ∀ v < fullVocabSize,
        dest.entry i v = toFloat32 (teacher (rank * (fullSeqLen / size) + i) v) := by
  have hnext : (rank + 1) * (fullSeqLen / size) ≤ fullSeqLen := by
    calc _ ≤ size * (fullSeqLen / size) := Nat.mul_le_mul_right _ hrank
      _ = fullSeqLen := Nat.mul_div_cancel' (Nat.dvd_of_mod_eq_zero hdiv)
  rw [Nat.succ_mul] at hnext
  let overlapping := shards.filter fun h ↦ max (rank * (fullSeqLen / size)) h.globalSeqStart <
    min (rank * (fullSeqLen / size) + fullSeqLen / size) (h.globalSeqStart + h.actualShape.1)
  have hholds : ∀ h ∈ overlapping, h.Holds storage teacher fullSeqLen fullVocabSize := by
    intro h hmem
    exact ht.holds h (List.mem_filter.mp hmem).1
  have hover : ∀ h ∈ overlapping, max (rank * (fullSeqLen / size)) h.globalSeqStart <
      min (rank * (fullSeqLen / size) + fullSeqLen / size)
        (h.globalSeqStart + h.actualShape.1) := by
    intro h hmem
    exact of_decide_eq_true (List.mem_filter.mp hmem).2
  let zeros : Tensor2 β := ⟨fullSeqLen / size, fullVocabSize, fun _ _ ↦ 0⟩
  obtain ⟨dest, hok, hrows, hcols, hentry⟩ :=
    foldlM_writeMatch toFloat32 hholds hover (rfl : zeros.rows = _) (rfl : zeros.cols = _)
  refine ⟨dest, ?_, hrows, hcols, ?_⟩
  · cases shards with
    | nil => exact absurd rfl ht.nonempty
    | cons first rest =>
      have hfirst := ht.holds first List.mem_cons_self
      rw [assembleTeacherLogitsFromShards, hfirst.fullSeqLen_eq, hfirst.fullVocabSize_eq,
        if_neg (not_not.mpr hdiv), collect_eq_map hdiv]
      exact hok
  · intro i hi v hv
    rw [hentry i hi v hv, if_pos]
    have hone := ht.covered (rank * (fullSeqLen / size) + i)
      (lt_of_lt_of_le (Nat.add_lt_add_left hi _) hnext) v hv
    obtain ⟨h, hmem, hcov⟩ := List.countP_pos_iff.mp (hone ▸ Nat.one_pos)
    have hcovers : h.Covers (rank * (fullSeqLen / size) + i) v := of_decide_eq_true hcov
    refine ⟨h, List.mem_filter.mpr ⟨hmem, decide_eq_true ?_⟩, hcovers⟩
    obtain ⟨hlo, hhi, -, -⟩ := hcovers
    generalize fullSeqLen / size = n at *
    omega

end Assembly

section Batches

variable {fullSeqLen fullVocabSize rank size : ℕ} {teacher : ℕ → ℕ → ℕ → α}
  {entries : List (List (Handle Payload))}

theorem only_eq_some {γ : Type*} {l : List γ} {a : γ} (h : only l = some a) : l = [a] := by
  match l with
  | [] => cases h
  | [b] =>
    obtain rfl := Option.some.inj h
    rfl
  | _ :: _ :: _ => cases h

theorem chosen_holds {teacher : ℕ → ℕ → α} {shards : List (Handle Payload)} {h : Handle Payload}
    (ht : Tiles storage teacher fullSeqLen fullVocabSize shards) {start stop : ℕ}
    (hchosen : only (covering shards fullVocabSize start stop) = some h) :
    h.Holds storage teacher fullSeqLen fullVocabSize ∧ h.vocabStartIndex = 0 ∧
      h.vocabEndIndex = fullVocabSize ∧ h.globalSeqStart ≤ start ∧
      stop ≤ h.globalSeqStart + h.actualShape.1 := by
  have hmem : h ∈ covering shards fullVocabSize start stop := by
    rw [only_eq_some hchosen]
    exact List.mem_singleton_self h
  obtain ⟨hshard, hcond⟩ := List.mem_filter.mp hmem
  exact ⟨ht.holds h hshard, of_decide_eq_true hcond⟩

theorem readSlab_ok {h₀ : Handle Payload} {chosen : List (Handle Payload)} {start n : ℕ}
    (hne : 0 < chosen.length)
    (hchosen : ∀ i (hi : i < chosen.length),
      chosen[i].Holds storage (teacher i) fullSeqLen fullVocabSize ∧
        chosen[i].vocabStartIndex = 0 ∧ chosen[i].vocabEndIndex = fullVocabSize ∧
        chosen[i].globalSeqStart ≤ start ∧
        start + n ≤ chosen[i].globalSeqStart + chosen[i].actualShape.1)
    (hrow : ∀ i (hi : i < chosen.length), chosen[i].payloadIpc = h₀.payloadIpc ∧
      chosen[i].bufIdx = h₀.bufIdx ∧ chosen[i].sampleIndexInBuf = i ∧
      chosen[i].globalSeqStart = h₀.globalSeqStart) :
    ∃ view, readSlab storage h₀ chosen.length
        ⟨start - h₀.globalSeqStart, start + n - h₀.globalSeqStart⟩ fullVocabSize = .ok view ∧
      view.batch = chosen.length ∧ view.rows = n ∧ view.cols = fullVocabSize ∧
      ∀ i < chosen.length, ∀ t < n, ∀ v < fullVocabSize,
        view.entry i t v = teacher i (start + t) v := by
  have hslot : ∀ i (hi : i < chosen.length), h₀.bufIdx < (storage h₀.payloadIpc).slots ∧
      i < (storage h₀.payloadIpc).samples ∧ h₀.globalSeqStart ≤ start ∧
      start + n - h₀.globalSeqStart ≤ (storage h₀.payloadIpc).rows ∧
      fullVocabSize ≤ (storage h₀.payloadIpc).cols := by
    intro i hi
    obtain ⟨hholds, hvstart, hvend, hstart, hstop⟩ := hchosen i hi
    obtain ⟨hpayload, hbuf, hsample, hseq⟩ := hrow i hi
    have hslots := hholds.bufIdx_lt
    have hsamples := hholds.sample_lt
    have hrows := hholds.rows_le
    have hcols := hholds.cols_le
    rw [hholds.vocab_eq, hvstart, hvend] at hcols
    rw [hpayload] at hslots hsamples hrows hcols
    omega
  obtain ⟨hbuf, -, hstart, hrows, hcols⟩ := hslot 0 hne
  have hsamples : chosen.length ≤ (storage h₀.payloadIpc).samples := by
    have hlast := (hslot (chosen.length - 1) (by omega)).2.1
    omega
  rw [readSlab]
  dsimp only
  rw [if_pos hbuf, Slice.clip_of_le (by dsimp only; omega) hrows]
  refine ⟨_, rfl, ?_, ?_, ?_, ?_⟩
  · exact Nat.min_eq_left hsamples
  · dsimp only
    omega
  · exact Nat.min_eq_left hcols
  · intro i hi t ht v hv
    obtain ⟨hholds, hvstart, hvend, hlo, hhi⟩ := hchosen i hi
    obtain ⟨hpayload, hbufi, hsample, hseq⟩ := hrow i hi
    have hvocab := hholds.vocab_eq
    have hentry := hholds.entry_eq (start - h₀.globalSeqStart + t) (by omega) v (by omega)
    rw [hpayload, hbufi, hsample, hseq, hvstart, Nat.zero_add] at hentry
    have hplace : h₀.globalSeqStart + (start - h₀.globalSeqStart + t) = start + t := by omega
    rw [hplace] at hentry
    exact hentry

variable (rank) in
theorem tryZeroCopy_ok [DecidableEq Payload]
    (ht : ∀ i shards, entries[i]? = some shards →
      Tiles storage (teacher i) fullSeqLen fullVocabSize shards)
    (hdiv : fullSeqLen % size = 0) :
    tryZeroCopyTeacherLogits storage entries rank size = .ok none ∨
      ∃ view, tryZeroCopyTeacherLogits storage entries rank size = .ok (some view) ∧
        view.batch = entries.length ∧ view.rows = fullSeqLen / size ∧
        view.cols = fullVocabSize ∧
        ∀ i < entries.length, ∀ t < fullSeqLen / size, ∀ v < fullVocabSize,
          view.entry i t v = teacher i (rank * (fullSeqLen / size) + t) v := by
  rw [tryZeroCopyTeacherLogits]
  cases hfirst : entries.head?.bind List.head? with
  | none => exact .inl rfl
  | some first =>
    obtain ⟨shards, hshards, hhead⟩ := Option.bind_eq_some_iff.mp hfirst
    have hzero : entries[0]? = some shards := by rw [← List.head?_eq_getElem?, hshards]
    have hholds := (ht 0 shards hzero).holds first (List.mem_of_mem_head? hhead)
    dsimp only
    rw [hholds.fullSeqLen_eq, hholds.fullVocabSize_eq, rank_mul_div hdiv, rank_mul_div hdiv,
      Nat.succ_mul]
    generalize fullSeqLen / size = n
    split
    · rename_i h₀ chosen hmapM
      have hall := forall₂_of_mapM hmapM
      have hget : ∀ i (hi : i < (h₀ :: chosen).length),
          ((h₀ :: chosen)[i]).Holds storage (teacher i) fullSeqLen fullVocabSize ∧
            (h₀ :: chosen)[i].vocabStartIndex = 0 ∧
            (h₀ :: chosen)[i].vocabEndIndex = fullVocabSize ∧
            (h₀ :: chosen)[i].globalSeqStart ≤ rank * n ∧
            rank * n + n ≤ (h₀ :: chosen)[i].globalSeqStart + (h₀ :: chosen)[i].actualShape.1 := by
        intro i hi
        have hi' : i < entries.length := hall.length_eq ▸ hi
        exact chosen_holds (ht i _ (List.getElem?_eq_getElem hi'))
          ((List.forall₂_iff_get.mp hall).2 i hi' hi)
      split
      · rename_i hslab
        right
        have hrow : ∀ i (hi : i < (h₀ :: chosen).length),
            (h₀ :: chosen)[i].payloadIpc = h₀.payloadIpc ∧
              (h₀ :: chosen)[i].bufIdx = h₀.bufIdx ∧
              (h₀ :: chosen)[i].sampleIndexInBuf = i ∧
              (h₀ :: chosen)[i].globalSeqStart = h₀.globalSeqStart := by
          intro i hi
          have hmem : ((h₀ :: chosen)[i], i) ∈ (h₀ :: chosen).zipIdx := by
            rw [List.mem_zipIdx_iff_getElem?]
            exact List.getElem?_eq_getElem hi
          exact of_decide_eq_true (List.all_eq_true.mp hslab _ hmem)
        obtain ⟨view, hview, hbatch, hrest⟩ :=
          readSlab_ok (List.length_pos_of_ne_nil (List.cons_ne_nil h₀ chosen)) hget hrow
        rw [hview]
        rw [← hall.length_eq] at hbatch hrest
        exact ⟨view, rfl, hbatch, hrest⟩
      · exact .inl rfl
    · exact .inl rfl

theorem stack_ok [Zero β] (toFloat32 : α → β) (hne : entries ≠ [])
    (ht : ∀ i shards, entries[i]? = some shards →
      Tiles storage (teacher i) fullSeqLen fullVocabSize shards)
    (hdiv : fullSeqLen % size = 0) (hrank : rank < size) :
    ∃ rebuilt stacked,
      (entries.mapM fun shards ↦
        assembleTeacherLogitsFromShards storage toFloat32 shards rank size) = .ok rebuilt ∧
      stack rebuilt = .ok stacked ∧ stacked.batch = entries.length ∧
      stacked.rows = fullSeqLen / size ∧ stacked.cols = fullVocabSize ∧
      ∀ i < entries.length, ∀ t < fullSeqLen / size, ∀ v < fullVocabSize,
        stacked.entry i t v = toFloat32 (teacher i (rank * (fullSeqLen / size) + t) v) := by
  -- The samples with their places, so that each is read against its own teacher logits.
  have hassemble : ∀ x ∈ entries.zipIdx, ∃ dest,
      assembleTeacherLogitsFromShards storage toFloat32 x.1 rank size = .ok dest ∧
        dest.rows = fullSeqLen / size ∧ dest.cols = fullVocabSize ∧
        ∀ t < fullSeqLen / size, ∀ v < fullVocabSize,
          dest.entry t v = toFloat32 (teacher x.2 (rank * (fullSeqLen / size) + t) v) := by
    intro x hx
    rw [List.mem_zipIdx_iff_getElem?] at hx
    exact assemble_ok toFloat32 (ht x.2 x.1 hx) hdiv hrank
  obtain ⟨rebuilt, hok, hall⟩ := mapM_ok hassemble
  have hlen : entries.length = rebuilt.length := by
    rw [← hall.length_eq, List.length_zipIdx]
  have hget : ∀ i (hi : i < rebuilt.length), rebuilt[i].rows = fullSeqLen / size ∧
      rebuilt[i].cols = fullVocabSize ∧ ∀ t < fullSeqLen / size, ∀ v < fullVocabSize,
        rebuilt[i].entry t v = toFloat32 (teacher i (rank * (fullSeqLen / size) + t) v) := by
    intro i hi
    have hi' : i < entries.zipIdx.length := hall.length_eq ▸ hi
    have hrow := (List.forall₂_iff_get.mp hall).2 i hi' hi
    simpa using hrow
  have hmapM : (entries.mapM fun shards ↦
      assembleTeacherLogitsFromShards storage toFloat32 shards rank size) = .ok rebuilt := by
    rw [← hok]
    conv_lhs => rw [← List.zipIdx_map_fst 0 entries]
    rw [List.mapM_map]
    rfl
  cases rebuilt with
  | nil =>
    rw [List.length_nil, List.length_eq_zero_iff] at hlen
    exact absurd hlen hne
  | cons first rest =>
    have hfirst := hget 0 (List.length_pos_of_ne_nil (List.cons_ne_nil first rest))
    have hsame : rest.all (fun t ↦ t.rows = first.rows ∧ t.cols = first.cols) = true := by
      apply List.all_eq_true.mpr
      intro t hmem
      obtain ⟨i, hi, rfl⟩ := List.getElem_of_mem hmem
      have hnext := hget (i + 1) (Nat.succ_lt_succ hi)
      exact decide_eq_true ⟨hnext.1.trans hfirst.1.symm, hnext.2.1.trans hfirst.2.1.symm⟩
    refine ⟨first :: rest, _, hmapM, if_pos hsame, hlen.symm, hfirst.1, hfirst.2.1, ?_⟩
    intro i hi t ht' v hv
    dsimp only
    rw [List.getD_eq_getElem _ _ (hlen ▸ hi)]
    exact (hget i (hlen ▸ hi)).2.2 t ht' v hv

end Batches

/-- The logits have a shape and are those of `logit`, in the teacher's type or converted. -/
def Rebuilt.Shows (toFloat32 : α → β) (batch rows cols : ℕ) (logit : ℕ → ℕ → ℕ → α) :
    Rebuilt α β → Prop
  | .view t => t.batch = batch ∧ t.rows = rows ∧ t.cols = cols ∧
      ∀ i < batch, ∀ j < rows, ∀ v < cols, t.entry i j v = logit i j v
  | .stacked t => t.batch = batch ∧ t.rows = rows ∧ t.cols = cols ∧
      ∀ i < batch, ∀ j < rows, ∀ v < cols, t.entry i j v = toFloat32 (logit i j v)

/-- A student rank gets the teacher's logits of its own part of the sequence, whatever
the layout of the teacher; the writes of the assembly fit and cover every place once;
and the fast path reads what the assembly would have written. -/
theorem rebuild_exact [DecidableEq Payload] [Zero β] (storage : Payload → Storage α)
    (toFloat32 : α → β) (teacher : ℕ → ℕ → ℕ → α) (fullSeqLen fullVocabSize rank size : ℕ)
    (entries : List (List (Handle Payload))) (hne : entries ≠ [])
    (ht : ∀ i shards, entries[i]? = some shards →
      Tiles storage (teacher i) fullSeqLen fullVocabSize shards)
    (hdiv : fullSeqLen % size = 0) (hrank : rank < size) :
    (∃ out, rebuildTeacherFullLogitsFromIpc storage toFloat32 entries rank size = .ok out ∧
      out.Shows toFloat32 entries.length (fullSeqLen / size) fullVocabSize
        fun i t v ↦ teacher i (rank * fullSeqLen / size + t) v) ∧
    (∀ shards ∈ entries,
      (∀ m ∈ collectOverlappingTeacherShards shards rank size fullSeqLen,
        m.handle ∈ shards ∧ m.Fits (fullSeqLen / size) fullVocabSize ∧
        ∃ src, readShard storage m.handle = .ok src ∧ src.rows = m.handle.actualShape.1 ∧
          src.cols = m.handle.actualShape.2) ∧
      ∀ t < fullSeqLen / size, ∀ v < fullVocabSize,
        (collectOverlappingTeacherShards shards rank size fullSeqLen).countP
          (fun m ↦ m.destSeq.Has t ∧ m.destVocab.Has v) = 1) ∧
    ∀ view, tryZeroCopyTeacherLogits storage entries rank size = .ok (some view) →
      ∃ rebuilt stacked,
        (entries.mapM fun shards ↦
          assembleTeacherLogitsFromShards storage toFloat32 shards rank size) = .ok rebuilt ∧
        stack rebuilt = .ok stacked ∧ view.batch = stacked.batch ∧ view.rows = stacked.rows ∧
        view.cols = stacked.cols ∧
        ∀ i < view.batch, ∀ t < view.rows, ∀ v < view.cols,
          stacked.entry i t v = toFloat32 (view.entry i t v) := by
  obtain ⟨rebuilt, stacked, hrebuilt, hstacked, hbatch, hrows, hcols, hentry⟩ :=
    stack_ok toFloat32 hne ht hdiv hrank
  have hview := tryZeroCopy_ok rank ht hdiv
  refine ⟨?_, ?_, ?_⟩
  · rw [rank_mul_div hdiv, rebuildTeacherFullLogitsFromIpc]
    dsimp only [bind, Except.bind]
    rcases hview with hnone | ⟨view, hsome, hshow⟩
    · rw [hnone, hrebuilt]
      dsimp only
      rw [hstacked]
      exact ⟨_, rfl, hbatch, hrows, hcols, hentry⟩
    · rw [hsome]
      exact ⟨_, rfl, hshow⟩
  · intro shards hmem
    obtain ⟨i, hi, rfl⟩ := List.getElem_of_mem hmem
    have htiles := ht i _ (List.getElem?_eq_getElem hi)
    constructor
    · intro m hm
      obtain ⟨h, hh, rfl, hover⟩ := mem_collect hm
      rw [rank_mul_div hdiv, rank_mul_div hdiv, Nat.succ_mul] at hover ⊢
      obtain ⟨src, hsrc, hsrows, hscols, -⟩ := readShard_ok (htiles.holds h hh)
      exact ⟨hh, toMatch_fits (htiles.holds h hh) hover, src, hsrc, hsrows, hscols⟩
    · intro t ht' v hv
      exact countP_collect htiles hdiv hrank ht' hv
  · intro view hsome
    rcases hview with hnone | ⟨view', hsome', hbatch', hrows', hcols', hentry'⟩
    · rw [hnone] at hsome
      cases hsome
    · rw [hsome'] at hsome
      obtain rfl : view' = view := Option.some.inj (Except.ok.inj hsome)
      refine ⟨rebuilt, stacked, hrebuilt, hstacked, hbatch'.trans hbatch.symm,
        hrows'.trans hrows.symm, hcols'.trans hcols.symm, ?_⟩
      intro i hi t ht' v hv
      rw [hbatch'] at hi
      rw [hrows'] at ht'
      rw [hcols'] at hv
      rw [hentry i hi t ht' v hv, hentry' i hi t ht' v hv]

def halfStorage (rank : ℕ) : Storage ℤ := ⟨1, 1, 2, 1, fun _ _ t _ ↦ 10 * t + rank⟩

def halfShard (rank : ℕ) : Handle ℕ :=
  { payloadIpc := rank
    bufIdx := 0
    sampleIndexInBuf := 0
    actualShape := (2, 1)
    vocabStartIndex := rank
    vocabEndIndex := rank + 1
    globalSeqStart := 0
    fullVocabSize := 2
    fullSeqLen := 2 }

theorem rebuild_exact_halves : ∃ out,
    rebuildTeacherFullLogitsFromIpc halfStorage (fun x ↦ x) [[halfShard 0, halfShard 1]] 1 2 =
      .ok out ∧
    out.Shows (fun x ↦ x) 1 1 2 fun _ t v ↦ 10 * ((1 + t : ℕ) : ℤ) + v := by
  refine (rebuild_exact halfStorage (fun x ↦ x) (fun _ t v ↦ 10 * (t : ℤ) + v) 2 2 1 2
    [[halfShard 0, halfShard 1]] (by decide) ?_ (by decide) (by decide)).1
  intro i shards hi
  match i with
  | 0 =>
    obtain rfl := Option.some.inj hi
    refine ⟨by decide, ?_, by decide⟩
    intro h hmem
    rcases List.mem_pair.mp hmem with rfl | rfl <;> constructor <;> decide
  | i + 1 => cases hi

end NemoRL.XToken.TeacherLogits
