import Mathlib
import NemoRL.CheckpointEngines.WeightChunks

namespace NemoRL.CheckpointEngines

open Utils Utils.PackedTensor Foundations

variable {δ : Type} [ElementType δ] {bucketSize : ℕ} {w : Weight δ} {weights : List (Weight δ)}

def contents (w : Weight δ) : String × List ℕ × δ × List UInt8 :=
  (w.1, w.2.shape, w.2.dtype, w.2.bytes)

def nonempty (weights : List (Weight δ)) : List (Weight δ) :=
  weights.filter fun w ↦ w.2.bytes ≠ []

@[simp] theorem nonempty_append (weights more : List (Weight δ)) :
    nonempty (weights ++ more) = nonempty weights ++ nonempty more := List.filter_append ..

section Count

variable {k : ℕ}

theorem chunkCount_eq_zero (hb : 0 < bucketSize) :
    chunkCount bucketSize w = 0 ↔ w.2.bytes = [] := by
  rw [chunkCount, Nat.div_eq_zero_iff, ← List.length_eq_zero_iff]
  omega

theorem lt_chunkCount (hb : 0 < bucketSize) :
    k < chunkCount bucketSize w ↔ k * bucketSize < w.2.bytes.length := by
  rw [chunkCount, Nat.lt_iff_add_one_le, Nat.le_div_iff_mul_le hb, Nat.succ_mul]
  omega

@[simp] theorem nbytes_chunkAt (w : Weight δ) (k : ℕ) :
    (chunkAt bucketSize w k).1.nbytes = w.2.bytes.length := w.2.length_bytes.symm

theorem length_chunkAt (w : Weight δ) (k : ℕ) :
    (chunkAt bucketSize w k).2.length = (chunkAt bucketSize w k).1.chunkSize := by
  simp [chunkAt]

theorem chunkSize_pos (hb : 0 < bucketSize) (hk : k < chunkCount bucketSize w) :
    0 < (chunkAt bucketSize w k).1.chunkSize := by
  have hlt := (lt_chunkCount hb).mp hk
  simp only [chunkAt]
  omega

theorem chunkSize_le (w : Weight δ) (k : ℕ) :
    (chunkAt bucketSize w k).1.chunkSize ≤ bucketSize := Nat.min_le_left ..

theorem chunkSize_of_lt (hb : 0 < bucketSize) (hk : k + 1 < chunkCount bucketSize w) :
    (chunkAt bucketSize w k).1.chunkSize = bucketSize := by
  have hlt := (lt_chunkCount hb).mp hk
  rw [Nat.succ_mul] at hlt
  simp only [chunkAt]
  omega

theorem end_of_last (hb : 0 < bucketSize) (hk : k + 1 = chunkCount bucketSize w) :
    k * bucketSize + (chunkAt bucketSize w k).1.chunkSize = w.2.bytes.length := by
  have hlt := (lt_chunkCount hb).mp (show k < chunkCount bucketSize w by omega)
  have hge := (lt_chunkCount (w := w) hb).not.mp (show ¬ k + 1 < chunkCount bucketSize w by omega)
  rw [Nat.succ_mul] at hge
  simp only [chunkAt]
  omega

end Count

/-- A stream of chunks that begins: the weights without a byte have none. -/
theorem splitWeightChunks_eq_cons {c : Chunk δ} {rest : List (Chunk δ)} (hb : 0 < bucketSize)
    (h : splitWeightChunks bucketSize weights = c :: rest) :
    ∃ zs w ws, weights = zs ++ w :: ws ∧ nonempty zs = [] ∧ splitWeightChunks bucketSize zs = [] ∧
      0 < chunkCount bucketSize w ∧ c = chunkAt bucketSize w 0 := by
  induction weights with
  | nil => cases h
  | cons w ws ih =>
    rw [splitWeightChunks, List.flatMap_cons] at h
    rcases Nat.eq_zero_or_pos (chunkCount bucketSize w) with hz | hpos
    · have hnone : chunksOf bucketSize w = [] := by rw [chunksOf, hz]; rfl
      rw [hnone, List.nil_append] at h
      obtain ⟨zs, w', ws', rfl, hzs, hsplit, hpos, hc⟩ := ih h
      have hempty := (chunkCount_eq_zero hb).mp hz
      refine ⟨w :: zs, w', ws', rfl, ?_, ?_, hpos, hc⟩
      · rw [nonempty, List.filter_cons_of_neg (by simpa using hempty)]
        exact hzs
      · rw [splitWeightChunks, List.flatMap_cons, hnone]
        exact hsplit
    · refine ⟨[], w, ws, rfl, rfl, rfl, hpos, ?_⟩
      obtain ⟨n, hn⟩ := Nat.exists_eq_add_of_lt hpos
      rw [chunksOf, hn, Nat.zero_add, List.range_succ_eq_map] at h
      exact (List.cons.inj h).1.symm

theorem nonempty_of_split_eq_nil (hb : 0 < bucketSize)
    (h : splitWeightChunks bucketSize weights = []) : nonempty weights = [] := by
  rw [nonempty, List.filter_eq_nil_iff]
  intro w hw
  have hnone := List.flatMap_eq_nil_iff.mp h w hw
  rw [chunksOf, List.map_eq_nil_iff, List.range_eq_nil] at hnone
  simpa using (chunkCount_eq_zero hb).mp hnone

theorem mem_splitWeightChunks {c : Chunk δ} (hb : 0 < bucketSize)
    (h : c ∈ splitWeightChunks bucketSize weights) :
    0 < c.1.chunkSize ∧ c.1.chunkSize ≤ bucketSize ∧ c.2.length = c.1.chunkSize := by
  obtain ⟨w, -, hc⟩ := List.mem_flatMap.mp h
  obtain ⟨k, hk, rfl⟩ := List.mem_map.mp hc
  exact ⟨chunkSize_pos hb (List.mem_range.mp hk), chunkSize_le w k, length_chunkAt w k⟩

/-- A chunk that is followed by another one of its weight fills a bucket. -/
theorem pairwise_splitWeightChunks (hb : 0 < bucketSize) (hnd : (weights.map Prod.fst).Nodup) :
    (splitWeightChunks bucketSize weights).Pairwise fun c c' ↦
      c.1.name = c'.1.name → c.1.chunkSize = bucketSize := by
  refine List.pairwise_flatMap.mpr ⟨?_, ?_⟩
  · intro w _
    refine List.pairwise_map.mpr (List.Pairwise.imp_of_mem ?_ List.pairwise_lt_range)
    intro j k _ hk hjk _
    exact chunkSize_of_lt hb (by have := List.mem_range.mp hk; omega)
  · refine (List.pairwise_map.mp hnd).imp ?_
    intro w w' hne c hc c' hc' hname
    obtain ⟨k, -, rfl⟩ := List.mem_map.mp hc
    obtain ⟨k', -, rfl⟩ := List.mem_map.mp hc'
    exact absurd hname hne

/-- The tensor being merged once `j` chunks of a weight are in it. -/
structure Merging.Holds (m : Merging δ) (bucketSize : ℕ) (w : Weight δ) (j : ℕ) : Prop where
  shape : m.shape = w.2.shape
  dtype : m.dtype = w.2.dtype
  mergeOffset : m.mergeOffset = j * bucketSize
  bytes : m.bytes.slice 0 (j * bucketSize) = w.2.bytes.take (j * bucketSize)

/-- What merging a first part of the chunks of some weights has completed, and
what it has begun. -/
inductive Merged (bucketSize : ℕ) (weights : List (Weight δ)) :
    List (Chunk δ) → List (Weight δ) → Option (Merging δ) → Prop
  | whole (ws ws' : List (Weight δ)) : weights = ws ++ ws' →
      Merged bucketSize weights (splitWeightChunks bucketSize ws) (nonempty ws) none
  | part (ws ws' : List (Weight δ)) (w : Weight δ) (j : ℕ) (m : Merging δ) :
      weights = ws ++ w :: ws' → 0 < j → j < chunkCount bucketSize w → m.Holds bucketSize w j →
      Merged bucketSize weights
        (splitWeightChunks bucketSize ws ++ (List.range j).map (chunkAt bucketSize w))
        (nonempty ws) (some m)

/-- A bucket's metadata entry for a chunk that stands in a buffer below a bound. -/
structure Carries (bound : ℕ) (b : Buffer UInt8) (m : TensorMeta δ) (c : Chunk δ) : Prop where
  placed : ∃ offset, m = { c.1 with offset := some offset } ∧
    offset % ElementType.itemsize c.1.dtype = 0 ∧ offset + c.1.chunkSize ≤ bound ∧
    b.slice offset c.1.chunkSize = c.2

theorem Carries.mono {bound bound' : ℕ} {b b' : Buffer UInt8} {m : TensorMeta δ} {c : Chunk δ}
    (h : Carries bound b m c) (hle : bound ≤ bound') (hb : ∀ p < bound, b' p = b p) :
    Carries bound' b' m c := by
  obtain ⟨offset, rfl, haligned, hbound, hslice⟩ := h.placed
  refine ⟨offset, rfl, haligned, hbound.trans hle, ?_⟩
  rw [← hslice]
  exact Buffer.slice_congr fun p _ hp ↦ hb p (by omega)

theorem Carries.name {bound : ℕ} {b : Buffer UInt8} {m : TensorMeta δ} {c : Chunk δ}
    (h : Carries bound b m c) : m.name = c.1.name := by
  obtain ⟨offset, rfl, -⟩ := h.placed
  rfl

theorem Carries.chunkSize_le {bound : ℕ} {b : Buffer UInt8} {m : TensorMeta δ} {c : Chunk δ}
    (h : Carries bound b m c) : c.1.chunkSize ≤ bound := by
  obtain ⟨offset, -, -, hbound, -⟩ := h.placed
  omega

theorem Merged.complete {done : List (Chunk δ)} {emitted : List (Weight δ)}
    {merging : Option (Merging δ)} (hb : 0 < bucketSize)
    (h : Merged bucketSize weights done emitted merging)
    (hdone : done = splitWeightChunks bucketSize weights) : emitted = nonempty weights := by
  cases h with
  | whole ws ws' hws =>
    subst hws
    rw [splitWeightChunks, splitWeightChunks, List.flatMap_append, List.self_eq_append_right] at hdone
    rw [nonempty_append, nonempty_of_split_eq_nil hb hdone, List.append_nil]
  | part ws ws' w j m hws hpos hj =>
    subst hws
    have hlen := congrArg List.length hdone
    simp only [splitWeightChunks, List.flatMap_append, List.flatMap_cons, List.length_append,
      chunksOf, List.length_map, List.length_range] at hlen
    omega

section MergeChunk

variable {u : Buffer UInt8} {buffers : Bool → Buffer UInt8} {bufferIndex : Bool}
  {m : TensorMeta δ} {c : Chunk δ} {done rest : List (Chunk δ)} {emitted : List (Weight δ)}
  {merging : Option (Merging δ)} {j bound : ℕ}

theorem Merging.Holds.write {merge : Merging δ} (hb : 0 < bucketSize)
    (h : merge.Holds bucketSize w j) (hj : j < chunkCount bucketSize w) :
    (merge.bytes.write (j * bucketSize) (chunkAt bucketSize w j).2).slice 0
        (j * bucketSize + (chunkAt bucketSize w j).1.chunkSize) =
      w.2.bytes.take (j * bucketSize + (chunkAt bucketSize w j).1.chunkSize) := by
  have hlen : (chunkAt bucketSize w j).2.length = (chunkAt bucketSize w j).1.chunkSize :=
    length_chunkAt w j
  have hlt := (lt_chunkCount hb).mp hj
  have hold : (merge.bytes.write (j * bucketSize) (chunkAt bucketSize w j).2).slice 0
      (j * bucketSize) = w.2.bytes.take (j * bucketSize) := by
    rw [Buffer.slice_write_of_disjoint _ (.inl (by omega)), h.bytes]
  have hnew := Buffer.slice_write merge.bytes (j * bucketSize) (chunkAt bucketSize w j).2
  rw [hlen] at hnew
  rw [Buffer.slice_append, hold, Nat.zero_add, hnew, List.take_add]
  rfl

theorem mergeChunk_chunkAt (hb : 0 < bucketSize) (hj : j < chunkCount bucketSize w)
    (hc : Carries bound (buffers bufferIndex) m (chunkAt bucketSize w j))
    (hmerging : if j = 0 then merging = none else
      ∃ merge, merging = some merge ∧ merge.Holds bucketSize w j) :
    (j + 1 = chunkCount bucketSize w ∧ ∃ entry, entry.read buffers = contents w ∧
      mergeChunk u buffers bufferIndex m merging = some (none, [entry])) ∨
    (j + 1 < chunkCount bucketSize w ∧ ∃ merge : Merging δ, merge.Holds bucketSize w (j + 1) ∧
      mergeChunk u buffers bufferIndex m merging = some (some merge, [])) := by
  obtain ⟨offset, rfl, haligned, -, hslice⟩ := hc.placed
  have hlt := (lt_chunkCount hb).mp hj
  have hoffset : (chunkAt bucketSize w j).1.chunkOffset = j * bucketSize := rfl
  have hsize : (chunkAt bucketSize w j).1.chunkSize =
      min bucketSize (w.2.bytes.length - j * bucketSize) := rfl
  have hnbytes : ({ (chunkAt bucketSize w j).1 with offset := some offset } : TensorMeta δ).nbytes =
      w.2.bytes.length := w.2.length_bytes.symm
  by_cases hfull : (chunkAt bucketSize w j).1.chunkOffset = 0 ∧
      (chunkAt bucketSize w j).1.chunkSize = w.2.bytes.length
  · -- The chunk is the whole weight, and the batch gets a view of the buffer.
    obtain rfl : j = 0 := by
      by_contra hne
      have := Nat.mul_pos (Nat.pos_of_ne_zero hne) hb
      omega
    rw [if_pos rfl] at hmerging
    subst hmerging
    have hcount : 0 + 1 = chunkCount bucketSize w := by
      have hlast := (lt_chunkCount (w := w) (k := 1) hb).not.mpr (by omega)
      omega
    refine .inl ⟨hcount, .view w.1 w.2.shape w.2.dtype bufferIndex offset
      (chunkAt bucketSize w 0).1.chunkSize, ?_, ?_⟩
    · simp only [Entry.read, contents, hslice]
      rw [show (chunkAt bucketSize w 0).2 = w.2.bytes from ?_]
      simp only [chunkAt, Nat.zero_mul, List.drop_zero]
      exact List.take_of_length_le (by omega)
    · simp only [mergeChunk, Option.bind_eq_bind, Option.bind_some, hnbytes]
      rw [if_pos hfull, if_pos haligned]
      rfl
  · -- The chunk is one of several.
    obtain ⟨merge, hmerge, hholds⟩ : ∃ merge : Merging δ,
        merging.getD ⟨w.2.shape, w.2.dtype, u, 0⟩ = merge ∧
          merge.Holds bucketSize w j := by
      by_cases hzero : j = 0
      · rw [if_pos hzero] at hmerging
        refine ⟨_, rfl, ?_⟩
        rw [hmerging, hzero]
        exact ⟨rfl, rfl, by simp, by simp [Buffer.slice]⟩
      · rw [if_neg hzero] at hmerging
        obtain ⟨merge, rfl, hholds⟩ := hmerging
        exact ⟨merge, rfl, hholds⟩
    have hwrite := hholds.write hb hj
    have hstep : mergeChunk u buffers bufferIndex
        { (chunkAt bucketSize w j).1 with offset := some offset } merging =
      (let bytes := merge.bytes.write (j * bucketSize) (chunkAt bucketSize w j).2
       let mergeOffset := j * bucketSize + (chunkAt bucketSize w j).1.chunkSize
       if mergeOffset = w.2.bytes.length then
         some (none, [.merged w.1 w.2.shape w.2.dtype bytes])
       else some (some { merge with bytes := bytes, mergeOffset := mergeOffset }, [])) := by
      simp only [mergeChunk, Option.bind_eq_bind, Option.bind_some, hnbytes]
      rw [if_neg hfull]
      simp only [hslice, hoffset]
      rw [show merging.getD ⟨(chunkAt bucketSize w j).1.shape, (chunkAt bucketSize w j).1.dtype,
        u, 0⟩ = merge from hmerge, hholds.mergeOffset, hholds.shape, hholds.dtype]
      rfl
    rw [hstep]
    rcases Nat.lt_or_ge (j + 1) (chunkCount bucketSize w) with hmore | hlast
    · have hfullsize := chunkSize_of_lt hb hmore
      have hnext := (lt_chunkCount hb).mp hmore
      rw [Nat.succ_mul] at hnext
      refine .inr ⟨hmore, { merge with
        bytes := merge.bytes.write (j * bucketSize) (chunkAt bucketSize w j).2
        mergeOffset := j * bucketSize + (chunkAt bucketSize w j).1.chunkSize },
        ⟨hholds.shape, hholds.dtype, ?_, ?_⟩, ?_⟩
      · rw [hfullsize, Nat.succ_mul]
      · rw [hfullsize] at hwrite
        rw [Nat.succ_mul]
        exact hwrite
      · exact if_neg (by omega)
    · have hcount : j + 1 = chunkCount bucketSize w := by omega
      have hend := end_of_last hb hcount
      refine .inl ⟨hcount, .merged w.1 w.2.shape w.2.dtype
        (merge.bytes.write (j * bucketSize) (chunkAt bucketSize w j).2), ?_, if_pos hend⟩
      rw [hend, List.take_length] at hwrite
      simp only [Entry.read, contents]
      rw [← w.2.length_bytes, hwrite]

theorem mergeChunk_spec (hb : 0 < bucketSize) (h : Merged bucketSize weights done emitted merging)
    (hsplit : splitWeightChunks bucketSize weights = done ++ c :: rest)
    (hc : Carries bound (buffers bufferIndex) m c) :
    ∃ merging' batch emitted', mergeChunk u buffers bufferIndex m merging =
        some (merging', batch) ∧ batch.map (Entry.read buffers) = emitted'.map contents ∧
      Merged bucketSize weights (done ++ [c]) (emitted ++ emitted') merging' := by
  -- The chunk is number `j` of the weight `w` that follows the weights `ws`.
  obtain ⟨ws, w, ws', j, hws, hemitted, hdone, rfl, hj, hmerging⟩ :
      ∃ ws w ws' j, weights = ws ++ w :: ws' ∧ emitted = nonempty ws ∧
        done = splitWeightChunks bucketSize ws ++ (List.range j).map (chunkAt bucketSize w) ∧
        c = chunkAt bucketSize w j ∧ j < chunkCount bucketSize w ∧
        if j = 0 then merging = none else
          ∃ merge, merging = some merge ∧ merge.Holds bucketSize w j := by
    cases h with
    | whole ws ws' hws =>
      subst hws
      rw [splitWeightChunks, splitWeightChunks, List.flatMap_append, List.append_cancel_left_eq]
        at hsplit
      obtain ⟨zs, w, ws'', rfl, hzs, hnone, hpos, rfl⟩ := splitWeightChunks_eq_cons hb hsplit
      refine ⟨ws ++ zs, w, ws'', 0, by simp, by simp [hzs], ?_, rfl, hpos, by rw [if_pos rfl]⟩
      rw [splitWeightChunks] at hnone
      simp [splitWeightChunks, hnone]
    | part ws ws' w j merge hws hpos hj hholds =>
      subst hws
      refine ⟨ws, w, ws', j, rfl, rfl, rfl, ?_, hj, by rw [if_neg (by omega)]; exact ⟨merge, rfl, hholds⟩⟩
      rw [splitWeightChunks, splitWeightChunks, List.flatMap_append, List.flatMap_cons,
        List.append_assoc, List.append_cancel_left_eq] at hsplit
      have hget := congrArg (·[j]?) hsplit
      simp only [chunksOf] at hget
      rw [List.getElem?_append_left (by simpa using hj),
        List.getElem?_append_right (by simp)] at hget
      simpa [hj] using hget.symm
  subst hws hemitted hdone
  have hsnoc : (List.range j).map (chunkAt bucketSize w) ++ [chunkAt bucketSize w j] =
      (List.range (j + 1)).map (chunkAt bucketSize w) := by
    rw [List.range_succ, List.map_append]
    rfl
  rw [List.append_assoc, hsnoc]
  rcases mergeChunk_chunkAt (u := u) hb hj hc hmerging with
    ⟨hcount, entry, hread, hstep⟩ | ⟨hmore, merge, hholds, hstep⟩
  · refine ⟨none, [entry], [w], hstep, by simp [hread], ?_⟩
    have hw : nonempty [w] = [w] := by
      have hne : w.2.bytes ≠ [] := fun hnil ↦ by
        rw [(chunkCount_eq_zero hb).mpr hnil] at hj
        omega
      simp [nonempty, hne]
    have hall : Merged bucketSize (ws ++ w :: ws') _ _ none :=
      .whole (ws ++ [w]) ws' (List.append_cons ws w ws')
    rw [nonempty_append, hw, splitWeightChunks, List.flatMap_append, List.flatMap_singleton] at hall
    rwa [hcount]
  · refine ⟨some merge, [], [], hstep, rfl, ?_⟩
    rw [List.append_nil]
    exact .part ws ws' w (j + 1) merge rfl (Nat.succ_pos j) hmore hholds

theorem mergeBatch_spec {metas : List (TensorMeta δ)} {chunks : List (Chunk δ)} (hb : 0 < bucketSize)
    (h : Merged bucketSize weights done emitted merging)
    (hsplit : splitWeightChunks bucketSize weights = done ++ chunks ++ rest)
    (hc : List.Forall₂ (Carries bound (buffers bufferIndex)) metas chunks) :
    ∃ merging' batch emitted', mergeBatch u buffers bufferIndex metas merging =
        some (merging', batch) ∧ batch.map (Entry.read buffers) = emitted'.map contents ∧
      Merged bucketSize weights (done ++ chunks) (emitted ++ emitted') merging' := by
  induction hc generalizing done emitted merging with
  | nil => exact ⟨merging, [], [], rfl, rfl, by simpa using h⟩
  | @cons m c metas chunks hhead htail ih =>
    have hsplit' : splitWeightChunks bucketSize weights = done ++ c :: (chunks ++ rest) := by
      simpa using hsplit
    obtain ⟨merging₁, batch₁, emitted₁, hstep₁, hread₁, hmerged₁⟩ :=
      mergeChunk_spec (u := u) hb h hsplit' hhead
    obtain ⟨merging₂, batch₂, emitted₂, hstep₂, hread₂, hmerged₂⟩ :=
      ih hmerged₁ (by simpa using hsplit')
    refine ⟨merging₂, batch₁ ++ batch₂, emitted₁ ++ emitted₂, ?_, ?_, ?_⟩
    · simp only [mergeBatch, hstep₁, hstep₂, Option.bind_eq_bind, Option.bind_some]
    · rw [List.map_append, List.map_append, hread₁, hread₂]
    · simpa using hmerged₂

end MergeChunk

end NemoRL.CheckpointEngines
