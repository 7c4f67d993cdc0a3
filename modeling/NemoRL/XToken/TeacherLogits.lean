import Mathlib

namespace NemoRL.XToken.TeacherLogits

variable {α β Payload : Type}

inductive RebuildError
  /-- `teacher_shards must be non-empty`. -/
  | emptyShards
  /-- `full_seq_len` is not divisible by `student_cp_size`. -/
  | indivisible (fullSeqLen studentCpSize : ℕ)
  /-- A slot or a sample outside of the storage. -/
  | index
  /-- A slice that is assigned a tensor of another shape. -/
  | shape
  /-- `torch.stack` of no tensors. -/
  | emptyStack
  deriving DecidableEq, Repr

section Tensors

structure Slice where
  start : ℕ
  stop : ℕ
  deriving DecidableEq, Repr

def Slice.clip (s : Slice) (n : ℕ) : Slice := ⟨min s.start n, min s.stop n⟩

def Slice.Has (s : Slice) (i : ℕ) : Prop := s.start ≤ i ∧ i < s.stop

instance (s : Slice) (i : ℕ) : Decidable (s.Has i) := inferInstanceAs (Decidable (_ ∧ _))

structure Tensor2 (α : Type) where
  rows : ℕ
  cols : ℕ
  entry : ℕ → ℕ → α

structure Tensor3 (α : Type) where
  batch : ℕ
  rows : ℕ
  cols : ℕ
  entry : ℕ → ℕ → ℕ → α

def Tensor2.slice (t : Tensor2 α) (rowSlice colSlice : Slice) : Tensor2 α :=
  let r := rowSlice.clip t.rows
  let c := colSlice.clip t.cols
  ⟨r.stop - r.start, c.stop - c.start, fun i j ↦ t.entry (r.start + i) (c.start + j)⟩

/-- `t[rowSlice, colSlice] = src`, a dimension of size one being repeated. -/
def Tensor2.assign (t : Tensor2 α) (rowSlice colSlice : Slice) (src : Tensor2 α) :
    Except RebuildError (Tensor2 α) :=
  let r := rowSlice.clip t.rows
  let c := colSlice.clip t.cols
  if (src.rows = r.stop - r.start ∨ src.rows = 1) ∧
      (src.cols = c.stop - c.start ∨ src.cols = 1) then
    .ok ⟨t.rows, t.cols, fun i j ↦
      if r.Has i ∧ c.Has j then
        src.entry (if src.rows = 1 then 0 else i - r.start)
          (if src.cols = 1 then 0 else j - c.start)
      else t.entry i j⟩
  else .error .shape

end Tensors

/-- The producer's storage, `[N_microbatches, B_mb, T_t_local, V_t_local]`. -/
structure Storage (α : Type) where
  slots : ℕ
  samples : ℕ
  rows : ℕ
  cols : ℕ
  entry : ℕ → ℕ → ℕ → ℕ → α

structure Handle (Payload : Type) where
  payloadIpc : Payload
  bufIdx : ℕ
  sampleIndexInBuf : ℕ
  actualShape : ℕ × ℕ
  vocabStartIndex : ℕ
  vocabEndIndex : ℕ
  globalSeqStart : ℕ
  fullVocabSize : ℕ
  fullSeqLen : ℕ

/-- A shard with its source and destination slices. -/
structure Match (Payload : Type) where
  handle : Handle Payload
  srcSeq : Slice
  srcVocab : Slice
  destSeq : Slice
  destVocab : Slice

def collectOverlappingTeacherShards (teacherShards : List (Handle Payload))
    (studentCpRank studentCpSize fullSeqLen : ℕ) : List (Match Payload) :=
  let studentSeqStart := studentCpRank * fullSeqLen / studentCpSize
  let studentSeqEnd := (studentCpRank + 1) * fullSeqLen / studentCpSize
  teacherShards.filterMap fun handle ↦
    let teacherSeqStart := handle.globalSeqStart
    let teacherSeqEnd := teacherSeqStart + handle.actualShape.1
    let overlapSeqStart := max studentSeqStart teacherSeqStart
    let overlapSeqEnd := min studentSeqEnd teacherSeqEnd
    if overlapSeqEnd ≤ overlapSeqStart then none
    else some
      { handle := handle
        srcSeq := ⟨overlapSeqStart - teacherSeqStart, overlapSeqEnd - teacherSeqStart⟩
        srcVocab := ⟨0, handle.vocabEndIndex - handle.vocabStartIndex⟩
        destSeq := ⟨overlapSeqStart - studentSeqStart, overlapSeqEnd - studentSeqStart⟩
        destVocab := ⟨handle.vocabStartIndex, handle.vocabEndIndex⟩ }

variable (rebuildCudaTensorFromIpc : Payload → Storage α) (toFloat32 : α → β)

def readShard (handle : Handle Payload) : Except RebuildError (Tensor2 α) :=
  let srcFull := rebuildCudaTensorFromIpc handle.payloadIpc
  if handle.bufIdx < srcFull.slots ∧ handle.sampleIndexInBuf < srcFull.samples then
    .ok ((Tensor2.mk srcFull.rows srcFull.cols
      (srcFull.entry handle.bufIdx handle.sampleIndexInBuf)).slice
        ⟨0, handle.actualShape.1⟩ ⟨0, handle.actualShape.2⟩)
  else .error .index

def writeMatch (dest : Tensor2 β) (m : Match Payload) : Except RebuildError (Tensor2 β) := do
  let src ← readShard rebuildCudaTensorFromIpc m.handle
  let part := src.slice m.srcSeq m.srcVocab
  dest.assign m.destSeq m.destVocab ⟨part.rows, part.cols, fun i j ↦ toFloat32 (part.entry i j)⟩

def assembleTeacherLogitsFromShards [Zero β] (teacherShards : List (Handle Payload))
    (studentCpRank studentCpSize : ℕ) : Except RebuildError (Tensor2 β) :=
  match teacherShards with
  | [] => .error .emptyShards
  | first :: _ =>
    if first.fullSeqLen % studentCpSize ≠ 0 then
      .error (.indivisible first.fullSeqLen studentCpSize)
    else
      (collectOverlappingTeacherShards teacherShards studentCpRank studentCpSize
        first.fullSeqLen).foldlM (writeMatch rebuildCudaTensorFromIpc toFloat32)
          ⟨first.fullSeqLen / studentCpSize, first.fullVocabSize, fun _ _ ↦ 0⟩

/-- The shards of a sample that hold the whole vocabulary of a range of the sequence. -/
def covering (teacherShards : List (Handle Payload))
    (fullVocabSize studentSeqStart studentSeqEnd : ℕ) : List (Handle Payload) :=
  teacherShards.filter fun h ↦ h.vocabStartIndex = 0 ∧ h.vocabEndIndex = fullVocabSize ∧
    h.globalSeqStart ≤ studentSeqStart ∧ studentSeqEnd ≤ h.globalSeqStart + h.actualShape.1

def only {γ : Type*} : List γ → Option γ
  | [a] => some a
  | _ => none

def slab [DecidableEq Payload] (h₀ : Handle Payload) (chosen : List (Handle Payload)) : Bool :=
  chosen.zipIdx.all fun (h, i) ↦ h.payloadIpc = h₀.payloadIpc ∧ h.bufIdx = h₀.bufIdx ∧
    h.sampleIndexInBuf = i ∧ h.globalSeqStart = h₀.globalSeqStart

def readSlab (handle : Handle Payload) (n : ℕ) (seqSlice : Slice) (fullVocabSize : ℕ) :
    Except RebuildError (Tensor3 α) :=
  let srcFull := rebuildCudaTensorFromIpc handle.payloadIpc
  if handle.bufIdx < srcFull.slots then
    let s := seqSlice.clip srcFull.rows
    .ok ⟨min n srcFull.samples, s.stop - s.start, min fullVocabSize srcFull.cols,
      fun i t v ↦ srcFull.entry handle.bufIdx i (s.start + t) v⟩
  else .error .index

def tryZeroCopyTeacherLogits [DecidableEq Payload]
    (perSampleEntries : List (List (Handle Payload))) (studentCpRank studentCpSize : ℕ) :
    Except RebuildError (Option (Tensor3 α)) :=
  match perSampleEntries.head?.bind List.head? with
  | none => .ok none
  | some first =>
    let studentSeqStart := studentCpRank * first.fullSeqLen / studentCpSize
    let studentSeqEnd := (studentCpRank + 1) * first.fullSeqLen / studentCpSize
    match perSampleEntries.mapM fun shards ↦
        only (covering shards first.fullVocabSize studentSeqStart studentSeqEnd) with
    | some (h₀ :: chosen) =>
      if slab h₀ (h₀ :: chosen) then
        (readSlab rebuildCudaTensorFromIpc h₀ (h₀ :: chosen).length
          ⟨studentSeqStart - h₀.globalSeqStart, studentSeqEnd - h₀.globalSeqStart⟩
          first.fullVocabSize).map some
      else .ok none
    | _ => .ok none

def stack : List (Tensor2 β) → Except RebuildError (Tensor3 β)
  | [] => .error .emptyStack
  | t :: ts =>
    if ts.all fun t' ↦ t'.rows = t.rows ∧ t'.cols = t.cols then
      .ok ⟨(t :: ts).length, t.rows, t.cols, fun i ↦ ((t :: ts).getD i t).entry⟩
    else .error .shape

/-- The teacher logits of a student rank: a view of the storage, in its type, or a copy. -/
inductive Rebuilt (α β : Type)
  | view (logits : Tensor3 α)
  | stacked (logits : Tensor3 β)

def rebuildTeacherFullLogitsFromIpc [DecidableEq Payload] [Zero β]
    (perSampleEntries : List (List (Handle Payload))) (studentCpRank studentCpSize : ℕ) :
    Except RebuildError (Rebuilt α β) := do
  match ← tryZeroCopyTeacherLogits rebuildCudaTensorFromIpc perSampleEntries studentCpRank
      studentCpSize with
  | some view => return .view view
  | none =>
    let rebuilt ← perSampleEntries.mapM fun shards ↦
      assembleTeacherLogitsFromShards rebuildCudaTensorFromIpc toFloat32 shards studentCpRank
        studentCpSize
    let logits ← stack rebuilt
    return .stacked logits

end NemoRL.XToken.TeacherLogits
