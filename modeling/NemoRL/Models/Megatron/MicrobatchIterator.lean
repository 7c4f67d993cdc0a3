import NemoRL.Models.Megatron.PackSequences

namespace NemoRL.Models.Megatron

open Foundations.Blocks

variable {α : Type}

section Batches

/-- What cutting a batch into microbatches raises. -/
inductive IteratorError
  /-- `Dim 1 must be the sequence dim`. -/
  | seqDim (key : String) (expected width : ℕ)
  /-- No microbatches of one global batch. -/
  | microBatches
  /-- `max()` of no lengths. -/
  | emptyMax
  | zeroDivision
  /-- `Data dict size is not a multiple of the provided microbatch size`. -/
  | microbatchSize (size mbs : ℕ)
  /-- `end` is greater than the shape of the tensor. -/
  | slice (stop size : ℕ)
  /-- `torch.narrow` behind the end of a tensor. -/
  | narrow (length width : ℕ)
  /-- `pad_full_seq_to` is below the padded lengths of a microbatch. -/
  | padFullSeqTo (padFullSeqTo naturalSum : ℕ)
  /-- What is missing to `pad_full_seq_to` is no multiple of the padding of a sequence. -/
  | deficit (deficit align : ℕ)
  | pack (e : PackError)
  deriving DecidableEq, Repr

structure SeqTensor (α : Type) where
  width : ℕ
  rows : List (List α)
  rect : ∀ row ∈ rows, row.length = width

theorem mem_of_mem_slice {β : Type} {l : List β} {start stop : ℕ} {x : β}
    (h : x ∈ slice l start stop) : x ∈ l :=
  List.mem_of_mem_drop (List.mem_of_mem_take h)

theorem length_of_mem_map {f : List α → List α} {width width' : ℕ} {rows : List (List α)}
    (hrows : ∀ row ∈ rows, row.length = width)
    (hf : ∀ row, row.length = width → (f row).length = width') :
    ∀ row ∈ rows.map f, row.length = width' := by
  intro row hrow
  obtain ⟨old, hold, rfl⟩ := List.mem_map.mp hrow
  exact hf old (hrows old hold)

theorem length_of_mem_singleton {l : List α} : ∀ row ∈ [l], row.length = l.length := by
  intro row hrow
  rw [List.mem_singleton.mp hrow]

theorem length_take_of_le {length width : ℕ} (h : ¬ width < length) (row : List α)
    (hrow : row.length = width) : (row.take length).length = length := by
  rw [List.length_take]
  omega

theorem length_append_replicate (zero : α) (width padding : ℕ) (row : List α)
    (hrow : row.length = width) : (row ++ List.replicate padding zero).length = width + padding := by
  rw [List.length_append, hrow, List.length_replicate]

theorem length_resized (zero : α) (width length : ℕ) (row : List α) (hrow : row.length = width) :
    (row.take length ++ List.replicate (length - width) zero).length = length := by
  rw [List.length_append, List.length_take, List.length_replicate]
  omega

namespace SeqTensor

def slice (start stop : ℕ) (t : SeqTensor α) : Except IteratorError (SeqTensor α) :=
  if t.rows.length < stop then .error (.slice stop t.rows.length)
  else .ok ⟨t.width, Foundations.Blocks.slice t.rows start stop,
    fun row h ↦ t.rect row (mem_of_mem_slice h)⟩

def narrow (length : ℕ) (t : SeqTensor α) : Except IteratorError (SeqTensor α) :=
  if h : t.width < length then .error (.narrow length t.width)
  else .ok ⟨length, t.rows.map (List.take length), length_of_mem_map t.rect (length_take_of_le h)⟩

def padRight (zero : α) (padding : ℕ) (t : SeqTensor α) : SeqTensor α :=
  ⟨t.width + padding, t.rows.map (· ++ List.replicate padding zero),
    length_of_mem_map t.rect (length_append_replicate zero t.width padding)⟩

/-- Cut or padded to a width. -/
def resize (zero : α) (length : ℕ) (t : SeqTensor α) : SeqTensor α :=
  ⟨length, t.rows.map fun row ↦ row.take length ++ List.replicate (length - t.width) zero,
    length_of_mem_map t.rect (length_resized zero t.width length)⟩

def ofRow (row : List α) : SeqTensor α := ⟨row.length, [row], length_of_mem_singleton⟩

end SeqTensor

/-- A batch: its tensors of rows, and how it is to be cut. -/
structure BatchedData (α : Type) where
  inputIds : SeqTensor α
  inputLengths : List ℕ
  others : List (String × SeqTensor α)
  microBatchIndices : Option (List (List (ℕ × ℕ))) := none
  microBatchLengths : Option (List (List ℕ)) := none

namespace BatchedData

def size (data : BatchedData α) : ℕ := data.inputIds.rows.length

def mapTensors (f : SeqTensor α → Except IteratorError (SeqTensor α)) (data : BatchedData α) :
    Except IteratorError (BatchedData α) := do
  let inputIds ← f data.inputIds
  let others ← data.others.mapM fun x ↦ (f x.2).map fun t ↦ (x.1, t)
  return { data with inputIds, others }

def slice (start stop : ℕ) (data : BatchedData α) : Except IteratorError (BatchedData α) := do
  let sliced ← data.mapTensors (SeqTensor.slice start stop)
  return { sliced with
    inputLengths := Foundations.Blocks.slice data.inputLengths start stop
    microBatchIndices := none
    microBatchLengths := none }

def truncateTensors (truncatedLen : ℕ) (data : BatchedData α) :
    Except IteratorError (BatchedData α) :=
  data.mapTensors (SeqTensor.narrow truncatedLen)

/-- The ranges and the lengths of the microbatches of the one global batch. -/
def microBatches (data : BatchedData α) : Except IteratorError (List (ℕ × ℕ) × List ℕ) :=
  match data.microBatchIndices, data.microBatchLengths with
  | some [indices], some (lengths :: _) => .ok (indices, lengths)
  | _, _ => .error .microBatches

def makeMicrobatchIteratorWithDynamicShapes (data : BatchedData α) :
    Except IteratorError (List (BatchedData α)) := do
  let (indices, lengths) ← data.microBatches
  (lengths.zip indices).mapM fun x ↦ (data.slice x.2.1 x.2.2).bind (truncateTensors x.1)

def makeMicrobatchIteratorForPackableSequences (data : BatchedData α) :
    Except IteratorError (List (BatchedData α)) := do
  let (indices, lengths) ← data.microBatches
  (lengths.zip indices).mapM fun x ↦ data.slice x.2.1 x.2.2

def getMicrobatchIteratorForPackableSequencesLen (data : BatchedData α) :
    Except IteratorError (ℕ × ℕ) := do
  let (indices, lengths) ← data.microBatches
  if lengths = [] then .error .emptyMax else .ok (indices.length, lengths.foldl max 0)

def makeMicrobatchIterator (microbatchSize : ℕ) (data : BatchedData α) :
    Except IteratorError (List (BatchedData α)) :=
  if data.size % microbatchSize ≠ 0 then .error (.microbatchSize data.size microbatchSize)
  else (List.range (data.size / microbatchSize)).mapM fun i ↦
    data.slice (i * microbatchSize) (i * microbatchSize + microbatchSize)

end BatchedData

end Batches

section Processing

structure PolicyCfg where
  megatronCfg : MegatronCfg
  makeSequenceLengthDivisibleBy : ℕ
  dynamicBatching : Bool
  sequencePacking : Bool

/-- The user's, the parallelism's and the FP8 alignment of dense batches. -/
def getNonPackedSequencePadFactor (cfg : PolicyCfg) : ℕ :=
  let megatronCfg := cfg.megatronCfg
  let factor := Nat.lcm cfg.makeSequenceLengthDivisibleBy (getFp8TokenAlignment megatronCfg)
  let cpSize := megatronCfg.contextParallelSize
  let factor := if cpSize > 1 then Nat.lcm factor (cpSize * 2) else factor
  if megatronCfg.tensorModelParallelSize > 1 ∧ megatronCfg.sequenceParallel then
    Nat.lcm factor megatronCfg.tensorModelParallelSize
  else factor

def padSequenceAlignedTensors (zero : α) (data : BatchedData α) (multiple : ℕ) : BatchedData α :=
  if multiple ≤ 1 then data
  else
    let sequenceLength := data.inputIds.width
    let padding := roundUpToMultiple sequenceLength multiple - sequenceLength
    if padding = 0 then data
    else { data with
      inputIds := data.inputIds.padRight zero padding
      others := data.others.map fun x ↦
        if x.2.rows.length ≠ data.size ∨ x.2.width ≠ sequenceLength then x
        else (x.1, x.2.padRight zero padding) }

structure ProcessedMicrobatch (α : Type) where
  dataDict : BatchedData α
  inputIds : SeqTensor α
  inputIdsCpSharded : SeqTensor α
  originalSeqLength : ℕ

/-- What a model does of the packing by itself. -/
structure ModelPacking where
  delegatePackToModel : Bool := false
  modelSlicesContextParallelInputs : Bool := false

/-- The padded lengths of the sequences, the last of them extended to the full length. -/
def vlmPaddedLens (padIndividualSeqsToMultipleOf : ℕ) (padFullSeqTo : Option ℕ) (batchSize : ℕ)
    (seqLengths : List ℕ) : Except IteratorError (List ℕ) :=
  let align := max 1 padIndividualSeqsToMultipleOf
  let paddedLens := seqLengths.map (roundUpToMultiple · align)
  match padFullSeqTo with
  | none => .ok paddedLens
  | some length =>
    if batchSize = 0 then .ok paddedLens
    else if length < paddedLens.sum then .error (.padFullSeqTo length paddedLens.sum)
    else if (length - paddedLens.sum) % align ≠ 0 then
      .error (.deficit (length - paddedLens.sum) align)
    else .ok (paddedLens.modify (paddedLens.length - 1) (· + (length - paddedLens.sum)))

/-- The packed row, and the rows that the model packs and shares out by itself. -/
def prepareVlmBatchForMegatron (zero : α) (padIndividualSeqsToMultipleOf : ℕ)
    (padFullSeqTo : Option ℕ) (inputIds : SeqTensor α) (seqLengths : List ℕ) :
    Except IteratorError (SeqTensor α × SeqTensor α) :=
  (vlmPaddedLens padIndividualSeqsToMultipleOf padFullSeqTo inputIds.rows.length seqLengths).map
    fun paddedLens ↦
      let inputIds2d := inputIds.resize zero (paddedLens.foldl max 0)
      (.ofRow ((inputIds2d.rows.zip paddedLens).flatMap fun x ↦ x.1.take x.2), inputIds2d)

def processMicrobatch (zero : α) (padIndividualSeqsToMultipleOf padPackedSeqToMultipleOf : ℕ)
    (padFullSeqTo : Option ℕ) (packSequences : Bool) (model : ModelPacking) (cpRank cpSize : ℕ)
    (data : BatchedData α) : Except IteratorError (ProcessedMicrobatch α) :=
  let originalSeqLength := data.inputIds.width
  if packSequences then
    if model.delegatePackToModel then
      (prepareVlmBatchForMegatron zero padIndividualSeqsToMultipleOf padFullSeqTo data.inputIds
        data.inputLengths).map fun x ↦ ⟨data, x.1, x.2, originalSeqLength⟩
    else
      match packSequencesForMegatron padIndividualSeqsToMultipleOf padPackedSeqToMultipleOf
          padFullSeqTo zero (data.inputIds.rows.zip data.inputLengths) cpRank cpSize with
      | .error e => .error (.pack e)
      | .ok packed => .ok ⟨data, .ofRow packed.allInputIds,
          .ofRow (if model.modelSlicesContextParallelInputs then packed.allInputIds
            else packed.packedInputIds),
          originalSeqLength⟩
  else
    let data := padSequenceAlignedTensors zero data padIndividualSeqsToMultipleOf
    .ok ⟨data, data.inputIds, data.inputIds, originalSeqLength⟩

def getAndValidateSeqlen (data : BatchedData α) : Except IteratorError ℕ :=
  match data.others.find? (·.2.width ≠ data.inputIds.width) with
  | some x => .error (.seqDim x.1 data.inputIds.width x.2.width)
  | none => .ok data.inputIds.width

/-- What `get_microbatch_iterator` returns, the iterator run to its end. -/
structure MicrobatchIterator (α : Type) where
  microbatches : List (ProcessedMicrobatch α)
  dataIteratorLen : ℕ
  microBatchSize : ℕ
  seqDimSize : ℕ
  paddedSeqLength : ℕ

def processedIterator (zero : α) (cfg : PolicyCfg) (model : ModelPacking) (cpRank : ℕ)
    (rawIterator : List (BatchedData α))
    (dataIteratorLen microBatchSize seqDimSize padFactor padPackedSeqToMultipleOf : ℕ)
    (padFullSeqTo : Option ℕ) : Except IteratorError (MicrobatchIterator α) :=
  if padFullSeqTo = none ∧ padFactor = 0 then .error .zeroDivision
  else do
    let microbatches ← rawIterator.mapM (processMicrobatch zero padFactor padPackedSeqToMultipleOf
      padFullSeqTo cfg.sequencePacking model cpRank cfg.megatronCfg.contextParallelSize)
    return ⟨microbatches, dataIteratorLen, microBatchSize, seqDimSize,
      padFullSeqTo.getD (roundUpToMultiple seqDimSize padFactor)⟩

def getMicrobatchIterator (zero : α) (cfg : PolicyCfg) (model : ModelPacking) (cpRank : ℕ)
    (data : BatchedData α) (mbs : ℕ) : Except IteratorError (MicrobatchIterator α) := do
  let seqDimSize ← getAndValidateSeqlen data
  let padFactor := if cfg.sequencePacking then 1 else getNonPackedSequencePadFactor cfg
  if cfg.dynamicBatching then do
    let rawIterator ← data.makeMicrobatchIteratorWithDynamicShapes
    let (indices, _) ← data.microBatches
    processedIterator zero cfg model cpRank rawIterator indices.length mbs seqDimSize padFactor 1
      none
  else if cfg.sequencePacking then do
    let rawIterator ← data.makeMicrobatchIteratorForPackableSequences
    let (dataIteratorLen, packSeqDimSize) ← data.getMicrobatchIteratorForPackableSequencesLen
    let (padFactor, padPackedSeqToMultipleOf, padFullSeqTo) ←
      (getPackSequenceParametersForMegatron cfg.megatronCfg cfg.makeSequenceLengthDivisibleBy
        packSeqDimSize).mapError IteratorError.pack
    processedIterator zero cfg model cpRank rawIterator dataIteratorLen 1 seqDimSize padFactor
      padPackedSeqToMultipleOf padFullSeqTo
  else if mbs = 0 then .error .zeroDivision
  else do
    let rawIterator ← data.makeMicrobatchIterator mbs
    processedIterator zero cfg model cpRank rawIterator (data.size / mbs) mbs seqDimSize padFactor 1
      none

end Processing

end NemoRL.Models.Megatron
