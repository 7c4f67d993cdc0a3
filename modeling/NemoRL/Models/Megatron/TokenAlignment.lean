import NemoRL.Distributed.MicrobatchPlans
import NemoRL.Foundations.Tensors
import NemoRL.Models.Megatron.MicrobatchIterator
import NemoRL.Models.Megatron.PackLayout

namespace NemoRL.Models.Megatron

open Foundations.Blocks Distributed.ContextParallel

variable {α : Type}

section Units

def blocks (seq unit : ℕ) : ℕ := (seq + unit - 1) / unit

theorem roundUpToMultiple_eq {n unit : ℕ} (h : 0 < unit) :
    roundUpToMultiple n unit = unit * blocks n unit := by
  rw [roundUpToMultiple, blocks]
  split
  · rw [Nat.mul_comm]
  · rename_i hmod
    obtain ⟨q, rfl⟩ := Nat.dvd_of_mod_eq_zero (not_not.mp hmod)
    rw [Nat.add_sub_assoc h, Nat.mul_add_div h, Nat.div_eq_of_lt (by omega), Nat.add_zero]

theorem roundUp_eq_roundUpToMultiple {n unit : ℕ} (h : 0 < unit) :
    Distributed.BatchedDataDict.roundUp unit n = roundUpToMultiple n unit := by
  rw [roundUpToMultiple_eq h, Distributed.BatchedDataDict.roundUp, blocks, Nat.mul_comm]

theorem dvd_mul_div_iff {a k rows w : ℕ} (hk : 0 < k) (hw : k ∣ w) :
    a ∣ rows * (w / k) ↔ a * k ∣ rows * w := by
  obtain ⟨q, rfl⟩ := hw
  rw [Nat.mul_div_cancel_left q hk, Nat.mul_left_comm, Nat.mul_comm a k,
    Nat.mul_dvd_mul_iff_left hk]

/-- The tensor parallel ranks that the sequence is split over. -/
def spSize (cfg : MegatronCfg) : ℕ :=
  if cfg.tensorModelParallelSize > 1 ∧ cfg.sequenceParallel then cfg.tensorModelParallelSize else 1

theorem spSize_pos (cfg : MegatronCfg) : 0 < spSize cfg := by
  rw [spSize]
  split_ifs with h
  · omega
  · exact Nat.one_pos

def cpChunks (cfg : MegatronCfg) : ℕ :=
  if cfg.contextParallelSize > 1 then cfg.contextParallelSize * 2 else 1

theorem minimumPadFactor_eq (cfg : MegatronCfg) :
    minimumPadFactor cfg = cpChunks cfg * spSize cfg := by
  rw [minimumPadFactor, cpChunks, spSize]
  split_ifs <;> simp

theorem contextParallelSize_dvd_cpChunks {cfg : MegatronCfg} (h : 0 < cfg.contextParallelSize) :
    cfg.contextParallelSize ∣ cpChunks cfg := by
  rw [cpChunks]
  split_ifs with hcp
  · exact Nat.dvd_mul_right _ _
  · obtain hone : cfg.contextParallelSize = 1 := by omega
    rw [hone]

theorem getFp8TokenAlignment_dvd (cfg : MegatronCfg) : getFp8TokenAlignment cfg ∣ 128 := by
  rw [getFp8TokenAlignment]
  split
  · decide
  · split_ifs <;> decide

theorem getFp8TokenAlignment_pos (cfg : MegatronCfg) : 0 < getFp8TokenAlignment cfg :=
  Nat.pos_of_dvd_of_pos (getFp8TokenAlignment_dvd cfg) (by decide)

def paddingUnit (cfg : PolicyCfg) : ℕ :=
  Nat.lcm (Nat.lcm (Nat.lcm cfg.makeSequenceLengthDivisibleBy
    (getFp8TokenAlignment cfg.megatronCfg)) (cpChunks cfg.megatronCfg)) (spSize cfg.megatronCfg)

theorem getNonPackedSequencePadFactor_eq (cfg : PolicyCfg) :
    getNonPackedSequencePadFactor cfg = paddingUnit cfg := by
  rw [getNonPackedSequencePadFactor, paddingUnit, cpChunks, spSize]
  split_ifs <;> simp

end Units

section Cuts

/-- Each rank feeds as many tokens of the microbatch to a linear layer as the FP8 recipe takes. -/
structure FeedsAligned (cfg : MegatronCfg) (mb : ProcessedMicrobatch α) : Prop where
  divisible : 1 < cfg.contextParallelSize → 2 * cfg.contextParallelSize ∣ mb.inputIds.width
  split : cfg.contextParallelSize * spSize cfg ∣ mb.inputIds.width
  tokens : getFp8TokenAlignment cfg ∣
    mb.inputIds.rows.length * (mb.inputIds.width / (cfg.contextParallelSize * spSize cfg))

def ToldLength (cfg : MegatronCfg) (paddedSeqLength : ℕ) (mb : ProcessedMicrobatch α) : Prop :=
  1 < cfg.pipelineModelParallelSize → mb.inputIds.width = paddedSeqLength

/-- A cut of so many rows and columns whose padded columns every rank has an aligned share of. -/
structure CutAligned (cfg : PolicyCfg) (seqDimSize rows seq : ℕ) : Prop where
  split : cfg.megatronCfg.contextParallelSize * spSize cfg.megatronCfg ∣
    paddingUnit cfg * blocks seq (paddingUnit cfg)
  tokens : getFp8TokenAlignment cfg.megatronCfg *
      (cfg.megatronCfg.contextParallelSize * spSize cfg.megatronCfg) ∣
    rows * (paddingUnit cfg * blocks seq (paddingUnit cfg))
  pipeline : 1 < cfg.megatronCfg.pipelineModelParallelSize →
    blocks seq (paddingUnit cfg) = blocks seqDimSize (paddingUnit cfg)

/-- A user's multiple that is aligned on every rank aligns every cut as long as the batch. -/
theorem CutAligned.of_dvd {cfg : PolicyCfg} (h : getFp8TokenAlignment cfg.megatronCfg *
      (cfg.megatronCfg.contextParallelSize * spSize cfg.megatronCfg) ∣
    cfg.makeSequenceLengthDivisibleBy) (rows seq : ℕ) : CutAligned cfg seq rows seq := by
  have hunit : getFp8TokenAlignment cfg.megatronCfg *
      (cfg.megatronCfg.contextParallelSize * spSize cfg.megatronCfg) ∣ paddingUnit cfg :=
    h.trans ((Nat.dvd_lcm_left _ _).trans ((Nat.dvd_lcm_left _ _).trans (Nat.dvd_lcm_left _ _)))
  exact ⟨((Nat.dvd_mul_left _ _).trans hunit).mul_right _, (hunit.mul_right _).mul_left _,
    fun _ ↦ rfl⟩

/-- The rows and the columns of the microbatches that a batch is cut into, where it is not
packed. -/
def cutShapes (cfg : PolicyCfg) (data : BatchedData α) (mbs : ℕ) : List (ℕ × ℕ) :=
  if cfg.dynamicBatching then
    match data.microBatches with
    | .ok (indices, lengths) => (lengths.zip indices).map fun x ↦ (x.2.2 - x.2.1, x.1)
    | .error _ => []
  else List.replicate (data.size / mbs) (mbs, data.inputIds.width)

variable {cfg : PolicyCfg} {model : ModelPacking} {data sliced : BatchedData α} {zero : α}
  {cpRank mbs : ℕ}

theorem inputIds_of_mapTensors {f : SeqTensor α → Except IteratorError (SeqTensor α)}
    (h : data.mapTensors f = .ok sliced) : f data.inputIds = .ok sliced.inputIds := by
  rw [BatchedData.mapTensors] at h
  obtain ⟨inputIds, hids, h⟩ := bind_eq_ok h
  obtain ⟨others, -, h⟩ := bind_eq_ok h
  obtain rfl := Except.ok.inj h
  exact hids

theorem shape_of_slice {start stop : ℕ} (h : data.slice start stop = .ok sliced) :
    sliced.size = stop - start ∧ sliced.inputIds.width = data.inputIds.width ∧
      sliced.inputIds.rows = slice data.inputIds.rows start stop ∧
      sliced.inputLengths = slice data.inputLengths start stop := by
  rw [BatchedData.slice] at h
  obtain ⟨cut, hcut, h⟩ := bind_eq_ok h
  obtain rfl := Except.ok.inj h
  have hids := inputIds_of_mapTensors hcut
  rw [SeqTensor.slice] at hids
  split_ifs at hids with hstop
  have hrows : cut.inputIds.rows = slice data.inputIds.rows start stop :=
    (congrArg SeqTensor.rows (Except.ok.inj hids)).symm
  refine ⟨?_, (congrArg SeqTensor.width (Except.ok.inj hids)).symm, hrows, rfl⟩
  rw [BatchedData.size, hrows, slice, List.length_take, List.length_drop]
  omega

theorem shape_of_truncate {truncatedLen : ℕ} (h : data.truncateTensors truncatedLen = .ok sliced) :
    sliced.size = data.size ∧ sliced.inputIds.width = truncatedLen := by
  have hids := inputIds_of_mapTensors h
  rw [SeqTensor.narrow] at hids
  split_ifs at hids with hlen
  have hrows : sliced.inputIds.rows = data.inputIds.rows.map (List.take truncatedLen) :=
    (congrArg SeqTensor.rows (Except.ok.inj hids)).symm
  refine ⟨?_, (congrArg SeqTensor.width (Except.ok.inj hids)).symm⟩
  rw [BatchedData.size, hrows, List.length_map, BatchedData.size]

theorem shapes_of_dynamic {raw : List (BatchedData α)} (hdynamic : cfg.dynamicBatching = true)
    (h : data.makeMicrobatchIteratorWithDynamicShapes = .ok raw) :
    raw.map (fun d ↦ (d.size, d.inputIds.width)) = cutShapes cfg data mbs := by
  rw [BatchedData.makeMicrobatchIteratorWithDynamicShapes] at h
  obtain ⟨⟨indices, lengths⟩, hplan, h⟩ := bind_eq_ok h
  rw [cutShapes, if_pos hdynamic, hplan]
  refine map_eq_map_of_forall₂ ((forall₂_of_mapM_ok h).imp fun x d hd ↦ ?_)
  obtain ⟨cut, hcut, hd⟩ := bind_eq_ok hd
  obtain ⟨hsize, -⟩ := shape_of_slice hcut
  obtain ⟨hrows, hwidth⟩ := shape_of_truncate hd
  rw [hrows, hwidth, hsize]

theorem shapes_of_dense {raw : List (BatchedData α)} (hdynamic : cfg.dynamicBatching = false)
    (h : data.makeMicrobatchIterator mbs = .ok raw) :
    raw.map (fun d ↦ (d.size, d.inputIds.width)) = cutShapes cfg data mbs := by
  rw [BatchedData.makeMicrobatchIterator] at h
  split_ifs at h
  have hconst : cutShapes cfg data mbs =
      (List.range (data.size / mbs)).map fun _ ↦ (mbs, data.inputIds.width) := by
    rw [cutShapes, if_neg (by rw [hdynamic]; exact Bool.false_ne_true), List.map_const',
      List.length_range]
  rw [hconst]
  refine map_eq_map_of_forall₂ ((forall₂_of_mapM_ok h).imp fun i d hd ↦ ?_)
  obtain ⟨hsize, hwidth, -⟩ := shape_of_slice hd
  rw [hsize, hwidth, Nat.add_sub_cancel_left]

theorem padSequenceAlignedTensors_shape {unit : ℕ} (hunit : 0 < unit) :
    (padSequenceAlignedTensors zero data unit).inputIds.rows.length = data.size ∧
      (padSequenceAlignedTensors zero data unit).inputIds.width =
        unit * blocks data.inputIds.width unit := by
  rw [← roundUpToMultiple_eq hunit, padSequenceAlignedTensors]
  have hle := le_roundUpToMultiple (n := data.inputIds.width) hunit
  by_cases hone : unit ≤ 1
  · obtain rfl : unit = 1 := by omega
    rw [if_pos le_rfl, roundUpToMultiple_one]
    exact ⟨rfl, rfl⟩
  · rw [if_neg hone]
    dsimp only
    by_cases hzero : roundUpToMultiple data.inputIds.width unit - data.inputIds.width = 0
    · rw [if_pos hzero]
      exact ⟨rfl, by omega⟩
    · rw [if_neg hzero]
      dsimp only [SeqTensor.padRight]
      exact ⟨List.length_map .., by omega⟩

theorem dense_iff (hcp : 0 < cfg.megatronCfg.contextParallelSize)
    (hpacking : cfg.sequencePacking = false) (hunit : 0 < paddingUnit cfg) {seqDimSize : ℕ}
    {mb : ProcessedMicrobatch α}
    (h : processMicrobatch zero (paddingUnit cfg) 1 none cfg.sequencePacking model cpRank
      cfg.megatronCfg.contextParallelSize data = .ok mb) :
    FeedsAligned cfg.megatronCfg mb ∧ ToldLength cfg.megatronCfg
        (roundUpToMultiple seqDimSize (paddingUnit cfg)) mb ↔
      CutAligned cfg seqDimSize data.size data.inputIds.width := by
  rw [processMicrobatch, hpacking] at h
  obtain rfl := Except.ok.inj h
  obtain ⟨hrows, hwidth⟩ := @padSequenceAlignedTensors_shape _ data zero _ hunit
  have hshare : 0 < cfg.megatronCfg.contextParallelSize * spSize cfg.megatronCfg :=
    Nat.mul_pos hcp (spSize_pos _)
  constructor
  · rintro ⟨⟨-, hsplit, htokens⟩, htold⟩
    dsimp only [ToldLength] at hsplit htokens htold
    rw [hwidth] at hsplit htokens htold
    rw [hrows, dvd_mul_div_iff hshare hsplit] at htokens
    refine ⟨hsplit, htokens, fun hpp ↦ ?_⟩
    have heq := htold hpp
    rw [roundUpToMultiple_eq hunit] at heq
    exact Nat.eq_of_mul_eq_mul_left hunit heq
  · rintro ⟨hsplit, htokens, hpipeline⟩
    refine ⟨⟨fun hlt ↦ ?_, ?_, ?_⟩, fun hpp ↦ ?_⟩
    · dsimp only
      rw [hwidth]
      refine Dvd.dvd.mul_right ?_ _
      have hchunks : cpChunks cfg.megatronCfg = 2 * cfg.megatronCfg.contextParallelSize := by
        rw [cpChunks, if_pos hlt, Nat.mul_comm]
      rw [← hchunks]
      exact (Nat.dvd_lcm_right _ _).trans (Nat.dvd_lcm_left _ _)
    · dsimp only
      rw [hwidth]
      exact hsplit
    · dsimp only
      rw [hwidth, hrows, dvd_mul_div_iff hshare hsplit]
      exact htokens
    · dsimp only
      rw [hwidth, hpipeline hpp, roundUpToMultiple_eq hunit]

end Cuts

section Packs

def rankDivisor (cfg : MegatronCfg) : ℕ :=
  if cfg.moeTokenDispatcherType = some "flex" ∧ cfg.moeFlexDispatcherBackend = some "hybridep" then
    max (getFp8TokenAlignment cfg) 128
  else getFp8TokenAlignment cfg

theorem getFp8TokenAlignment_dvd_rankDivisor (cfg : MegatronCfg) :
    getFp8TokenAlignment cfg ∣ rankDivisor cfg := by
  rw [rankDivisor]
  split_ifs
  · rw [Nat.max_eq_right (Nat.le_of_dvd (by decide) (getFp8TokenAlignment_dvd cfg))]
    exact getFp8TokenAlignment_dvd cfg
  · exact dvd_rfl

theorem packedMultiple_eq (cfg : MegatronCfg) :
    packedMultiple cfg =
      if rankDivisor cfg > 1 then rankDivisor cfg * minimumPadFactor cfg else 1 := by
  rw [packedMultiple, minimumPadFactor, rankDivisor]
  dsimp only
  generalize (if cfg.moeTokenDispatcherType = some "flex" ∧
    cfg.moeFlexDispatcherBackend = some "hybridep" then max (getFp8TokenAlignment cfg) 128
    else getFp8TokenAlignment cfg) = divisor
  split_ifs <;> simp [Nat.mul_assoc]

variable {cfg : MegatronCfg} {n maxLen : ℕ} {padTo : Option ℕ}

theorem minimumPadFactor_pos (cfg : MegatronCfg) : 0 < minimumPadFactor cfg := by
  rw [minimumPadFactor_eq]
  refine Nat.mul_pos ?_ (spSize_pos cfg)
  rw [cpChunks]
  split_ifs <;> omega

theorem packedMultiple_pos (cfg : MegatronCfg) : 0 < packedMultiple cfg := by
  rw [packedMultiple_eq]
  split_ifs with h
  · exact Nat.mul_pos (by omega) (minimumPadFactor_pos cfg)
  · exact Nat.one_pos

theorem rankDivisor_pos (cfg : MegatronCfg) : 0 < rankDivisor cfg := by
  have hpos := getFp8TokenAlignment_pos cfg
  rw [rankDivisor]
  split_ifs <;> omega

/-- A packed length that is whole on every rank before it is padded is aligned on every rank. -/
theorem dvd_packedLength (hto : ∀ length ∈ padTo, length = roundUpToMultiple maxLen (packedMultiple cfg))
    (hn : minimumPadFactor cfg ∣ n) (hmax : minimumPadFactor cfg ∣ maxLen) :
    getFp8TokenAlignment cfg * minimumPadFactor cfg ∣
      packedLength (packedMultiple cfg) padTo n := by
  have hround : ∀ m, minimumPadFactor cfg ∣ m →
      getFp8TokenAlignment cfg * minimumPadFactor cfg ∣
        roundUpToMultiple m (packedMultiple cfg) := by
    intro m hm
    rw [packedMultiple_eq]
    split_ifs with h
    · exact (Nat.mul_dvd_mul_right (getFp8TokenAlignment_dvd_rankDivisor cfg) _).trans
        (dvd_roundUpToMultiple _ _)
    · have hle := Nat.le_of_dvd (rankDivisor_pos cfg) (getFp8TokenAlignment_dvd_rankDivisor cfg)
      have hpos := getFp8TokenAlignment_pos cfg
      have hone : getFp8TokenAlignment cfg = 1 := by omega
      rwa [hone, Nat.one_mul, roundUpToMultiple_one]
  cases padTo with
  | some length =>
    rw [packedLength, hto length rfl]
    exact hround maxLen hmax
  | none =>
    have hkept := hround n hn
    have hpos := packedMultiple_pos cfg
    rw [packedLength]
    split_ifs with h
    · exact hkept
    · have hone : packedMultiple cfg = 1 := by omega
      rwa [hone, roundUpToMultiple_one] at hkept

/-- A batch whose microbatches are planned as they are packed. -/
structure PackedPlan (cfg : PolicyCfg) (data : BatchedData α) : Prop where
  multiple_pos : 0 < cfg.makeSequenceLengthDivisibleBy
  count : data.inputLengths.length = data.size
  length_le : ∀ n ∈ data.inputLengths, n ≤ data.inputIds.width
  plan : ∀ indices lengths, data.microBatches = .ok (indices, lengths) →
    lengths.length = indices.length ∧ ∀ x ∈ lengths.zip indices, x.2.1 < x.2.2 ∧
      x.1 = ((slice data.inputLengths x.2.1 x.2.2).map
        (Distributed.BatchedDataDict.roundUp cfg.makeSequenceLengthDivisibleBy)).sum

theorem dvd_foldl_max {d start : ℕ} {l : List ℕ} (hstart : d ∣ start) (h : ∀ m ∈ l, d ∣ m) :
    d ∣ l.foldl max start := by
  induction l generalizing start with
  | nil => exact hstart
  | cons m l ih =>
    obtain ⟨hm, hl⟩ := List.forall_mem_cons.mp h
    refine ih ?_ hl
    rcases max_choice start m with heq | heq
    · rw [heq]
      exact hstart
    · rw [heq]
      exact hm

theorem length_shares {parts : List (List α)} {cpRank cpSize : ℕ} (hrank : cpRank < cpSize)
    (h : ∀ part ∈ parts, Splits cpSize part.length) :
    (parts.map (getTokensOnThisCpRank cpRank cpSize)).flatten.length * cpSize =
      parts.flatten.length := by
  induction parts with
  | nil => exact Nat.zero_mul _
  | cons part parts ih =>
    obtain ⟨hpart, hparts⟩ := List.forall_mem_cons.mp h
    rw [List.map_cons, List.flatten_cons, List.flatten_cons, List.length_append, List.length_append,
      Nat.add_mul, ih hparts, length_getTokensOnThisCpRank hpart hrank,
      Nat.div_mul_cancel (hpart.dvd (by omega))]

theorem padPackedSeqTo_isSome {pad padFactor multiple : ℕ}
    (h : getPackSequenceParametersForMegatron cfg pad maxLen = .ok (padFactor, multiple, padTo))
    (hpp : 1 < cfg.pipelineModelParallelSize) : padTo.isSome := by
  rw [getPackSequenceParametersForMegatron] at h
  split at h
  · cases h
  · simp only [Except.ok.injEq, Prod.mk.injEq] at h
    rw [← h.2.2]
    rfl

theorem minimumPadFactor_dvd {pad padFactor multiple : ℕ}
    (h : getPackSequenceParametersForMegatron cfg pad maxLen = .ok (padFactor, multiple, padTo)) :
    minimumPadFactor cfg ∣ pad := by
  rw [getPackSequenceParametersForMegatron] at h
  split at h
  · cases h
  · rename_i hmod
    exact Nat.dvd_of_mod_eq_zero (not_not.mp hmod)

theorem padPackedSeqTo_eq_none {pad padFactor multiple : ℕ}
    (h : getPackSequenceParametersForMegatron cfg pad maxLen = .ok (padFactor, multiple, padTo))
    (hpp : ¬ 1 < cfg.pipelineModelParallelSize) : padTo = none := by
  rw [getPackSequenceParametersForMegatron] at h
  split at h
  · cases h
  · simp only [Except.ok.injEq, Prod.mk.injEq] at h
    exact h.2.2.symm

theorem share_dvd_minimumPadFactor (hcp : 0 < cfg.contextParallelSize) :
    cfg.contextParallelSize * spSize cfg ∣ minimumPadFactor cfg := by
  rw [minimumPadFactor_eq]
  exact Nat.mul_dvd_mul_right (contextParallelSize_dvd_cpChunks hcp) _

/-- One packed row whose length is whole on every rank is aligned where the shares are. -/
theorem feedsAligned_iff {mb : ProcessedMicrobatch α} (hcp : 0 < cfg.contextParallelSize)
    (hrows : mb.inputIds.rows.length = 1) (hwhole : minimumPadFactor cfg ∣ mb.inputIds.width) :
    FeedsAligned cfg mb ↔
      getFp8TokenAlignment cfg * (cfg.contextParallelSize * spSize cfg) ∣ mb.inputIds.width := by
  have hshare := (share_dvd_minimumPadFactor hcp).trans hwhole
  have htokens : getFp8TokenAlignment cfg ∣ mb.inputIds.rows.length *
      (mb.inputIds.width / (cfg.contextParallelSize * spSize cfg)) ↔
        getFp8TokenAlignment cfg * (cfg.contextParallelSize * spSize cfg) ∣
          mb.inputIds.width := by
    rw [dvd_mul_div_iff (Nat.mul_pos hcp (spSize_pos _)) hshare, hrows, Nat.one_mul]
  refine ⟨fun h ↦ htokens.mp h.tokens, fun h ↦ ⟨fun hlt ↦ ?_, hshare, htokens.mpr h⟩⟩
  rw [Nat.mul_comm]
  exact (splits_minimumPadFactor _ hlt).trans hwhole

theorem PackedPlan.dvd_lengths {cfg : PolicyCfg} {data : BatchedData α} (hplan : PackedPlan cfg data)
    {indices : List (ℕ × ℕ)} {lengths : List ℕ}
    (hbatches : data.microBatches = .ok (indices, lengths))
    (hmin : minimumPadFactor cfg.megatronCfg ∣ cfg.makeSequenceLengthDivisibleBy) :
    ∀ n ∈ lengths, minimumPadFactor cfg.megatronCfg ∣ n := by
  intro n hn
  obtain ⟨i, hi⟩ := List.mem_iff_getElem?.mp hn
  obtain ⟨hcount, hsums⟩ := hplan.plan _ _ hbatches
  have hlt := (List.getElem?_eq_some_iff.mp hi).1
  have hzip : (n, indices[i]) ∈ lengths.zip indices := by
    refine List.mem_iff_getElem?.mpr ⟨i, ?_⟩
    rw [List.getElem?_zip_eq_some]
    exact ⟨hi, List.getElem?_eq_getElem (hcount ▸ hlt)⟩
  have hsum := (hsums _ hzip).2
  dsimp only at hsum
  rw [hsum]
  refine List.dvd_sum fun m hm ↦ ?_
  obtain ⟨k, -, rfl⟩ := List.mem_map.mp hm
  rw [roundUp_eq_roundUpToMultiple hplan.multiple_pos]
  exact hmin.trans (dvd_roundUpToMultiple _ _)

theorem PackedPlan.fits {cfg : PolicyCfg} {data d : BatchedData α} (hplan : PackedPlan cfg data)
    {indices : List (ℕ × ℕ)} {lengths : List ℕ} {padFactor multiple : ℕ}
    (hbatches : data.microBatches = .ok (indices, lengths)) {x : ℕ × ℕ × ℕ}
    (hx : x ∈ lengths.zip indices) (hslice : data.slice x.2.1 x.2.2 = .ok d)
    (hparams : getPackSequenceParametersForMegatron cfg.megatronCfg
      cfg.makeSequenceLengthDivisibleBy (lengths.foldl max 0) = .ok (padFactor, multiple, padTo))
    (hne : d.inputIds.rows.zip d.inputLengths ≠ []) :
    (paddedLens padFactor (d.inputIds.rows.zip d.inputLengths)).sum = x.1 ∧
      Fits padFactor multiple padTo (d.inputIds.rows.zip d.inputLengths) := by
  obtain ⟨rfl, rfl, -, hto⟩ := getPackSequenceParameters_ok hparams
  obtain ⟨-, hwidth, hrows, hlengths⟩ := shape_of_slice hslice
  have hcount : d.inputLengths.length = d.inputIds.rows.length := by
    have hsize := hplan.count
    rw [BatchedData.size] at hsize
    rw [hrows, hlengths, slice, slice, List.length_take, List.length_take, List.length_drop,
      List.length_drop, hsize]
  have hsum : (paddedLens cfg.makeSequenceLengthDivisibleBy
      (d.inputIds.rows.zip d.inputLengths)).sum = x.1 := by
    rw [((hplan.plan _ _ hbatches).2 x hx).2, ← hlengths, paddedLens, List.map_snd_zip hcount.le]
    congr 1
    exact List.map_congr_left fun n _ ↦ (roundUp_eq_roundUpToMultiple hplan.multiple_pos).symm
  have hmax : x.1 ≤ lengths.foldl max 0 :=
    Foundations.Positions.le_foldl_max 0 (List.of_mem_zip hx).1
  refine ⟨hsum, hplan.multiple_pos, hne, fun y hy ↦ ?_, ?_, fun length hlength ↦ ?_⟩
  · obtain ⟨hrow, hlen⟩ := List.of_mem_zip hy
    rw [d.inputIds.rect y.1 hrow, hwidth]
    rw [hlengths] at hlen
    exact hplan.length_le y.2 (mem_of_mem_slice hlen)
  · rw [hsum]
    cases padTo with
    | some length =>
      rw [packedLength, hto length rfl]
      exact hmax.trans (le_roundUpToMultiple (packedMultiple_pos _))
    | none =>
      rw [packedLength]
      split_ifs
      · exact le_roundUpToMultiple (packedMultiple_pos _)
      · exact le_rfl
  · rw [hto length hlength]
    exact dvd_roundUpToMultiple _ _

theorem PackedPlan.aligned {cfg : PolicyCfg} {model : ModelPacking} {data d : BatchedData α}
    (hdelegate : model.delegatePackToModel = false) (hplan : PackedPlan cfg data)
    {indices : List (ℕ × ℕ)} {lengths : List ℕ} {padFactor multiple cpRank : ℕ} {zero : α}
    (hrank : cpRank < cfg.megatronCfg.contextParallelSize)
    (hbatches : data.microBatches = .ok (indices, lengths)) {x : ℕ × ℕ × ℕ}
    (hx : x ∈ lengths.zip indices) (hslice : data.slice x.2.1 x.2.2 = .ok d)
    (hparams : getPackSequenceParametersForMegatron cfg.megatronCfg
      cfg.makeSequenceLengthDivisibleBy (lengths.foldl max 0) = .ok (padFactor, multiple, padTo))
    {mb : ProcessedMicrobatch α}
    (h : processMicrobatch zero padFactor multiple padTo true model cpRank
      cfg.megatronCfg.contextParallelSize d = .ok mb) (seqLength : ℕ) :
    FeedsAligned cfg.megatronCfg mb ∧
      ToldLength cfg.megatronCfg (padTo.getD seqLength) mb ∧
      (model.modelSlicesContextParallelInputs = false →
        mb.inputIdsCpSharded.width * cfg.megatronCfg.contextParallelSize = mb.inputIds.width) := by
  rw [processMicrobatch, if_pos rfl, if_neg (by simp [hdelegate])] at h
  have hne : d.inputIds.rows.zip d.inputLengths ≠ [] := fun hnil ↦ by
    rw [hnil, packSequencesForMegatron] at h
    cases hmod : padTo.filter (· % multiple ≠ 0) with
    | some length =>
      rw [hmod] at h
      cases h
    | none =>
      rw [hmod] at h
      cases h
  obtain ⟨hsum, hfits⟩ := hplan.fits hbatches hx hslice hparams hne
  obtain ⟨rfl, rfl, hsplits, hto⟩ := getPackSequenceParameters_ok hparams
  have hmin := minimumPadFactor_dvd hparams
  have hlens := hplan.dvd_lengths hbatches hmin
  have hcp : 0 < cfg.megatronCfg.contextParallelSize := Nat.zero_lt_of_lt hrank
  obtain ⟨packed, hpacked, hall, hlocal, -⟩ := packSequencesForMegatron_ok zero hfits cpRank hcp
    fun hlt ↦ by
      have hdvd := hsplits hlt
      have hle := Nat.le_of_dvd hplan.multiple_pos hdvd
      omega
  rw [hpacked] at h
  obtain rfl := Except.ok.inj h
  have htotal := @sum_packParts α _ _ _ zero _ hfits
  rw [hsum] at htotal
  have hdvd := dvd_packedLength hto (hlens x.1 (List.of_mem_zip hx).1)
    (dvd_foldl_max (dvd_zero _) hlens)
  have hwidth : packed.allInputIds.length =
      packedLength (packedMultiple cfg.megatronCfg) padTo x.1 := by
    rw [hall, htotal]
  rw [← hwidth] at hdvd
  have hwhole : minimumPadFactor cfg.megatronCfg ∣ packed.allInputIds.length :=
    (Nat.dvd_mul_left _ _).trans hdvd
  refine ⟨?_, fun hpp ↦ ?_, fun hslices ↦ ?_⟩
  · refine (feedsAligned_iff hcp rfl hwhole).mpr ?_
    exact (Nat.mul_dvd_mul_left _ (share_dvd_minimumPadFactor hcp)).trans hdvd
  · obtain ⟨length, hsome⟩ := Option.isSome_iff_exists.mp (padPackedSeqTo_isSome hparams hpp)
    dsimp only [SeqTensor.ofRow]
    rw [hwidth, hsome]
    rfl
  · dsimp only [SeqTensor.ofRow]
    rw [hslices, if_neg Bool.false_ne_true, hall, hlocal]
    refine length_shares hrank (packParts_splits zero hfits hsplits ?_)
    rw [hsum, ← hwidth]
    exact fun hlt ↦ (splits_minimumPadFactor _ hlt).trans hwhole

theorem sum_modify_last {l : List ℕ} (h : l ≠ []) (d : ℕ) :
    (l.modify (l.length - 1) (· + d)).sum = l.sum + d := by
  induction l with
  | nil => exact absurd rfl h
  | cons a l ih =>
    cases l with
    | nil => simp
    | cons b l =>
      have hlast := ih (List.cons_ne_nil b l)
      rw [List.length_cons, Nat.add_sub_cancel] at hlast ⊢
      rw [List.length_cons, List.modify_succ_cons, List.sum_cons, hlast,
        List.sum_cons (a := a), Nat.add_assoc]

theorem vlmPaddedLens_ok {padFactor batchSize : ℕ} {lens padded : List ℕ} (hpos : 0 < padFactor)
    (hbatch : batchSize ≠ 0) (hne : lens ≠ [])
    (h : vlmPaddedLens padFactor padTo batchSize lens = .ok padded) :
    padded.length = lens.length ∧
      padded.sum = padTo.getD (lens.map (roundUpToMultiple · padFactor)).sum := by
  have halign : max 1 padFactor = padFactor := Nat.max_eq_right hpos
  cases padTo with
  | none =>
    simp only [vlmPaddedLens, halign] at h
    obtain rfl := Except.ok.inj h
    exact ⟨List.length_map .., rfl⟩
  | some length =>
    simp only [vlmPaddedLens, halign, if_neg hbatch] at h
    split_ifs at h with hlow
    obtain rfl := Except.ok.inj h
    refine ⟨by rw [List.length_modify, List.length_map], ?_⟩
    rw [sum_modify_last (by simpa using hne), Option.getD_some]
    omega

theorem prepareVlmBatchForMegatron_ok {padFactor : ℕ} {zero : α} {inputIds : SeqTensor α}
    {lens : List ℕ} {x : SeqTensor α × SeqTensor α} (hpos : 0 < padFactor)
    (hcount : lens.length = inputIds.rows.length) (hne : lens ≠ [])
    (h : prepareVlmBatchForMegatron zero padFactor padTo inputIds lens = .ok x) :
    x.1.rows.length = 1 ∧
      x.1.width = padTo.getD (lens.map (roundUpToMultiple · padFactor)).sum := by
  rw [prepareVlmBatchForMegatron] at h
  cases hpadded : vlmPaddedLens padFactor padTo inputIds.rows.length lens with
  | error e =>
    rw [hpadded] at h
    cases h
  | ok padded =>
    rw [hpadded] at h
    obtain rfl := Except.ok.inj h
    have hbatch : inputIds.rows.length ≠ 0 := fun hzero ↦
      hne (List.length_eq_zero_iff.mp (hcount.trans hzero))
    obtain ⟨hlen, hsum⟩ := vlmPaddedLens_ok hpos hbatch hne hpadded
    refine ⟨rfl, ?_⟩
    have hwidths : ∀ x ∈ ((inputIds.resize zero (padded.foldl max 0)).rows.zip padded),
        (x.1.take x.2).length = x.2 := by
      intro x hx
      obtain ⟨hrow, hp⟩ := List.of_mem_zip hx
      have hle := Foundations.Positions.le_foldl_max 0 hp
      rw [List.length_take, (inputIds.resize zero _).rect _ hrow]
      exact Nat.min_eq_left hle
    have hrows : padded.length ≤ (inputIds.resize zero (padded.foldl max 0)).rows.length := by
      rw [hlen, hcount]
      exact (List.length_map ..).ge
    rw [← hsum]
    dsimp only [SeqTensor.ofRow]
    rw [List.length_flatMap, List.map_congr_left hwidths, List.map_snd_zip hrows]

/-- A model that packs by itself is given the padded sequences end to end, and no padding
behind them where the full length is not fixed. -/
theorem PackedPlan.delegated_iff {cfg : PolicyCfg} {model : ModelPacking} {data d : BatchedData α}
    (hdelegate : model.delegatePackToModel = true) (hplan : PackedPlan cfg data)
    (hcp : 0 < cfg.megatronCfg.contextParallelSize)
    {indices : List (ℕ × ℕ)} {lengths : List ℕ} {padFactor multiple cpRank : ℕ} {zero : α}
    (hbatches : data.microBatches = .ok (indices, lengths)) {x : ℕ × ℕ × ℕ}
    (hx : x ∈ lengths.zip indices) (hslice : data.slice x.2.1 x.2.2 = .ok d)
    (hparams : getPackSequenceParametersForMegatron cfg.megatronCfg
      cfg.makeSequenceLengthDivisibleBy (lengths.foldl max 0) = .ok (padFactor, multiple, padTo))
    {mb : ProcessedMicrobatch α}
    (h : processMicrobatch zero padFactor multiple padTo true model cpRank
      cfg.megatronCfg.contextParallelSize d = .ok mb) (seqLength : ℕ) :
    FeedsAligned cfg.megatronCfg mb ∧ ToldLength cfg.megatronCfg (padTo.getD seqLength) mb ↔
      1 < cfg.megatronCfg.pipelineModelParallelSize ∨
        getFp8TokenAlignment cfg.megatronCfg *
          (cfg.megatronCfg.contextParallelSize * spSize cfg.megatronCfg) ∣ x.1 := by
  rw [processMicrobatch, if_pos rfl, if_pos hdelegate] at h
  obtain ⟨rfl, rfl, -, hto⟩ := getPackSequenceParameters_ok hparams
  obtain ⟨hsize, -, hrows, hlengths⟩ := shape_of_slice hslice
  obtain ⟨hlt, hsum⟩ := (hplan.plan _ _ hbatches).2 x hx
  have hcount : d.inputLengths.length = d.inputIds.rows.length := by
    have hall := hplan.count
    rw [BatchedData.size] at hall
    rw [hrows, hlengths, slice, slice, List.length_take, List.length_take, List.length_drop,
      List.length_drop, hall]
  have hne : d.inputLengths ≠ [] := fun hnil ↦ by
    rw [BatchedData.size, ← hcount, hnil, List.length_nil] at hsize
    omega
  cases hvlm : prepareVlmBatchForMegatron zero cfg.makeSequenceLengthDivisibleBy padTo d.inputIds
      d.inputLengths with
  | error e =>
    rw [hvlm] at h
    cases h
  | ok y =>
    rw [hvlm] at h
    obtain rfl := Except.ok.inj h
    obtain ⟨hone, hwidth⟩ := prepareVlmBatchForMegatron_ok hplan.multiple_pos hcount hne hvlm
    have hnatural : (d.inputLengths.map
        (roundUpToMultiple · cfg.makeSequenceLengthDivisibleBy)).sum = x.1 := by
      rw [hsum, ← hlengths]
      congr 1
      exact List.map_congr_left fun n _ ↦ (roundUp_eq_roundUpToMultiple hplan.multiple_pos).symm
    rw [hnatural] at hwidth
    have hlens := hplan.dvd_lengths hbatches (minimumPadFactor_dvd hparams)
    have hnat := hlens x.1 (List.of_mem_zip hx).1
    by_cases hpp : 1 < cfg.megatronCfg.pipelineModelParallelSize
    · obtain ⟨length, rfl⟩ := Option.isSome_iff_exists.mp (padPackedSeqTo_isSome hparams hpp)
      have hdvd := dvd_packedLength hto hnat (dvd_foldl_max (dvd_zero _) hlens)
      rw [packedLength, ← Option.getD_some (a := length) (b := x.1), ← hwidth] at hdvd
      refine iff_of_true ⟨?_, fun _ ↦ hwidth⟩ (.inl hpp)
      refine (feedsAligned_iff hcp hone ((Nat.dvd_mul_left _ _).trans hdvd)).mpr ?_
      exact (Nat.mul_dvd_mul_left _ (share_dvd_minimumPadFactor hcp)).trans hdvd
    · obtain rfl := padPackedSeqTo_eq_none hparams hpp
      rw [Option.getD_none] at hwidth
      have htold : ToldLength cfg.megatronCfg (none.getD seqLength)
          ⟨d, y.1, y.2, d.inputIds.width⟩ := fun hlt ↦ absurd hlt hpp
      rw [or_iff_right hpp, and_iff_left htold, feedsAligned_iff hcp hone (hwidth ▸ hnat)]
      dsimp only
      rw [hwidth]

end Packs

section Iterators

variable {cfg : PolicyCfg} {model : ModelPacking} {data : BatchedData α} {zero : α}
  {cpRank mbs : ℕ} {it : MicrobatchIterator α}

/-- Every processed microbatch is aligned on every rank, the pipeline is told its length, and
packing hands every context parallel rank its share, unless the model takes that by itself. -/
def TokensAligned (cfg : PolicyCfg) (model : ModelPacking) (it : MicrobatchIterator α) : Prop :=
  ∀ mb ∈ it.microbatches, FeedsAligned cfg.megatronCfg mb ∧
    ToldLength cfg.megatronCfg it.paddedSeqLength mb ∧
    (cfg.sequencePacking = true → model.delegatePackToModel = false →
      model.modelSlicesContextParallelInputs = false →
      mb.inputIdsCpSharded.width * cfg.megatronCfg.contextParallelSize = mb.inputIds.width)

theorem forall_mem_iff_of_forall₂ {β γ : Type} {R : β → γ → Prop} {P : γ → Prop} {Q : β → Prop}
    {l : List β} {r : List γ} (h : List.Forall₂ R l r)
    (hPQ : ∀ a ∈ l, ∀ b, R a b → (P b ↔ Q a)) : (∀ b ∈ r, P b) ↔ ∀ a ∈ l, Q a := by
  induction h with
  | nil => exact ⟨fun _ a ha ↦ absurd ha List.not_mem_nil, fun _ b hb ↦ absurd hb List.not_mem_nil⟩
  | cons hab _ ih =>
    rw [List.forall_mem_cons, List.forall_mem_cons, hPQ _ (List.mem_cons_self ..) _ hab,
      ih fun a ha ↦ hPQ a (List.mem_cons_of_mem _ ha)]

theorem forall₂_comp {β γ δ : Type} {R : β → γ → Prop} {S : γ → δ → Prop} {l : List β}
    {m : List γ} {r : List δ} (h : List.Forall₂ R l m) (h' : List.Forall₂ S m r) :
    List.Forall₂ (fun a c ↦ ∃ b, R a b ∧ S b c) l r := by
  induction h generalizing r with
  | nil =>
    obtain rfl := List.forall₂_nil_left_iff.mp h'
    exact .nil
  | cons hab _ ih =>
    cases h' with
    | cons hbc h' => exact .cons ⟨_, hab, hbc⟩ (ih h')

theorem processedIterator_ok {raw : List (BatchedData α)}
    {dataIteratorLen microBatchSize seqDimSize padFactor multiple : ℕ} {padTo : Option ℕ}
    (h : processedIterator zero cfg model cpRank raw dataIteratorLen microBatchSize seqDimSize
      padFactor multiple padTo = .ok it) :
    (padTo = none → 0 < padFactor) ∧
      List.Forall₂ (fun d mb ↦ processMicrobatch zero padFactor multiple padTo cfg.sequencePacking
        model cpRank cfg.megatronCfg.contextParallelSize d = .ok mb) raw it.microbatches ∧
      it.paddedSeqLength = padTo.getD (roundUpToMultiple seqDimSize padFactor) := by
  rw [processedIterator] at h
  split_ifs at h with hzero
  obtain ⟨microbatches, hmicrobatches, h⟩ := bind_eq_ok h
  obtain rfl := Except.ok.inj h
  refine ⟨fun hnone ↦ Nat.pos_of_ne_zero fun hfactor ↦ hzero ⟨hnone, hfactor⟩, ?_, rfl⟩
  exact forall₂_of_mapM_ok hmicrobatches

theorem unpacked_iff (hcp : 0 < cfg.megatronCfg.contextParallelSize)
    (hpacking : cfg.sequencePacking = false) {raw : List (BatchedData α)}
    (hraw : raw.map (fun d ↦ (d.size, d.inputIds.width)) = cutShapes cfg data mbs)
    {dataIteratorLen microBatchSize : ℕ}
    (h : processedIterator zero cfg model cpRank raw dataIteratorLen microBatchSize
      data.inputIds.width (getNonPackedSequencePadFactor cfg) 1 none = .ok it) :
    TokensAligned cfg model it ↔
      ∀ x ∈ cutShapes cfg data mbs, CutAligned cfg data.inputIds.width x.1 x.2 := by
  rw [getNonPackedSequencePadFactor_eq] at h
  obtain ⟨hunit, hall, htold⟩ := processedIterator_ok h
  rw [← hraw, List.forall_mem_map]
  refine forall_mem_iff_of_forall₂ hall fun d _ mb hmb ↦ ?_
  rw [← dense_iff hcp hpacking (hunit rfl) hmb, htold, Option.getD_none]
  have hnot : ¬ cfg.sequencePacking = true := by
    rw [hpacking]
    exact Bool.false_ne_true
  exact ⟨fun ⟨hfeeds, hlength, _⟩ ↦ ⟨hfeeds, hlength⟩,
    fun ⟨hfeeds, hlength⟩ ↦ ⟨hfeeds, hlength, fun hpack ↦ absurd hpack hnot⟩⟩

theorem getAndValidateSeqlen_ok {seqDimSize : ℕ} (h : getAndValidateSeqlen data = .ok seqDimSize) :
    seqDimSize = data.inputIds.width := by
  rw [getAndValidateSeqlen] at h
  cases hfind : data.others.find? (·.2.width ≠ data.inputIds.width) with
  | some x =>
    rw [hfind] at h
    cases h
  | none =>
    rw [hfind] at h
    exact (Except.ok.inj h).symm

/-- Every planned microbatch is whole on every rank before the pack is padded. -/
def PlanAligned (cfg : PolicyCfg) (data : BatchedData α) : Prop :=
  ∀ indices lengths, data.microBatches = .ok (indices, lengths) → ∀ x ∈ lengths.zip indices,
    getFp8TokenAlignment cfg.megatronCfg *
        (cfg.megatronCfg.contextParallelSize * spSize cfg.megatronCfg) ∣
      ((slice data.inputLengths x.2.1 x.2.2).map
        (Distributed.BatchedDataDict.roundUp cfg.makeSequenceLengthDivisibleBy)).sum

theorem packed_iff (hrank : cpRank < cfg.megatronCfg.contextParallelSize)
    (hpacking : cfg.sequencePacking = true) (hplan : PackedPlan cfg data)
    {raw : List (BatchedData α)} (hraw : data.makeMicrobatchIteratorForPackableSequences = .ok raw)
    {dataIteratorLen packSeqDimSize seqDimSize padFactor multiple : ℕ} {padTo : Option ℕ}
    (hlen : data.getMicrobatchIteratorForPackableSequencesLen =
      .ok (dataIteratorLen, packSeqDimSize))
    (hparams : getPackSequenceParametersForMegatron cfg.megatronCfg
      cfg.makeSequenceLengthDivisibleBy packSeqDimSize = .ok (padFactor, multiple, padTo))
    (h : processedIterator zero cfg model cpRank raw dataIteratorLen 1 seqDimSize padFactor multiple
      padTo = .ok it) :
    TokensAligned cfg model it ↔ (model.delegatePackToModel = true →
      1 < cfg.megatronCfg.pipelineModelParallelSize ∨ PlanAligned cfg data) := by
  rw [BatchedData.makeMicrobatchIteratorForPackableSequences] at hraw
  obtain ⟨⟨indices, lengths⟩, hbatches, hraw⟩ := bind_eq_ok hraw
  rw [BatchedData.getMicrobatchIteratorForPackableSequencesLen, hbatches] at hlen
  obtain ⟨-, rfl⟩ : indices.length = dataIteratorLen ∧ lengths.foldl max 0 = packSeqDimSize := by
    change (if lengths = [] then .error IteratorError.emptyMax
      else .ok (indices.length, lengths.foldl max 0)) = Except.ok (_, _) at hlen
    split_ifs at hlen
    exact Prod.mk.inj (Except.ok.inj hlen)
  obtain ⟨-, hall, htold⟩ := processedIterator_ok h
  rw [hpacking] at hall
  have hcut := forall₂_comp (forall₂_of_mapM_ok hraw) hall
  unfold TokensAligned
  cases hdelegate : model.delegatePackToModel with
  | false =>
    refine iff_of_true (fun mb hmb ↦ ?_) fun h ↦ absurd h Bool.false_ne_true
    obtain ⟨x, hx, d, hslice, hprocess⟩ := Foundations.Tensors.exists_of_mem_right hcut hmb
    obtain ⟨hfeeds, hlength, hshare⟩ := hplan.aligned hdelegate hrank hbatches hx hslice
      hparams hprocess (roundUpToMultiple seqDimSize padFactor)
    exact ⟨hfeeds, htold ▸ hlength, fun _ _ ↦ hshare⟩
  | true =>
    have hiff : (∀ mb ∈ it.microbatches, FeedsAligned cfg.megatronCfg mb ∧
        ToldLength cfg.megatronCfg it.paddedSeqLength mb) ↔
          ∀ x ∈ lengths.zip indices, 1 < cfg.megatronCfg.pipelineModelParallelSize ∨
            getFp8TokenAlignment cfg.megatronCfg *
              (cfg.megatronCfg.contextParallelSize * spSize cfg.megatronCfg) ∣ x.1 := by
      refine forall_mem_iff_of_forall₂ hcut fun x hx mb hmb ↦ ?_
      obtain ⟨d, hslice, hprocess⟩ := hmb
      rw [htold]
      exact hplan.delegated_iff hdelegate (Nat.zero_lt_of_lt hrank) hbatches hx hslice hparams
        hprocess (roundUpToMultiple seqDimSize padFactor)
    have hplanned : PlanAligned cfg data ↔ ∀ x ∈ lengths.zip indices,
        getFp8TokenAlignment cfg.megatronCfg *
          (cfg.megatronCfg.contextParallelSize * spSize cfg.megatronCfg) ∣ x.1 := by
      have hsums := (hplan.plan _ _ hbatches).2
      constructor
      · intro h x hx
        rw [(hsums x hx).2]
        exact h _ _ hbatches x hx
      · intro h indices' lengths' heq x hx
        obtain ⟨rfl, rfl⟩ := Prod.mk.inj (Except.ok.inj (hbatches.symm.trans heq))
        rw [← (hsums x hx).2]
        exact h x hx
    rw [hplanned, forall_prop_of_true rfl]
    refine (forall₂_congr fun mb _ ↦ ?_).trans (hiff.trans ?_)
    · refine ⟨fun h ↦ ⟨h.1, h.2.1⟩, fun h ↦ ⟨h.1, h.2, fun _ hfalse ↦ ?_⟩⟩
      exact absurd hfalse.symm Bool.false_ne_true
    by_cases hpp : 1 < cfg.megatronCfg.pipelineModelParallelSize
    · simp only [hpp, true_or, implies_true]
    · simp only [hpp, false_or]

end Iterators

section Shards

open Distributed.BatchedDataDict

theorem PackedPlan.of_shard {cfg : PolicyCfg} {data : BatchedData α}
    {args : SequencePackingArgs} {inputLengths : List ℕ} {inputSeqlen shards chunkIdx : ℕ}
    {batchSize : Option ℕ} {sharded : List SlicedDataDict} {shard : SlicedDataDict}
    (hmultiple : args.sequenceLengthPadMultiple = cfg.makeSequenceLengthDivisibleBy)
    (hpos : 0 < cfg.makeSequenceLengthDivisibleBy)
    (h : shardByBatchSize inputLengths inputSeqlen shards batchSize none (some args) = some sharded)
    (hshard : shard ∈ sharded)
    (hchunk : chunkIdx < inputLengths.length / batchSize.getD inputLengths.length)
    (hlens : data.inputLengths = (shard.rows.filter
      (· / batchSize.getD inputLengths.length = chunkIdx)).map (inputLengths.getD · 0))
    (hindices : data.microBatchIndices =
      shard.microBatchIndices.map fun indices ↦ [indices.getD chunkIdx []])
    (hlengths : data.microBatchLengths =
      shard.microBatchLengths.map fun lengths ↦ [lengths.getD chunkIdx []])
    (hcount : data.inputLengths.length = data.size)
    (hwidth : ∀ n ∈ data.inputLengths, n ≤ data.inputIds.width) : PackedPlan cfg data := by
  obtain ⟨m, -, hplans⟩ := shardByBatchSize_packedPlans h hchunk
  obtain ⟨ranges, allLengths, plan, hranges, hall, hrange, hlength, -, hplan⟩ := hplans shard hshard
  refine ⟨hpos, hcount, hwidth, fun indices lengths hbatches ↦ ?_⟩
  rw [BatchedData.microBatches, hindices, hlengths, hranges, hall, Option.map_some, Option.map_some,
    List.getD_eq_getElem?_getD, List.getD_eq_getElem?_getD, hrange, hlength] at hbatches
  obtain ⟨rfl, rfl⟩ := Prod.mk.inj (Except.ok.inj hbatches)
  refine ⟨hplan.count, fun x hx ↦ ⟨Foundations.Tilings.lt_of_mem_tiles hplan.tiles (List.of_mem_zip hx).2, ?_⟩⟩
  obtain ⟨i, hi⟩ := List.mem_iff_getElem?.mp hx
  obtain ⟨hlen, hrng⟩ := List.getElem?_zip_eq_some.mp hi
  have hswap : (x.2, x.1) ∈ plan.1.zip plan.2 :=
    List.mem_iff_getElem?.mpr ⟨i, List.getElem?_zip_eq_some.mpr ⟨hrng, hlen⟩⟩
  have hsum := hplan.sums _ hswap
  dsimp only at hsum
  rw [hsum, hlens, ← map_slice, List.map_map, hmultiple]
  rfl

end Shards

section Alignment

variable {cfg : PolicyCfg} {model : ModelPacking} {data : BatchedData α} {zero : α}
  {cpRank mbs : ℕ} {it : MicrobatchIterator α}

/-- A batch that is not packed is aligned exactly where the padded columns of each cut are. A
packed batch is aligned on every rank, unless the model packs by itself: then the planned
microbatches have to be, or the pipeline fixes their length. -/
theorem tokensAligned_iff (hrank : cpRank < cfg.megatronCfg.contextParallelSize)
    (hmodes : cfg.dynamicBatching = true → cfg.sequencePacking = false)
    (hplan : cfg.sequencePacking = true → PackedPlan cfg data)
    (h : getMicrobatchIterator zero cfg model cpRank data mbs = .ok it) :
    TokensAligned cfg model it ↔
      if cfg.sequencePacking then model.delegatePackToModel = true →
        1 < cfg.megatronCfg.pipelineModelParallelSize ∨ PlanAligned cfg data
      else ∀ x ∈ cutShapes cfg data mbs, CutAligned cfg data.inputIds.width x.1 x.2 := by
  have hcp : 0 < cfg.megatronCfg.contextParallelSize := Nat.zero_lt_of_lt hrank
  rw [getMicrobatchIterator] at h
  obtain ⟨seqDimSize, hseq, h⟩ := bind_eq_ok h
  obtain rfl := getAndValidateSeqlen_ok hseq
  cases hpacking : cfg.sequencePacking with
  | true =>
    have hdynamic : cfg.dynamicBatching ≠ true := fun hdynamic ↦ by
      rw [hmodes hdynamic] at hpacking
      cases hpacking
    rw [if_neg hdynamic, if_pos hpacking] at h
    obtain ⟨raw, hraw, h⟩ := bind_eq_ok h
    obtain ⟨⟨dataIteratorLen, packSeqDimSize⟩, hlen, h⟩ := bind_eq_ok h
    obtain ⟨⟨padFactor, multiple, padTo⟩, hparams, h⟩ := bind_eq_ok h
    rw [if_pos rfl]
    refine packed_iff hrank hpacking (hplan hpacking) hraw hlen ?_ h
    cases hget : getPackSequenceParametersForMegatron cfg.megatronCfg
        cfg.makeSequenceLengthDivisibleBy packSeqDimSize with
    | error e =>
      rw [hget] at hparams
      cases hparams
    | ok params =>
      rw [hget] at hparams
      exact congrArg _ (Except.ok.inj hparams)
  | false =>
    have hfalse : ¬ cfg.sequencePacking = true := by
      rw [hpacking]
      exact Bool.false_ne_true
    rw [if_neg Bool.false_ne_true]
    by_cases hdynamic : cfg.dynamicBatching = true
    · rw [if_pos hdynamic, if_neg hfalse] at h
      obtain ⟨raw, hraw, h⟩ := bind_eq_ok h
      obtain ⟨⟨indices, lengths⟩, -, h⟩ := bind_eq_ok h
      exact unpacked_iff hcp hpacking (shapes_of_dynamic hdynamic hraw) h
    · rw [if_neg hdynamic, if_neg hfalse, if_neg hfalse] at h
      split_ifs at h
      obtain ⟨raw, hraw, h⟩ := bind_eq_ok h
      exact unpacked_iff hcp hpacking (shapes_of_dense (Bool.eq_false_iff.mpr hdynamic) hraw) h

/-- Dense MXFP8 batches with sequence parallelism over two ranks. -/
def denseMxfp8 (makeSequenceLengthDivisibleBy : ℕ) : PolicyCfg :=
  ⟨⟨2, true, 1, 1, some ⟨true, "mxfp8"⟩, none, none⟩, makeSequenceLengthDivisibleBy, false, false⟩

def oneRow : BatchedData ℕ := ⟨.ofRow (List.replicate 32 7), [32], [], none, none⟩

theorem tokensAligned_iff_padded :
    ∃ it, getMicrobatchIterator 0 (denseMxfp8 64) ⟨false, false⟩ 0 oneRow 1 = .ok it ∧
      TokensAligned (denseMxfp8 64) ⟨false, false⟩ it := by
  refine ⟨_, rfl, ?_⟩
  refine (@tokensAligned_iff ℕ (denseMxfp8 64) ⟨false, false⟩ oneRow 0 0 1 _ Nat.one_pos (fun _ ↦ rfl)
    (fun h ↦ absurd h Bool.false_ne_true) rfl).mpr fun x hx ↦ ?_
  obtain rfl := List.mem_singleton.mp hx
  exact ⟨by decide, by decide, fun _ ↦ rfl⟩

/-- Thirty-two tokens are padded no further, and each of the two ranks feeds sixteen. -/
theorem oneRow_misaligned :
    ∃ it, getMicrobatchIterator 0 (denseMxfp8 1) ⟨false, false⟩ 0 oneRow 1 = .ok it ∧
      ¬ TokensAligned (denseMxfp8 1) ⟨false, false⟩ it := by
  refine ⟨_, rfl, fun h ↦ ?_⟩
  have htokens := (h _ (List.mem_singleton.mpr rfl)).1.tokens
  exact absurd htokens (by decide)

end Alignment

end NemoRL.Models.Megatron
