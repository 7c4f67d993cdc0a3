import Mathlib
import NemoRL.Models.Draft.EagleDraft

namespace NemoRL.Models.Draft

open Foundations Foundations.Blocks

variable {m : DraftModel} {α : Type}

namespace DraftModel

theorem groups_pos (m : DraftModel) : 0 < m.config.groups := by
  rw [TransformerConfig.groups]
  cases h : m.config.numQueryGroups with
  | none => exact m.heads_pos
  | some n =>
    cases n with
    | zero => exact m.heads_pos
    | succ n => exact n.succ_pos

theorem heads_eq (m : DraftModel) :
    m.config.numAttentionHeads = m.config.groups * m.config.headsPerGroup :=
  (Nat.mul_div_cancel' m.groups_dvd_heads).symm

theorem heads_mul_headDim (m : DraftModel) :
    m.config.numAttentionHeads * m.config.headDim =
      m.config.groups * (m.config.headsPerGroup * m.config.headDim) := by
  rw [m.heads_eq, Nat.mul_assoc]

theorem groups_eq (m : DraftModel) : m.config.groups = m.tp * (m.config.groups / m.tp) :=
  (Nat.mul_div_cancel' m.tp_dvd_groups).symm

theorem ffn_eq (m : DraftModel) :
    m.config.ffnHiddenSize = m.tp * (m.config.ffnHiddenSize / m.tp) :=
  (Nat.mul_div_cancel' m.tp_dvd_ffn).symm

theorem hidden_eq (m : DraftModel) :
    m.config.hiddenSize = m.tp * (m.config.hiddenSize / m.tp) :=
  (Nat.mul_div_cancel' m.tp_dvd_hidden).symm

theorem vocab_eq (m : DraftModel) :
    m.config.draftVocabSize = m.tp * (m.config.draftVocabSize / m.tp) :=
  (Nat.mul_div_cancel' m.tp_dvd_vocab).symm

theorem heads_dim_eq (m : DraftModel) :
    m.config.numAttentionHeads * m.config.headDim =
      m.tp * (m.config.numAttentionHeads * m.config.headDim / m.tp) :=
  (Nat.mul_div_cancel'
    ((m.tp_dvd_groups.trans m.groups_dvd_heads).mul_right m.config.headDim)).symm

theorem div_tp_pos (m : DraftModel) {n : ℕ} (hn : 0 < n) (hdvd : m.tp ∣ n) : 0 < n / m.tp :=
  Nat.div_pos (Nat.le_of_dvd hn hdvd) m.tp_pos

end DraftModel

namespace LayerWeights

variable {index : ℕ} (w : LayerWeights m index α)

theorem q_rows : w.q.rows.length =
    m.config.groups * (m.config.headsPerGroup * m.config.headDim) := by
  rw [(eq_of_shape w.q_shape).1, m.heads_mul_headDim]

theorem length_group {g : ℕ} (hg : g < m.config.groups) :
    (w.group g).rows.length = m.groupRows := by
  have hq := Grid.rows_length_rowBlock w.q_rows hg
  have hk := Grid.rows_length_rowBlock (eq_of_shape w.k_shape).1 hg
  have hv := Grid.rows_length_rowBlock (eq_of_shape w.v_shape).1 hg
  simp only [group, Grid.catRows, List.flatMap_cons, List.flatMap_nil, List.append_nil,
    List.length_append, hq, hk, hv, DraftModel.groupRows]
  ring

theorem rows_qkvOf (groups : List ℕ) :
    (w.qkvOf groups).rows = groups.flatMap fun g ↦ (w.group g).rows :=
  List.flatMap_map ..

theorem qkv_rows : w.qkv.rows.length = m.config.groups * m.groupRows := by
  rw [qkv, rows_qkvOf]
  exact length_flatMap_range fun g hg ↦ w.length_group hg

theorem rowBlock_qkv {g : ℕ} (hg : g < m.config.groups) :
    w.qkv.rowBlock m.groupRows g = w.group g := by
  refine Grid.ext rfl ?_
  show block m.groupRows w.qkv.rows g = _
  rw [qkv, rows_qkvOf]
  exact block_flatMap_self (fun g hg ↦ w.length_group hg) hg

/-- The import's interleaved weight is the query groups. -/
theorem interleaveQkv_eq : interleaveQkv w.q w.k w.v m.config = some w.qkv := by
  obtain ⟨hk, hkcols⟩ := eq_of_shape w.k_shape
  obtain ⟨hv, hvcols⟩ := eq_of_shape w.v_shape
  have hcols : ∀ b ∈ (List.range m.config.groups).flatMap fun g ↦
      [w.q.rowBlock (m.config.headsPerGroup * m.config.headDim) g,
        w.k.rowBlock m.config.headDim g, w.v.rowBlock m.config.headDim g],
      b.cols = m.qkvWidth index := by
    intro b hb
    obtain ⟨g, -, hb⟩ := List.mem_flatMap.mp hb
    simp only [List.mem_cons, List.not_mem_nil, or_false] at hb
    rcases hb with rfl | rfl | rfl
    exacts [(eq_of_shape w.q_shape).2, hkcols, hvcols]
  have hne : ((List.range m.config.groups).flatMap fun g ↦
      [w.q.rowBlock (m.config.headsPerGroup * m.config.headDim) g,
        w.k.rowBlock m.config.headDim g, w.v.rowBlock m.config.headDim g]) ≠ [] := by
    rw [ne_eq, List.flatMap_eq_nil_iff]
    exact fun h ↦ absurd (h 0 (List.mem_range.mpr m.groups_pos)) (List.cons_ne_nil _ _)
  have hsome := Grid.vcat_eq_some hne hcols
  rw [interleaveQkv, if_pos ⟨w.q_rows, hk, hv⟩, hsome, qkv, qkvOf]
  congr 1
  refine Grid.ext rfl ?_
  show List.flatMap Grid.rows (List.flatMap _ _) = List.flatMap Grid.rows (List.map _ _)
  rw [List.flatMap_assoc, List.flatMap_map]
  rfl

/-- A component of every group, end to end. -/
theorem vcat_groups {b : Grid α} {size start stop : ℕ} (hb : b.rows.length = m.config.groups * size)
    (hpart : ∀ g < m.config.groups, (w.group g).rowSlice start stop = b.rowBlock size g) :
    Grid.vcat (((List.range m.config.groups).map (w.qkv.rowBlock m.groupRows)).map
      fun group ↦ group.rowSlice start stop) = some b := by
  rw [List.map_map]
  have hmap : (List.range m.config.groups).map
      ((fun group : Grid α ↦ group.rowSlice start stop) ∘ w.qkv.rowBlock m.groupRows) =
        (List.range m.config.groups).map (b.rowBlock size) := by
    refine List.map_congr_left fun g hg ↦ ?_
    rw [Function.comp_apply, w.rowBlock_qkv (List.mem_range.mp hg),
      hpart g (List.mem_range.mp hg)]
  rw [hmap, Grid.vcat_rowBlock m.groups_pos hb]

theorem rowSlice_group {g : ℕ} (hg : g < m.config.groups) :
    (w.group g).rowSlice 0 (m.config.headsPerGroup * m.config.headDim) =
        w.q.rowBlock (m.config.headsPerGroup * m.config.headDim) g ∧
      (w.group g).rowSlice (m.config.headsPerGroup * m.config.headDim)
          ((m.config.headsPerGroup + 1) * m.config.headDim) =
        w.k.rowBlock m.config.headDim g ∧
      (w.group g).rowSlice ((m.config.headsPerGroup + 1) * m.config.headDim)
          ((m.config.headsPerGroup + 2) * m.config.headDim) =
        w.v.rowBlock m.config.headDim g := by
  have hq := Grid.rows_length_rowBlock w.q_rows hg
  have hk := Grid.rows_length_rowBlock (eq_of_shape w.k_shape).1 hg
  have hv := Grid.rows_length_rowBlock (eq_of_shape w.v_shape).1 hg
  have hrows : (w.group g).rows =
      (w.q.rowBlock (m.config.headsPerGroup * m.config.headDim) g).rows ++
        ((w.k.rowBlock m.config.headDim g).rows ++ (w.v.rowBlock m.config.headDim g).rows) := by
    simp only [group, Grid.catRows, List.flatMap_cons, List.flatMap_nil, List.append_nil]
  refine ⟨Grid.ext (eq_of_shape w.q_shape).2.symm ?_, Grid.ext (eq_of_shape w.k_shape).2.symm ?_,
    Grid.ext (eq_of_shape w.v_shape).2.symm ?_⟩
  · show slice (w.group g).rows _ _ = _
    rw [hrows, slice, List.drop_zero, Nat.sub_zero, List.take_left' hq]
  · show slice (w.group g).rows _ _ = _
    rw [hrows, slice, List.drop_left' hq, Nat.add_mul, Nat.one_mul, Nat.add_sub_cancel_left,
      List.take_left' hk]
  · show slice (w.group g).rows _ _ = _
    have hdrop : ((w.q.rowBlock (m.config.headsPerGroup * m.config.headDim) g).rows ++
        (w.k.rowBlock m.config.headDim g).rows).length =
          (m.config.headsPerGroup + 1) * m.config.headDim := by
      rw [List.length_append, hq, hk, Nat.add_mul, Nat.one_mul]
    rw [hrows, ← List.append_assoc, slice, List.drop_left' hdrop, List.take_of_length_le]
    rw [hv, ← Nat.sub_mul]
    simp

/-- The export's components of the interleaved weight are the original ones. -/
theorem deinterleaveQkv_eq : deinterleaveQkv w.qkv m.config = some (w.q, w.k, w.v) := by
  have hq := w.vcat_groups w.q_rows fun g hg ↦ (w.rowSlice_group hg).1
  have hk := w.vcat_groups (eq_of_shape w.k_shape).1 fun g hg ↦ (w.rowSlice_group hg).2.1
  have hv := w.vcat_groups (eq_of_shape w.v_shape).1 fun g hg ↦ (w.rowSlice_group hg).2.2
  rw [DraftModel.groupRows] at hq hk hv
  rw [deinterleaveQkv, if_pos ⟨w.qkv_rows, m.heads_eq⟩]
  dsimp only
  rw [hq, hk, hv]
  rfl

/-- A rank's chunk of the interleaved weight is whole query groups. -/
theorem rowBlock_qkv_groups {r : ℕ} (hr : r < m.tp) :
    w.qkv.rowBlock (m.config.groups / m.tp * m.groupRows) r =
      w.qkvOf ((List.range (m.config.groups / m.tp)).map (r * (m.config.groups / m.tp) + ·)) := by
  refine Grid.ext rfl ?_
  show block (m.config.groups / m.tp * m.groupRows) w.qkv.rows r = _
  have hsplit : w.qkv.rows = (List.range m.tp).flatMap fun i ↦
      (List.range (m.config.groups / m.tp)).flatMap fun j ↦
        (w.group (i * (m.config.groups / m.tp) + j)).rows := by
    rw [← flatMap_range_mul fun g ↦ (w.group g).rows, ← m.groups_eq, qkv, rows_qkvOf]
  have hlen : ∀ i < m.tp, ((List.range (m.config.groups / m.tp)).flatMap fun j ↦
      (w.group (i * (m.config.groups / m.tp) + j)).rows).length =
        m.config.groups / m.tp * m.groupRows := by
    intro i hi
    refine length_flatMap_range fun j hj ↦ w.length_group ?_
    have hle : (i + 1) * (m.config.groups / m.tp) ≤ m.tp * (m.config.groups / m.tp) :=
      Nat.mul_le_mul_right _ hi
    rw [← m.groups_eq, Nat.succ_mul] at hle
    omega
  rw [hsplit, block_flatMap_self hlen hr, rows_qkvOf, List.flatMap_map]

theorem rows_gateUp : w.gateUp.rows = w.gate.rows ++ w.up.rows := by
  simp only [gateUp, stacked, Grid.catRows, List.flatMap_cons, List.flatMap_nil, List.append_nil]

theorem rows_gateUpShard (r : ℕ) : (w.gateUpShard r).rows =
    (w.gate.rowBlock (m.config.ffnHiddenSize / m.tp) r).rows ++
      (w.up.rowBlock (m.config.ffnHiddenSize / m.tp) r).rows := by
  simp only [gateUpShard, stacked, Grid.catRows, List.flatMap_cons, List.flatMap_nil,
    List.append_nil]

theorem gate_rows : w.gate.rows.length = m.tp * (m.config.ffnHiddenSize / m.tp) := by
  rw [(eq_of_shape w.gate_shape).1, ← m.ffn_eq]

theorem up_rows : w.up.rows.length = m.tp * (m.config.ffnHiddenSize / m.tp) := by
  rw [(eq_of_shape w.up_shape).1, ← m.ffn_eq]

theorem gateUp_rows : w.gateUp.rows.length = m.tp * (2 * (m.config.ffnHiddenSize / m.tp)) := by
  rw [rows_gateUp, List.length_append, w.gate_rows, w.up_rows]
  ring

theorem gateUpShard_shape {r : ℕ} (hr : r < m.tp) :
    (w.gateUpShard r).shape = [2 * (m.config.ffnHiddenSize / m.tp), m.config.hiddenSize] := by
  rw [Grid.shape, rows_gateUpShard, List.length_append, Grid.rows_length_rowBlock w.gate_rows hr,
    Grid.rows_length_rowBlock w.up_rows hr, ← Nat.two_mul]
  rfl

/-- On one rank the shard is the whole weight. -/
theorem gateUpShard_of_one (htp : m.tp = 1) : w.gateUpShard 0 = w.gateUp := by
  have hgate := w.gate_rows
  have hup := w.up_rows
  refine Grid.ext rfl ?_
  rw [rows_gateUpShard, rows_gateUp, Grid.rowBlock_self, Grid.rowBlock_self]
  · rw [hup, htp, Nat.one_mul]
  · rw [hgate, htp, Nat.one_mul]

theorem splitInTwo_gateUpShard {r : ℕ} (hr : r < m.tp) :
    splitInTwo (w.gateUpShard r) (m.config.ffnHiddenSize / m.tp) =
      some (w.gate.rowBlock (m.config.ffnHiddenSize / m.tp) r,
        w.up.rowBlock (m.config.ffnHiddenSize / m.tp) r) := by
  have hgate := Grid.rows_length_rowBlock w.gate_rows hr
  have hup := Grid.rows_length_rowBlock w.up_rows hr
  have hlen : (w.gateUpShard r).rows.length =
      m.config.ffnHiddenSize / m.tp + m.config.ffnHiddenSize / m.tp := by
    rw [rows_gateUpShard, List.length_append, hgate, hup]
  rw [splitInTwo, if_pos hlen]
  congr 2
  · refine Grid.ext (eq_of_shape w.gate_shape).2.symm ?_
    show slice (w.gateUpShard r).rows _ _ = _
    rw [rows_gateUpShard, slice, List.drop_zero, Nat.sub_zero, List.take_left' hgate]
  · refine Grid.ext (eq_of_shape w.up_shape).2.symm ?_
    show slice (w.gateUpShard r).rows _ _ = _
    rw [rows_gateUpShard, slice, List.drop_left' hgate, Nat.add_sub_cancel_left,
      List.take_of_length_le hup.le]

end LayerWeights

section Sharding

theorem inferTp_mul {n c r : ℕ} (hc : 0 < c) (hr : r < n) : inferTp (n * c) c r = some n := by
  have hdiv : n * c / c = n := Nat.mul_div_cancel n hc
  rw [inferTp, if_neg (by rw [Nat.mul_mod_left]; omega), hdiv, if_neg (by omega)]

theorem ceil_mul {n c : ℕ} (hn : 0 < n) : (n * c + n - 1) / n = c := by
  have hform : n * c + n - 1 = (n - 1) + n * c := by omega
  rw [hform, Nat.add_mul_div_left _ _ hn, Nat.div_eq_of_lt (by omega), Nat.zero_add]

variable {g : Grid α} {n c r : ℕ}

theorem block_start_lt (hc : 0 < c) (hr : r < n) : ¬ n * c ≤ r * c :=
  fun h ↦ absurd (Nat.le_of_mul_le_mul_right h hc) (by omega)

theorem chunk_rows (hrows : g.rows.length = n * c) (hc : 0 < c) (hr : r < n) :
    (Tensor.matrix g).chunk n 0 r = some (.matrix (g.rowBlock c r)) := by
  have hdim : (Tensor.matrix g).shape[0]? = some (n * c) := congrArg some hrows
  rw [Tensor.chunk, hdim, Option.bind_eq_bind, Option.bind_some]
  dsimp only
  rw [ceil_mul (by omega), if_neg (block_start_lt hc hr), if_pos rfl]

theorem chunk_cols (hcols : g.cols = n * c) (hc : 0 < c) (hr : r < n) :
    (Tensor.matrix g).chunk n 1 r = some (.matrix (g.colBlock c r)) := by
  have hdim : (Tensor.matrix g).shape[1]? = some (n * c) := congrArg some hcols
  rw [Tensor.chunk, hdim, Option.bind_eq_bind, Option.bind_some]
  dsimp only
  rw [ceil_mul (by omega), if_neg (block_start_lt hc hr), if_neg (by decide)]

variable {layout : EagleModelLayout} {modelState : StateDict α} {name : ParameterName}
  {target tensor : Tensor α}

theorem shardToLocalTp_same (htarget : modelState.get name = some target)
    (hshape : tensor.shape = target.shape) :
    shardToLocalTp layout modelState r name tensor = some tensor := by
  rw [shardToLocalTp, htarget]
  exact if_pos hshape

theorem shardToLocalTp_rows (htarget : modelState.get name = some target)
    (hshape : target.shape = [c, g.cols])
    (haxis : (splitAxisByParameter layout).get name = some 0) (hrows : g.rows.length = n * c)
    (hc : 0 < c) (hr : r < n) :
    shardToLocalTp layout modelState r name (.matrix g) = some (.matrix (g.rowBlock c r)) := by
  by_cases hsame : (Tensor.matrix g).shape = target.shape
  · have hc' : g.rows.length = c := (eq_of_shape (hsame.trans hshape)).1
    -- an unsharded target: there is one rank
    have hn : n = 1 := Nat.eq_of_mul_eq_mul_right hc (by rw [← hrows, hc', Nat.one_mul])
    obtain rfl : r = 0 := by omega
    rw [shardToLocalTp_same htarget hsame, Grid.rowBlock_self hc']
  · have hfull : (Tensor.matrix g).shape[0]? = some (n * c) := congrArg some hrows
    have hlocal : target.shape[0]? = some c := by
      rw [hshape]
      rfl
    have hshard : (Tensor.matrix (g.rowBlock c r)).shape = target.shape := by
      rw [hshape, Tensor.shape, Grid.shape, Grid.rows_length_rowBlock hrows hr]
      rfl
    rw [shardToLocalTp, htarget]
    simp only [if_neg hsame, haxis, hfull, hlocal, inferTp_mul hc hr, chunk_rows hrows hc hr,
      Option.bind_eq_bind, Option.bind_some, if_neg (not_not_intro hshard)]

theorem shardToLocalTp_cols (htarget : modelState.get name = some target)
    (hshape : target.shape = [g.rows.length, c])
    (haxis : (splitAxisByParameter layout).get name = some 1) (hcols : g.cols = n * c)
    (hc : 0 < c) (hr : r < n) :
    shardToLocalTp layout modelState r name (.matrix g) = some (.matrix (g.colBlock c r)) := by
  by_cases hsame : (Tensor.matrix g).shape = target.shape
  · have hc' : g.cols = c := (eq_of_shape (hsame.trans hshape)).2
    have hn : n = 1 := Nat.eq_of_mul_eq_mul_right hc (by rw [← hcols, hc', Nat.one_mul])
    obtain rfl : r = 0 := by omega
    rw [shardToLocalTp_same htarget hsame, Grid.colBlock_self hc']
  · have hfull : (Tensor.matrix g).shape[1]? = some (n * c) := congrArg some hcols
    have hlocal : target.shape[1]? = some c := by
      rw [hshape]
      rfl
    have hshard : (Tensor.matrix (g.colBlock c r)).shape = target.shape := by
      rw [hshape, Tensor.shape, Grid.shape, Grid.cols_colBlock hcols hr]
      exact congrArg (fun rows ↦ [rows, c]) (List.length_map ..)
    rw [shardToLocalTp, htarget]
    simp only [if_neg hsame, haxis, hfull, hlocal, inferTp_mul hc hr, chunk_cols hcols hc hr,
      Option.bind_eq_bind, Option.bind_some, if_neg (not_not_intro hshard)]

/-- Separate gate and up weights are sharded one by one. -/
theorem combineOrShard_gateUp {index : ℕ} (w : LayerWeights m index α)
    (hshape : target.shape = [2 * (m.config.ffnHiddenSize / m.tp), m.config.hiddenSize])
    (hr : r < m.tp) :
    combineOrShardWeightParts none [some (.matrix w.gate), some (.matrix w.up)] (some target) r =
      some (some (.matrix (w.gateUpShard r))) := by
  have hfull : Grid.vcat [w.gate, w.up] = some w.gateUp := by
    refine Grid.vcat_eq_some (List.cons_ne_nil _ _) ?_
    simp only [List.forall_mem_cons, List.not_mem_nil, false_imp_iff, implies_true, and_true]
    exact ⟨(eq_of_shape w.gate_shape).2, (eq_of_shape w.up_shape).2⟩
  have hffn := m.div_tp_pos m.ffn_pos m.tp_dvd_ffn
  have hweights : [some (Tensor.matrix w.gate), some (.matrix w.up)].mapM
      (fun weight ↦ weight.bind Tensor.grid) = some [w.gate, w.up] := rfl
  rw [combineOrShardWeightParts]
  dsimp only
  have hpresent : ¬ [some (Tensor.matrix w.gate), some (.matrix w.up)].all Option.isNone :=
    Bool.noConfusion
  rw [if_neg hpresent, hweights, Option.bind_eq_bind, Option.bind_some, hfull,
    Option.bind_eq_bind, Option.bind_some]
  by_cases hsame : w.gateUp.shape = target.shape
  · have hrows := (eq_of_shape (hsame.trans hshape)).1
    have hone : m.tp = 1 := Nat.eq_of_mul_eq_mul_right (Nat.mul_pos Nat.two_pos hffn)
      (by rw [← w.gateUp_rows, hrows, Nat.one_mul])
    obtain rfl : r = 0 := by omega
    rw [if_pos hsame, w.gateUpShard_of_one hone]
  · have hlocal : target.shape[0]? = some (2 * (m.config.ffnHiddenSize / m.tp)) := by
      rw [hshape]
      rfl
    have hparts : [w.gate, w.up].mapM (fun weight ↦
        if weight.rows.length % m.tp ≠ 0 then none
        else ((Tensor.matrix weight).chunk m.tp 0 r).bind Tensor.grid) =
          some [w.gate.rowBlock (m.config.ffnHiddenSize / m.tp) r,
            w.up.rowBlock (m.config.ffnHiddenSize / m.tp) r] := by
      have hdvd : ∀ c, ¬ m.tp * c % m.tp ≠ 0 := fun c ↦ not_not_intro (Nat.mul_mod_right ..)
      rw [List.mapM_cons, List.mapM_cons, List.mapM_nil, w.gate_rows, w.up_rows, if_neg (hdvd _),
        if_neg (hdvd _), chunk_rows w.gate_rows hffn hr, chunk_rows w.up_rows hffn hr]
      rfl
    have hcat : Grid.vcat [w.gate.rowBlock (m.config.ffnHiddenSize / m.tp) r,
        w.up.rowBlock (m.config.ffnHiddenSize / m.tp) r] = some (w.gateUpShard r) := by
      refine Grid.vcat_eq_some (List.cons_ne_nil _ _) ?_
      simp only [List.forall_mem_cons, List.not_mem_nil, false_imp_iff, implies_true, and_true]
      exact ⟨(eq_of_shape w.gate_shape).2, (eq_of_shape w.up_shape).2⟩
    have hshard : (w.gateUpShard r).shape = target.shape :=
      (w.gateUpShard_shape hr).trans hshape.symm
    simp only [if_neg hsame, hlocal, w.gateUp_rows, inferTp_mul (Nat.mul_pos Nat.two_pos hffn) hr,
      hparts, hcat, Option.bind_eq_bind, Option.bind_some, if_neg (not_not_intro hshard)]

end Sharding

end NemoRL.Models.Draft
