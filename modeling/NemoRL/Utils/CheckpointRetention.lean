import Mathlib
import NemoRL.Utils.Checkpoint

namespace NemoRL.Utils.CheckpointManager

open Foundations.Choice

variable {α : Type} [LinearOrder α] [BoundedOrder α] {m : CheckpointManager} {k : ℕ}
  {history : List (Checkpoint α)} {dir dir' S : Finset (Checkpoint α)}
  {events : List (Event (Checkpoint α))} {c : Checkpoint α}

section Rules

def best (m : CheckpointManager) (k : ℕ) (S : Finset (Checkpoint α)) : Finset (Checkpoint α) :=
  match m.metricName with
  | none => top Checkpoint.step k S
  | some name =>
    if m.higherIsBetter then top (fun c ↦ toLex (c.metric name ⊥, c.step)) k S
    else top (fun c ↦ toLex (OrderDual.toDual (c.metric name ⊤), c.step)) k S

/-- What the retention rules say is kept of a directory. -/
def kept (m : CheckpointManager) (S : Finset (Checkpoint α)) : Finset (Checkpoint α) :=
  if m.keepTopK.isNone ∧ m.ftKeepLatestK.isNone then S
  else
    let periodic := match m.keepTopK with
      | some k => m.best k (S.filter fun c ↦ c.step % m.savePeriod = 0)
      | none => S.filter fun c ↦ c.step % m.savePeriod = 0
    let recent := match m.ftKeepLatestK with
      | some k => top Checkpoint.step k S
      | none => ∅
    top Checkpoint.step 1 S ∪ periodic ∪ recent

theorem best_pathIndependent (m : CheckpointManager) (k : ℕ) :
    PathIndependent (m.best k : Finset (Checkpoint α) → Finset (Checkpoint α)) := by
  unfold best
  split
  · exact top_pathIndependent _ k
  · split_ifs
    · exact top_pathIndependent _ k
    · exact top_pathIndependent _ k

theorem kept_pathIndependent (m : CheckpointManager) :
    PathIndependent (m.kept : Finset (Checkpoint α) → Finset (Checkpoint α)) := by
  unfold kept
  split_ifs
  · exact .id
  · refine ((top_pathIndependent _ 1).union ?_).union ?_
    · split
      · exact (best_pathIndependent m _).filter _
      · exact PathIndependent.id.filter _
    · split
      · exact top_pathIndependent _ _
      · exact .empty

theorem mem_best : c ∈ m.best k S ↔ c ∈ S ∧ (S.filter fun x ↦ m.outranks x c).card < k := by
  cases hname : m.metricName with
  | none => simp only [best, outranks, hname, mem_top, decide_eq_true_eq]
  | some name =>
    by_cases hhigher : m.higherIsBetter = true
    · simp only [best, outranks, hname, hhigher, if_true, mem_top, decide_eq_true_eq,
        Prod.Lex.toLex_lt_toLex]
    · simp only [best, outranks, hname, hhigher, mem_top, decide_eq_true_eq,
        Prod.Lex.toLex_lt_toLex, OrderDual.toDual_lt_toDual, OrderDual.toDual_inj,
        Bool.false_eq_true, if_false]

end Rules

section History

def DistinctSteps (history : List (Checkpoint α)) : Prop :=
  ∀ x ∈ history, ∀ y ∈ history, x.step = y.step → x = y

theorem insertionSort_congr {β : Type*} {r r' : β → β → Prop} [DecidableRel r] [DecidableRel r']
    (h : ∀ a b, r a b ↔ r' a b) (l : List β) : l.insertionSort r = l.insertionSort r' := by
  obtain rfl : r = r' := funext fun a ↦ funext fun b ↦ propext (h a b)
  congr

theorem sortPeriodic_perm (m : CheckpointManager) (history : List (Checkpoint α)) :
    (m.sortPeriodic history).Perm history := by
  unfold sortPeriodic
  split
  · exact List.perm_insertionSort _ _
  · split_ifs
    · exact List.perm_insertionSort _ _
    · exact List.perm_insertionSort _ _

theorem mem_take_sortPeriodic (hnd : history.Nodup) (hsteps : DistinctSteps history) :
    c ∈ (m.sortPeriodic history).take k ↔ c ∈ m.best k history.toFinset := by
  cases hname : m.metricName with
  | none =>
    simp only [sortPeriodic, best, hname]
    exact mem_take_insertionSort hnd hsteps
  | some name =>
    by_cases hhigher : m.higherIsBetter = true
    · simp only [sortPeriodic, best, hname, hhigher, if_true]
      refine mem_take_insertionSort hnd fun x hx y hy heq ↦ ?_
      exact hsteps x hx y hy (Prod.ext_iff.mp (toLex.injective heq)).2
    · have hdual : ∀ x y : Checkpoint α,
          toLex (x.metric name ⊤, -(x.step : ℤ)) ≤ toLex (y.metric name ⊤, -(y.step : ℤ)) ↔
            toLex (OrderDual.toDual (y.metric name ⊤), y.step) ≤
              toLex (OrderDual.toDual (x.metric name ⊤), x.step) := by
        intro x y
        simp only [Prod.Lex.toLex_le_toLex, OrderDual.toDual_lt_toDual, OrderDual.toDual_inj,
          neg_le_neg_iff, Nat.cast_le]
        rw [eq_comm]
      simp only [sortPeriodic, best, hname, hhigher, Bool.false_eq_true, if_false]
      rw [insertionSort_congr hdual]
      refine mem_take_insertionSort hnd fun x hx y hy heq ↦ ?_
      exact hsteps x hx y hy (Prod.ext_iff.mp (toLex.injective heq)).2

omit [LinearOrder α] [BoundedOrder α] in
theorem step_mem_iff (hsteps : DistinctSteps history) (hc : c ∈ history)
    {l : List (Checkpoint α)} (hl : ∀ x ∈ l, x ∈ history) :
    c.step ∈ l.map Checkpoint.step ↔ c ∈ l := by
  constructor
  · intro h
    obtain ⟨x, hx, heq⟩ := List.mem_map.mp h
    obtain rfl := hsteps x (hl x hx) c hc heq
    exact hx
  · intro h
    exact List.mem_map.mpr ⟨c, h, rfl⟩

omit [BoundedOrder α] in
theorem step_eq_latest (hc : c ∈ history) :
    c.step = (history.map Checkpoint.step).max?.getD 0 ↔ c ∈ top Checkpoint.step 1 history.toFinset := by
  have hne : history.map Checkpoint.step ≠ [] := by
    rw [ne_eq, List.map_eq_nil_iff]
    exact List.ne_nil_of_mem hc
  obtain ⟨latest, hlatest⟩ := Option.isSome_iff_exists.mp (List.isSome_max?_of_ne_nil hne)
  obtain ⟨hmem, hle⟩ := List.max?_eq_some_iff.mp hlatest
  have hnone : c ∈ top Checkpoint.step 1 history.toFinset ↔ ∀ x ∈ history, x.step ≤ c.step := by
    rw [mem_top, Nat.lt_one_iff, Finset.card_eq_zero, Finset.filter_eq_empty_iff]
    simp [hc]
  rw [hlatest, Option.getD_some, hnone]
  constructor
  · rintro rfl x hx
    exact hle x.step (List.mem_map.mpr ⟨x, hx, rfl⟩)
  · intro hall
    obtain ⟨x, hx, rfl⟩ := List.mem_map.mp hmem
    exact le_antisymm (hle c.step (List.mem_map.mpr ⟨c, hc, rfl⟩)) (hall x hx)

theorem toFinset_removeOldCheckpoints (hnd : history.Nodup) (hsteps : DistinctSteps history) :
    (m.removeOldCheckpoints true history).toFinset = m.kept history.toFinset := by
  unfold removeOldCheckpoints
  by_cases hempty : history.isEmpty = true
  · obtain rfl := List.isEmpty_iff.mp hempty
    rw [if_pos hempty]
    exact (Finset.subset_empty.mp ((kept_pathIndependent m).subset ∅)).symm
  rw [if_neg hempty, kept]
  by_cases hnone : m.keepTopK.isNone ∧ m.ftKeepLatestK.isNone
  · rw [if_pos hnone, if_pos hnone]
  rw [if_neg hnone, if_neg hnone]
  set periodicHistory := history.filter fun c ↦ c.step % m.savePeriod = 0 with hperiodic
  have hfilter : history.toFinset.filter (fun c ↦ c.step % m.savePeriod = 0) =
      periodicHistory.toFinset := by
    ext x
    simp [hperiodic]
  have hsub : ∀ x ∈ periodicHistory, x ∈ history := fun x hx ↦ List.mem_of_mem_filter hx
  have hdistinct : DistinctSteps periodicHistory := fun x hx y hy ↦
    hsteps x (hsub x hx) y (hsub y hy)
  ext c
  simp only [List.mem_toFinset, List.mem_filter, Finset.mem_union, List.mem_append, if_true,
    List.mem_singleton, decide_eq_true_eq, hfilter]
  by_cases hc : c ∈ history
  · have hlatest := step_eq_latest hc
    have hbest : (c.step ∈ match m.keepTopK with
        | some k => ((m.sortPeriodic periodicHistory).take k).map Checkpoint.step
        | none => periodicHistory.map Checkpoint.step) ↔
        c ∈ match m.keepTopK with
          | some k => m.best k periodicHistory.toFinset
          | none => periodicHistory.toFinset := by
      cases m.keepTopK with
      | none =>
        simp only
        rw [step_mem_iff hsteps hc hsub, List.mem_toFinset]
      | some k =>
        simp only
        rw [step_mem_iff hsteps hc fun x hx ↦ hsub x ((sortPeriodic_perm m _).mem_iff.mp
          (List.mem_of_mem_take hx)), mem_take_sortPeriodic (hnd.filter _) hdistinct]
    have hrecent : (c.step ∈ match m.ftKeepLatestK with
        | some k => ((history.insertionSort fun x y : Checkpoint α ↦ y.step ≤ x.step).take k).map
            Checkpoint.step
        | none => []) ↔
        c ∈ match m.ftKeepLatestK with
          | some k => top Checkpoint.step k history.toFinset
          | none => ∅ := by
      cases m.ftKeepLatestK with
      | none => simp
      | some k =>
        simp only
        rw [step_mem_iff hsteps hc fun x hx ↦ (List.perm_insertionSort _ _).mem_iff.mp
          (List.mem_of_mem_take hx), mem_take_insertionSort hnd hsteps]
    exact (and_iff_right hc).trans (or_congr (or_congr hlatest hbest) hrecent)
  · have hout := fun hkept ↦ hc (List.mem_toFinset.mp ((kept_pathIndependent m).subset
      history.toFinset hkept))
    rw [kept, if_neg hnone, hfilter] at hout
    simp only [Finset.mem_union] at hout
    exact iff_of_false (fun h ↦ hc h.1) hout

end History

section Runs

theorem exists_runs (m : CheckpointManager) (dir : Finset (Checkpoint α))
    (events : List (Event (Checkpoint α))) : ∃ dir', m.Runs dir events dir' := by
  induction events generalizing dir with
  | nil => exact ⟨dir, .nil dir⟩
  | cons e events ih =>
    cases e with
    | arrive c =>
      obtain ⟨dir', h⟩ := ih (insert c dir)
      exact ⟨dir', .save c h⟩
    | apply =>
      obtain ⟨dir', h⟩ := ih (m.removeOldCheckpoints true dir.toList).toFinset
      exact ⟨dir', .removeOldCheckpoints dir.toList dir.nodup_toList dir.toList_toFinset h⟩

theorem Runs.eq_foldl (h : m.Runs dir events dir')
    (hsteps : ∀ x ∈ dir ∪ (arrived events).toFinset, ∀ y ∈ dir ∪ (arrived events).toFinset,
      x.step = y.step → x = y) : dir' = events.foldl (Event.after m.kept) dir := by
  induction h with
  | nil dir => rfl
  | @save dir dir' events c _ ih =>
    have hsame : insert c dir ∪ (arrived events).toFinset =
        dir ∪ (arrived (.arrive c :: events)).toFinset := by
      have hcons : arrived (.arrive c :: events) = c :: arrived events := rfl
      rw [hcons, List.toFinset_cons, Finset.insert_union, Finset.union_insert]
    exact ih (hsame.symm ▸ hsteps)
  | @removeOldCheckpoints dir dir' events history hnd hlist _ ih =>
    have hdistinct : DistinctSteps history := by
      intro x hx y hy
      have hin : ∀ z ∈ history, z ∈ dir ∪ (arrived (.apply :: events)).toFinset := fun z hz ↦
        Finset.mem_union_left _ (hlist ▸ List.mem_toFinset.mpr hz)
      exact hsteps x (hin x hx) y (hin y hy)
    have hkept := toFinset_removeOldCheckpoints (m := m) hnd hdistinct
    rw [hlist] at hkept
    rw [List.foldl_cons]
    show dir' = events.foldl (Event.after m.kept) (m.kept dir)
    rw [hkept] at ih
    refine ih fun x hx y hy ↦ ?_
    have hin : ∀ z ∈ m.kept dir ∪ (arrived events).toFinset,
        z ∈ dir ∪ (arrived (.apply :: events)).toFinset := fun z hz ↦
      Finset.union_subset_union_left ((kept_pathIndependent m).subset dir) hz
    exact hsteps x (hin x hx) y (hin y hy)

theorem latest_mem_kept (h : c ∈ S) (hlast : ∀ x ∈ S, x.step ≤ c.step) : c ∈ m.kept S := by
  rw [kept]
  split_ifs
  · exact h
  · refine Finset.mem_union_left _ (Finset.mem_union_left _ (mem_top.mpr ⟨h, ?_⟩))
    rw [Nat.lt_one_iff, Finset.card_eq_zero, Finset.filter_eq_empty_iff]
    exact fun x hx ↦ not_lt.mpr (hlast x hx)

theorem best_mem_kept (hk : m.keepTopK = some k)
    (h : c ∈ m.best k (S.filter fun x ↦ x.step % m.savePeriod = 0)) : c ∈ m.kept S := by
  rw [kept, if_neg (by simp [hk])]
  refine Finset.mem_union_left _ (Finset.mem_union_right _ ?_)
  rw [hk]
  exact h

/-- However often old checkpoints were removed on the way, the last removal leaves
what one removal leaves of all the saves: the latest, the best `k`, and no less
when it is done again. -/
theorem pruning_path_independent
    (hsteps : ((arrived events).map Checkpoint.step).Pairwise (· < ·))
    (h : m.Runs ∅ (events ++ [.apply]) dir) (hlist : history.Perm (arrived events)) :
    dir = (m.removeOldCheckpoints true history).toFinset ∧
    (∀ c, (arrived events).getLast? = some c → c ∈ dir) ∧
    (∀ k, m.keepTopK = some k → ∀ c ∈ arrived events, c.step % m.savePeriod = 0 →
      ((arrived events).countP fun x ↦ decide (x.step % m.savePeriod = 0) && m.outranks x c) < k →
        c ∈ dir) ∧
    ∀ history' : List (Checkpoint α), history'.Nodup → history'.toFinset = dir →
      (m.removeOldCheckpoints true history').toFinset = dir := by
  have hndsteps : ((arrived events).map Checkpoint.step).Nodup := hsteps.imp fun h ↦ h.ne
  have hnd : (arrived events).Nodup := hndsteps.of_map _
  have hdistinct : DistinctSteps (arrived events) := fun x hx y hy heq ↦
    List.inj_on_of_nodup_map hndsteps hx hy heq
  have hkept := kept_pathIndependent (α := α) m
  have hdir : dir = m.kept (arrived events).toFinset := by
    have hall : arrived (events ++ [Event.apply]) = arrived events := by
      rw [arrived, List.filterMap_append]
      exact List.append_nil _
    rw [← hkept.run_apply events]
    refine h.eq_foldl fun x hx y hy ↦ ?_
    rw [Finset.empty_union, List.mem_toFinset, hall] at hx hy
    exact hdistinct x hx y hy
  have hhistory : history.toFinset = (arrived events).toFinset := List.toFinset_eq_of_perm _ _ hlist
  refine ⟨?_, ?_, ?_, ?_⟩
  · rw [toFinset_removeOldCheckpoints (hlist.nodup_iff.mpr hnd) fun x hx y hy ↦
      hdistinct x (hlist.mem_iff.mp hx) y (hlist.mem_iff.mp hy), hhistory]
    exact hdir
  · intro c hlast
    obtain ⟨earlier, heq⟩ := List.getLast?_eq_some_iff.mp hlast
    rw [hdir]
    refine latest_mem_kept ?_ fun x hx ↦ ?_
    · rw [heq, List.mem_toFinset]
      exact List.mem_append_right _ (List.mem_singleton.mpr rfl)
    · rw [heq, List.map_append] at hsteps
      rw [heq, List.mem_toFinset] at hx
      rcases List.mem_append.mp hx with hx | hx
      · exact ((List.pairwise_append.mp hsteps).2.2 x.step (List.mem_map.mpr ⟨x, hx, rfl⟩) c.step
          (List.mem_singleton.mpr rfl)).le
      · rw [List.mem_singleton.mp hx]
  · intro k hk c hc hperiodic hfew
    rw [hdir]
    refine best_mem_kept hk (mem_best.mpr ⟨?_, ?_⟩)
    · exact Finset.mem_filter.mpr ⟨List.mem_toFinset.mpr hc, hperiodic⟩
    · have hfilter : ((arrived events).toFinset.filter fun x ↦ x.step % m.savePeriod = 0).filter
          (fun x ↦ m.outranks x c) = ((arrived events).filter fun x ↦
            decide (x.step % m.savePeriod = 0) && m.outranks x c).toFinset := by
        ext x
        simp [and_assoc]
      rw [hfilter, List.toFinset_card_of_nodup (hnd.filter _), ← List.countP_eq_length_filter]
      exact hfew
  · intro history' hnd' hlist'
    have hsub : ∀ x ∈ history', x ∈ arrived events := by
      intro x hx
      have hmem := List.mem_toFinset.mpr hx
      rw [hlist', hdir] at hmem
      exact List.mem_toFinset.mp (hkept.subset _ hmem)
    rw [toFinset_removeOldCheckpoints hnd' fun x hx y hy ↦
      hdistinct x (hsub x hx) y (hsub y hy), hlist', hdir]
    exact hkept.idempotent _

/-- Keeps the best of every second step and the two latest. -/
def secondStepManager : CheckpointManager := ⟨some "val:reward", true, some 1, 2, some 2, by decide⟩

/-- Five saves with a removal in their midst; step 3 has no metric. -/
def fiveSaves : List (Event (Checkpoint (WithBot (WithTop ℕ)))) :=
  [.arrive ⟨1, [("val:reward", (5 : ℕ))]⟩, .arrive ⟨2, [("val:reward", (9 : ℕ))]⟩,
    .arrive ⟨3, []⟩, .apply, .arrive ⟨4, [("val:reward", (7 : ℕ))]⟩,
    .arrive ⟨5, [("val:reward", (8 : ℕ))]⟩]

theorem pruning_path_independent_fiveSaves :
    ∃ dir, secondStepManager.Runs ∅ (fiveSaves ++ [.apply]) dir ∧
      dir = (secondStepManager.removeOldCheckpoints true (arrived fiveSaves)).toFinset := by
  obtain ⟨dir, h⟩ := exists_runs secondStepManager (α := WithBot (WithTop ℕ)) ∅
    (fiveSaves ++ [.apply])
  exact ⟨dir, h, (pruning_path_independent (by decide) h (List.Perm.refl _)).1⟩

end Runs

end NemoRL.Utils.CheckpointManager
