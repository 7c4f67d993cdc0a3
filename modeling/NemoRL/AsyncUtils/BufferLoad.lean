import Mathlib
import NemoRL.AsyncUtils.BufferCheckpoint

namespace NemoRL.AsyncUtils

open DataPlane Foundations Foundations.Positions

variable {ρ : Type*}

/-- Each row of a group has its tag and its length, and there are as many as asked for. -/
def SavedGroup.Sized (n : ℕ) (g : SavedGroup ρ) : Prop :=
  g.kvMeta.sampleIds.length = n ∧ g.kvMeta.tags.map List.length = some n ∧
    g.kvMeta.sequenceLengths.map List.length = some n

namespace TQReplayBuffer

theorem find?_repeated_eq_none {α : Type*} [DecidableEq α] {l seen : List α} :
    l.zipIdx.find? (fun x ↦ decide (x.1 ∈ seen ++ l.take x.2)) = none ↔
      l.Nodup ∧ ∀ a ∈ l, a ∉ seen := by
  have hsplit : l.zipIdx.find? (fun x ↦ decide (x.1 ∈ seen ++ l.take x.2)) = none ↔
      ∀ i a, l[i]? = some a → a ∉ seen ∧ a ∉ l.take i := by
    simp [List.find?_eq_none, List.mem_zipIdx_iff_getElem?, not_or]
    grind
  rw [hsplit]
  constructor
  · intro h
    refine ⟨List.nodup_iff_getElem?_ne_getElem?.mpr fun i j hij hj heq ↦ ?_, fun a ha ↦ ?_⟩
    · have hi : i < l.length := by omega
      rw [List.getElem?_eq_getElem hi, List.getElem?_eq_getElem hj] at heq
      refine (h j _ (List.getElem?_eq_getElem hj)).2 (List.mem_take_iff_getElem.mpr ?_)
      exact ⟨i, by omega, Option.some.inj heq⟩
    · obtain ⟨i, hget⟩ := List.mem_iff_getElem?.mp ha
      exact (h i a hget).1
  · rintro ⟨hnd, hnew⟩ i a hget
    refine ⟨hnew a (List.mem_of_getElem? hget), fun hmem ↦ ?_⟩
    obtain ⟨j, hj, rfl⟩ := List.mem_take_iff_getElem.mp hmem
    have hlt := (List.getElem?_eq_some_iff.mp hget).1
    have hji : j < i := by omega
    refine List.nodup_iff_getElem?_ne_getElem?.mp hnd j i hji hlt ?_
    rw [hget, List.getElem?_eq_getElem (by omega : j < l.length)]

theorem checkGroup_ok_iff {n : ℕ} {seen : List SampleId} {entry : GroupEntry ρ}
    {g : SavedGroup ρ} : checkGroup n seen entry = .ok g ↔
      entry.complete? = some g ∧ g.Sized n ∧ g.kvMeta.sampleIds.Nodup ∧
        ∀ k ∈ g.kvMeta.sampleIds, k ∉ seen := by
  unfold checkGroup
  cases hc : entry.complete? with
  | none => simp
  | some g' =>
    simp only
    have hsized : ((g'.kvMeta.sampleIds.length : ℤ) =
          g'.kvMeta.tags.elim (-1 : ℤ) (fun ts ↦ (ts.length : ℤ)) ∧
        g'.kvMeta.tags.elim (-1 : ℤ) (fun ts ↦ (ts.length : ℤ)) =
          g'.kvMeta.sequenceLengths.elim (-1 : ℤ) (fun ls ↦ (ls.length : ℤ)) ∧
        g'.kvMeta.sequenceLengths.elim (-1 : ℤ) (fun ls ↦ (ls.length : ℤ)) = (n : ℤ)) ↔
        g'.Sized n := by
      unfold SavedGroup.Sized
      cases g'.kvMeta.tags <;> cases g'.kvMeta.sequenceLengths <;>
        simp only [Option.elim_none, Option.elim_some, Option.map_none, Option.map_some,
          reduceCtorEq, Option.some.injEq, false_and, and_false]
      omega
    by_cases hs : g'.Sized n
    · rw [if_neg (not_not_intro (hsized.mpr hs))]
      cases hf : g'.kvMeta.sampleIds.zipIdx.find?
          (fun x ↦ decide (x.1 ∈ seen ++ g'.kvMeta.sampleIds.take x.2)) with
      | none =>
        have hnew := find?_repeated_eq_none.mp hf
        simp only [Except.ok.injEq, Option.some.injEq]
        constructor
        · rintro rfl
          exact ⟨rfl, hs, hnew⟩
        · exact fun h ↦ h.1
      | some x =>
        simp only [reduceCtorEq, Option.some.injEq, false_iff]
        rintro ⟨rfl, _, hnew⟩
        rw [find?_repeated_eq_none.mpr hnew] at hf
        cases hf
    · rw [if_pos (fun h ↦ hs (hsized.mp h))]
      simp only [reduceCtorEq, Option.some.injEq, false_iff]
      rintro ⟨rfl, hs', _⟩
      exact hs hs'

/-- The checks pass exactly when every entry is complete and of the size asked
for, and no row key occurs twice. -/
theorem checkGroups_ok_iff {n : ℕ} {seen : List SampleId} {entries : List (GroupEntry ρ)}
    {gs : List (SavedGroup ρ)} : checkGroups n seen entries = .ok gs ↔
      entries.map GroupEntry.complete? = gs.map some ∧ (∀ g ∈ gs, g.Sized n) ∧
        (gs.flatMap fun g ↦ g.kvMeta.sampleIds).Nodup ∧
        ∀ k ∈ gs.flatMap fun g ↦ g.kvMeta.sampleIds, k ∉ seen := by
  induction entries generalizing seen gs with
  | nil =>
    simp only [checkGroups, Except.ok.injEq, List.map_nil]
    constructor
    · rintro rfl
      simp
    · intro h
      simpa using h.1
  | cons e entries ih =>
    simp only [checkGroups, bind, Except.bind, pure, Except.pure]
    cases hc : checkGroup n seen e with
    | error err =>
      simp only [reduceCtorEq, false_iff]
      rintro ⟨hmap, hsized, hnd, hnew⟩
      cases gs with
      | nil => simp at hmap
      | cons g gs =>
        simp only [List.map_cons, List.cons.injEq] at hmap
        rw [List.flatMap_cons] at hnd hnew
        have hok := checkGroup_ok_iff.mpr ⟨hmap.1, hsized g (by simp), hnd.of_append_left,
          fun k hk ↦ hnew k (List.mem_append_left _ hk)⟩
        rw [hc] at hok
        cases hok
    | ok g =>
      obtain ⟨he, hg, hgnd, hgnew⟩ := checkGroup_ok_iff.mp hc
      simp only
      have hcons : ∀ gs' : List (SavedGroup ρ),
          checkGroups n (seen ++ g.kvMeta.sampleIds) entries = .ok gs' ↔
          ((e :: entries).map GroupEntry.complete? = (g :: gs').map some ∧
            (∀ h ∈ g :: gs', h.Sized n) ∧
            ((g :: gs').flatMap fun g ↦ g.kvMeta.sampleIds).Nodup ∧
            ∀ k ∈ (g :: gs').flatMap fun g ↦ g.kvMeta.sampleIds, k ∉ seen) := by
        intro gs'
        rw [ih, List.flatMap_cons, List.nodup_append, List.forall_mem_cons,
          List.forall_mem_append]
        simp only [List.map_cons, he, List.cons.injEq, true_and, List.mem_append, not_or]
        constructor
        · rintro ⟨h₁, h₂, h₃, h₄⟩
          exact ⟨h₁, ⟨hg, h₂⟩, ⟨hgnd, h₃, fun a ha b hb hab ↦ (h₄ b hb).2 (hab ▸ ha)⟩,
            hgnew, fun k hk ↦ (h₄ k hk).1⟩
        · rintro ⟨h₁, ⟨_, h₂⟩, ⟨_, h₃, h₄⟩, _, h₅⟩
          exact ⟨h₁, h₂, h₃, fun k hk ↦ ⟨h₅ k hk, fun hg' ↦ h₄ k hg' k hk rfl⟩⟩
      cases hr : checkGroups n (seen ++ g.kvMeta.sampleIds) entries with
      | error err =>
        simp only [reduceCtorEq, false_iff]
        rintro ⟨hmap, hrest⟩
        cases gs with
        | nil => simp at hmap
        | cons g' gs =>
          have hg' : g = g' := by
            have hhead := (List.cons.inj hmap).1
            rw [he] at hhead
            exact Option.some.inj hhead
          subst hg'
          have hok := (hcons gs).mpr ⟨hmap, hrest⟩
          rw [hr] at hok
          cases hok
      | ok gs' =>
        have hgs' := (hcons gs').mp hr
        simp only [Except.ok.injEq]
        constructor
        · rintro rfl
          exact hgs'
        · intro h
          have hmap := h.1.symm.trans hgs'.1
          exact (List.map_injective_iff.mpr (fun _ _ ↦ Option.some.inj) hmap).symm

theorem complete?_eq_some_iff {e : GroupEntry ρ} {g : SavedGroup ρ} :
    e.complete? = some g ↔ e = g.toEntry := by
  constructor
  · intro h
    obtain ⟨m, w, v, t, i, d⟩ := e
    cases m <;> cases w <;> cases v <;> cases t <;> cases i <;> cases d <;>
      simp only [GroupEntry.complete?, reduceCtorEq, Option.some.injEq] at h
    rw [← h]
    rfl
  · rintro rfl
    exact complete?_toEntry g

theorem map_complete?_eq_iff {entries : List (GroupEntry ρ)} {gs : List (SavedGroup ρ)} :
    entries.map GroupEntry.complete? = gs.map some ↔ entries = gs.map SavedGroup.toEntry := by
  induction entries generalizing gs with
  | nil => cases gs <;> simp
  | cons e entries ih =>
    cases gs with
    | nil => simp
    | cons g gs =>
      simp only [List.map_cons, List.cons.injEq]
      rw [ih, complete?_eq_some_iff]

/-- The groups of a state dict that pass the checks of a restore. -/
structure WellSized (n : ℕ) (groups : List (SavedGroup ρ)) : Prop where
  sized : ∀ g ∈ groups, g.Sized n
  nodup : (groups.flatMap fun g ↦ g.kvMeta.sampleIds).Nodup

/-- A preflight passes exactly on what a state dict writes for this partition,
with rows of the size asked for that all have their own key. -/
theorem preflight_ok_iff {state : Envelope ρ} {maxGroups n : ℕ} {partition : String}
    {gs : List (SavedGroup ρ)} : preflight state maxGroups partition n = .ok gs ↔
      ∃ capacity groups, state = Envelope.ofSaved partition capacity groups ∧
        WellSized n groups ∧ truncate maxGroups groups = .ok gs := by
  have hof : ∀ (p : String) (capacity : ℕ) (entries : List (GroupEntry ρ)),
      preflight ⟨some p, some capacity, some entries⟩ maxGroups partition n = .ok gs ↔
        p = partition ∧ ∃ groups, entries = groups.map SavedGroup.toEntry ∧
          WellSized n groups ∧ truncate maxGroups groups = .ok gs := by
    intro p capacity entries
    simp only [preflight, ne_eq, ite_not]
    by_cases hp : p = partition
    · simp only [hp, if_true, true_and, bind, Except.bind]
      cases hc : checkGroups n [] entries with
      | error err =>
        simp only [reduceCtorEq, false_iff]
        rintro ⟨groups, hmap, hsized, _⟩
        have hok := checkGroups_ok_iff.mpr ⟨map_complete?_eq_iff.mpr hmap, hsized.sized,
          hsized.nodup, fun k _ ↦ List.not_mem_nil⟩
        rw [hc] at hok
        cases hok
      | ok groups =>
        obtain ⟨hmap, hsized, hnd, _⟩ := checkGroups_ok_iff.mp hc
        simp only
        constructor
        · exact fun h ↦ ⟨groups, map_complete?_eq_iff.mp hmap, ⟨hsized, hnd⟩, h⟩
        · rintro ⟨groups', hmap', _, h⟩
          have heq := hmap.symm.trans (map_complete?_eq_iff.mpr hmap')
          rwa [List.map_injective_iff.mpr (fun _ _ ↦ Option.some.inj) heq]
    · simp [hp]
  obtain ⟨p?, cap?, entries?⟩ := state
  cases p? with
  | none => simp [preflight, Envelope.ofSaved]
  | some p =>
  cases cap? with
  | none => simp [preflight, Envelope.ofSaved]
  | some capacity =>
  cases entries? with
  | none => simp [preflight, Envelope.ofSaved]
  | some entries =>
    rw [hof]
    simp only [Envelope.ofSaved, Envelope.mk.injEq, Option.some.injEq]
    constructor
    · rintro ⟨rfl, groups, rfl, h⟩
      exact ⟨capacity, groups, ⟨rfl, rfl, rfl⟩, h⟩
    · rintro ⟨_, groups, ⟨rfl, rfl, rfl⟩, h⟩
      exact ⟨rfl, groups, rfl, h⟩

theorem truncate_subset {maxGroups : ℕ} {groups gs : List (SavedGroup ρ)}
    (h : truncate maxGroups groups = .ok gs) : ∀ g ∈ gs, g ∈ groups := by
  unfold truncate at h
  split_ifs at h with hlen hany
  · obtain rfl := Except.ok.inj h
    exact truncateFreshest_subset maxGroups groups
  · obtain rfl := Except.ok.inj h
    exact fun g hg ↦ hg

theorem truncate_ok_iff {maxGroups : ℕ} {groups : List (SavedGroup ρ)} :
    (∃ gs, truncate maxGroups groups = .ok gs) ↔
      ¬ (maxGroups < groups.length ∧ ∃ g ∈ groups, g.targetStep.isSome) := by
  unfold truncate
  simp only [List.any_eq_true]
  split_ifs with hlen hany
  · simp only [exists_false, false_iff, not_not]
    exact ⟨hlen, hany⟩
  · simp only [Except.ok.injEq, exists_eq', true_iff]
    exact fun h ↦ hany h.2
  · simp only [Except.ok.injEq, exists_eq', true_iff]
    exact fun h ↦ hlen h.1

def keptIndices (maxGroups : ℕ) (groups : List (SavedGroup ρ)) : List ℕ :=
  (((List.range groups.length).insertionSort (Staler groups)).drop
    (groups.length - maxGroups)).insertionSort (· ≤ ·)

theorem truncateFreshest_eq (maxGroups : ℕ) (groups : List (SavedGroup ρ)) :
    truncateFreshest maxGroups groups = entriesAt groups (keptIndices maxGroups groups) := rfl

instance (groups : List (SavedGroup ρ)) : Std.Total (Staler groups) :=
  ⟨fun i j ↦ by unfold Staler; omega⟩

instance (groups : List (SavedGroup ρ)) : IsTrans ℕ (Staler groups) :=
  ⟨fun i j k ↦ by unfold Staler; omega⟩

theorem nodup_keptIndices (maxGroups : ℕ) (groups : List (SavedGroup ρ)) :
    (keptIndices maxGroups groups).Nodup := by
  refine (List.perm_insertionSort _ _).nodup_iff.mpr
    (List.Nodup.sublist (List.drop_sublist _ _) ?_)
  exact (List.perm_insertionSort _ _).nodup_iff.mpr List.nodup_range

/-- The kept positions are in range, in order, and every position left out is
staler than every kept one. -/
theorem keptIndices_spec (maxGroups : ℕ) (groups : List (SavedGroup ρ)) :
    (∀ i ∈ keptIndices maxGroups groups, i < groups.length) ∧
    (keptIndices maxGroups groups).Pairwise (· < ·) ∧
    ∀ i ∈ keptIndices maxGroups groups, ∀ j < groups.length,
      j ∉ keptIndices maxGroups groups → Staler groups j i := by
  have hmem : ∀ i, i ∈ keptIndices maxGroups groups ↔
      i ∈ ((List.range groups.length).insertionSort (Staler groups)).drop
        (groups.length - maxGroups) := fun i ↦ (List.perm_insertionSort _ _).mem_iff
  have hsorted := List.pairwise_insertionSort (Staler groups) (List.range groups.length)
  rw [← List.take_append_drop (groups.length - maxGroups)
    ((List.range groups.length).insertionSort (Staler groups)), List.pairwise_append] at hsorted
  have hall : ∀ j, j < groups.length →
      j ∈ (List.range groups.length).insertionSort (Staler groups) := fun j hj ↦
    (List.perm_insertionSort _ _).mem_iff.mpr (List.mem_range.mpr hj)
  refine ⟨fun i hi ↦ ?_, ?_, fun i hi j hj hnot ↦ ?_⟩
  · have h := List.mem_of_mem_drop ((hmem i).mp hi)
    exact List.mem_range.mp ((List.perm_insertionSort _ _).mem_iff.mp h)
  · have hle : (keptIndices maxGroups groups).Pairwise (· ≤ ·) :=
      List.pairwise_insertionSort _ _
    exact (hle.and (nodup_keptIndices maxGroups groups)).imp fun h ↦ lt_of_le_of_ne h.1 h.2
  · have hj' := hall j hj
    rw [← List.take_append_drop (groups.length - maxGroups)
      ((List.range groups.length).insertionSort (Staler groups)), List.mem_append] at hj'
    rcases hj' with htake | hdrop
    · exact hsorted.2.2 j htake i ((hmem i).mp hi)
    · exact absurd ((hmem j).mpr hdrop) hnot

def loadStateDict (p : Plane ρ) (state : Envelope ρ) (maxGroups : ℕ)
    (expectedPartitionId : String) (expectedGroupSize : ℕ) : Plane ρ × Except LoadError ℕ :=
  match preflight state maxGroups expectedPartitionId expectedGroupSize with
  | .error e => (p, .error e)
  | .ok groups => (groups.foldl restoreGroup p, .ok groups.length)

/-- `state_dict` where nothing runs between the snapshot and the last fetch;
nothing where a row of a ready slot is missing. -/
def stateDict (p : Plane ρ) (partitionId : String) (savedCapacity : ℕ) : Option (Envelope ρ) :=
  (p.buffer.snapshot.mapM (fetchGroup p.dp)).map (Envelope.ofSaved partitionId savedCapacity)

theorem fetchGroup_spec {dp : KeyedStore SampleId (Row ρ)} {x : Slot} {m : KVBatchMeta}
    (hm : x.kvMeta = some m) (hready : x.ready = true)
    (htags : m.tags = some (List.replicate m.sampleIds.length ⟨x.startWeight⟩))
    (hrows : ∀ k ∈ m.sampleIds, ∃ payload, dp k = some ⟨payload, ⟨x.startWeight⟩⟩) :
    ∃ g : SavedGroup ρ, fetchGroup dp x = some g ∧ g.toSlot = x ∧
      List.Forall₂ (fun k r ↦ r.1 = k ∧ dp k = some r.2) m.sampleIds g.rows := by
  obtain ⟨payloads, hp⟩ : ∃ payloads, List.Forall₂
      (fun k p ↦ dp k = some ⟨p, ⟨x.startWeight⟩⟩) m.sampleIds payloads :=
    (exists_forall₂ hrows).imp fun _ h ↦ h.1
  have hfetch : m.sampleIds.mapM dp = some (payloads.map fun p ↦ ⟨p, ⟨x.startWeight⟩⟩) :=
    mapM_eq_some (List.forall₂_map_right_iff.mpr hp)
  obtain ⟨km, w, e, t, ready, gid⟩ := x
  simp only at hm hready htags hp hfetch
  subst hm hready
  refine ⟨⟨m, w, e, t, gid, payloads⟩, ?_, rfl, ?_⟩
  · simp [fetchGroup, hfetch, Function.comp_def]
  · clear hfetch
    simp only [SavedGroup.rows, htags, Option.getD_some]
    generalize m.sampleIds = ids at hp
    induction hp with
    | nil => exact .nil
    | cons h _ ih => exact .cons ⟨rfl, h⟩ ih

theorem slots_restore (groups : List (SavedGroup ρ)) (p : Plane ρ) :
    (groups.foldl restoreGroup p).buffer.slots = p.buffer.slots ++ groups.map SavedGroup.toSlot := by
  induction groups generalizing p with
  | nil => simp
  | cons g groups ih =>
    rw [List.foldl_cons, ih, slots_restoreGroup, List.map_cons, List.append_assoc,
      List.singleton_append]

theorem dp_restore (groups : List (SavedGroup ρ)) (p : Plane ρ) :
    (groups.foldl restoreGroup p).dp = p.dp.put (groups.flatMap SavedGroup.rows) := by
  induction groups generalizing p with
  | nil => rfl
  | cons g groups ih =>
    rw [List.foldl_cons, ih, List.flatMap_cons, KeyedStore.put_append]
    rfl

def Fetched (dp : KeyedStore SampleId (Row ρ)) (g : SavedGroup ρ) : Prop :=
  List.Forall₂ (fun k r ↦ r.1 = k ∧ dp k = some r.2) g.kvMeta.sampleIds g.rows

theorem Fetched.keys {dp : KeyedStore SampleId (Row ρ)} {g : SavedGroup ρ} (h : Fetched dp g) :
    g.rows.map Prod.fst = g.kvMeta.sampleIds := by
  have heq : List.Forall₂ Eq g.kvMeta.sampleIds (g.rows.map Prod.fst) :=
    List.forall₂_map_right_iff.mpr (h.imp fun _ _ h ↦ h.1.symm)
  exact (List.forall₂_eq_eq_eq ▸ heq).symm

theorem Fetched.values {dp : KeyedStore SampleId (Row ρ)} {g : SavedGroup ρ} (h : Fetched dp g) :
    ∀ r ∈ g.rows, dp r.1 = some r.2 := by
  unfold Fetched at h
  generalize g.kvMeta.sampleIds = ids, g.rows = rows at h
  induction h with
  | nil => simp
  | cons h _ ih =>
    refine List.forall_mem_cons.mpr ⟨?_, ih⟩
    rw [h.1]
    exact h.2

def Replicates (dp : KeyedStore SampleId (Row ρ)) (slots : List Slot) (p : Plane ρ) : Prop :=
  p.buffer.slots = slots ∧
    ∀ k, p.dp k = if k ∈ slots.flatMap Slot.rowIds then dp k else none

theorem restore_replicates {dp : KeyedStore SampleId (Row ρ)} {groups : List (SavedGroup ρ)}
    (hf : ∀ g ∈ groups, Fetched dp g)
    (hnd : (groups.flatMap fun g ↦ g.kvMeta.sampleIds).Nodup) :
    Replicates dp (groups.map SavedGroup.toSlot)
      (groups.foldl restoreGroup (⟨.empty, .empty⟩ : Plane ρ)) := by
  have hkeys : (groups.flatMap SavedGroup.rows).map Prod.fst =
      groups.flatMap fun g ↦ g.kvMeta.sampleIds := by
    rw [List.map_flatMap]
    exact List.flatMap_congr fun g hg ↦ (hf g hg).keys
  have hids : (groups.map SavedGroup.toSlot).flatMap Slot.rowIds =
      groups.flatMap fun g ↦ g.kvMeta.sampleIds := by
    rw [List.flatMap_map]
    rfl
  refine ⟨slots_restore groups _, fun k ↦ ?_⟩
  rw [dp_restore, hids]
  split_ifs with hk
  · rw [← hkeys] at hk hnd
    obtain ⟨r, hr, rfl⟩ := List.mem_map.mp hk
    obtain ⟨g, hg, hrg⟩ := List.mem_flatMap.mp hr
    rw [KeyedStore.put_of_mem hnd hr, (hf g hg).values r hrg]
  · rw [← hkeys] at hk
    rw [KeyedStore.put_of_notMem hk]
    rfl

def Malformed (state : Envelope ρ) (maxGroups : ℕ) (partitionId : String) (groupSize : ℕ) :
    Prop :=
  (state.partitionId = none ∨ state.savedCapacity = none ∨ state.groups = none) ∨
  (∃ p ∈ state.partitionId, p ≠ partitionId) ∨
  ∃ entries ∈ state.groups, (∃ e ∈ entries, e.missingKeys ≠ []) ∨
    (∃ e ∈ entries, ∃ g ∈ e.complete?, ¬ g.Sized groupSize) ∨
    ¬ ((entries.filterMap GroupEntry.complete?).flatMap fun g ↦ g.kvMeta.sampleIds).Nodup ∨
    (maxGroups < entries.length ∧ ∃ e ∈ entries, ∃ t, e.targetStep = some (some t))

theorem missingKeys_eq_nil_iff {e : GroupEntry ρ} :
    e.missingKeys = [] ↔ ∃ g : SavedGroup ρ, e = g.toEntry := by
  obtain ⟨m, w, v, t, i, d⟩ := e
  constructor
  · intro h
    cases m <;> cases w <;> cases v <;> cases t <;> cases i <;> cases d <;>
      simp [GroupEntry.missingKeys] at h
    exact ⟨⟨_, _, _, _, _, _⟩, rfl⟩
  · rintro ⟨g, hg⟩
    rw [hg]
    rfl

theorem not_malformed_iff {state : Envelope ρ} {maxGroups n : ℕ} {partition : String} :
    ¬ Malformed state maxGroups partition n ↔
      ∃ capacity groups, state = Envelope.ofSaved partition capacity groups ∧
        WellSized n groups ∧
        ¬ (maxGroups < groups.length ∧ ∃ g ∈ groups, g.targetStep.isSome) := by
  have hcomplete : ∀ groups : List (SavedGroup ρ),
      (groups.map SavedGroup.toEntry).filterMap GroupEntry.complete? = groups := by
    intro groups
    rw [List.filterMap_map]
    exact List.filterMap_some
  constructor
  · intro h
    obtain ⟨hkeys, h⟩ := not_or.mp h
    obtain ⟨hpart, h⟩ := not_or.mp h
    obtain ⟨p?, cap?, entries?⟩ := state
    simp only [not_or] at hkeys
    obtain ⟨p, rfl⟩ := Option.ne_none_iff_exists'.mp hkeys.1
    obtain ⟨capacity, rfl⟩ := Option.ne_none_iff_exists'.mp hkeys.2.1
    obtain ⟨entries, rfl⟩ := Option.ne_none_iff_exists'.mp hkeys.2.2
    have hall : ∀ e ∈ entries, ∃ g : SavedGroup ρ, g.toEntry = e := by
      intro e he
      by_contra hne
      refine h ⟨entries, rfl, .inl ⟨e, he, fun hnil ↦ ?_⟩⟩
      obtain ⟨g, hg⟩ := missingKeys_eq_nil_iff.mp hnil
      exact hne ⟨g, hg.symm⟩
    obtain ⟨groups, rfl⟩ : ∃ groups : List (SavedGroup ρ),
        groups.map SavedGroup.toEntry = entries := by
      have hrange : entries ∈ Set.range (List.map (SavedGroup.toEntry (ρ := ρ))) := by
        rw [Set.range_list_map]
        exact hall
      exact hrange
    have hp : p = partition := by
      by_contra hne
      exact hpart ⟨p, rfl, hne⟩
    refine ⟨capacity, groups, by rw [hp]; rfl, ⟨fun g hg ↦ ?_, ?_⟩, ?_⟩
    · by_contra hsized
      exact h ⟨_, rfl, .inr (.inl ⟨_, List.mem_map_of_mem hg, g, rfl, hsized⟩)⟩
    · by_contra hnd
      exact h ⟨_, rfl, .inr (.inr (.inl (by rwa [hcomplete])))⟩
    · rintro ⟨hlen, g, hg, htarget⟩
      obtain ⟨t, ht⟩ := Option.isSome_iff_exists.mp htarget
      refine h ⟨_, rfl, .inr (.inr (.inr ⟨by simpa using hlen, _, List.mem_map_of_mem hg, t, ?_⟩))⟩
      simp [SavedGroup.toEntry, ht]
  · rintro ⟨capacity, groups, rfl, hsized, hover⟩ hmal
    rcases hmal with h | ⟨p, hp, hne⟩ | ⟨entries, he, h⟩
    · simp [Envelope.ofSaved] at h
    · obtain rfl := Option.some.inj hp
      exact hne rfl
    · obtain rfl := Option.some.inj he
      rcases h with ⟨e, hmem, hmiss⟩ | ⟨e, hmem, g, hg, hbad⟩ | hnd | ⟨hlen, e, hmem, t, ht⟩
      · obtain ⟨g, _, rfl⟩ := List.mem_map.mp hmem
        exact hmiss (missingKeys_eq_nil_iff.mpr ⟨g, rfl⟩)
      · obtain ⟨g', hg', rfl⟩ := List.mem_map.mp hmem
        obtain rfl := Option.some.inj hg
        exact hbad (hsized.sized g' hg')
      · rw [hcomplete] at hnd
        exact hnd hsized.nodup
      · obtain ⟨g, hg, rfl⟩ := List.mem_map.mp hmem
        rw [List.length_map] at hlen
        refine hover ⟨hlen, g, hg, ?_⟩
        rw [Option.some.inj ht]
        rfl

theorem loadStateDict_error_iff {p : Plane ρ} {state : Envelope ρ} {maxGroups n : ℕ}
    {partition : String} :
    (∃ e, loadStateDict p state maxGroups partition n = (p, .error e)) ↔
      Malformed state maxGroups partition n := by
  rw [← not_iff_not, not_malformed_iff]
  constructor
  · intro h
    cases hpre : preflight state maxGroups partition n with
    | error e => exact absurd ⟨e, by simp only [loadStateDict, hpre]⟩ h
    | ok gs =>
      obtain ⟨capacity, groups, hstate, hsized, htrunc⟩ := preflight_ok_iff.mp hpre
      exact ⟨capacity, groups, hstate, hsized, truncate_ok_iff.mp ⟨gs, htrunc⟩⟩
  · rintro ⟨capacity, groups, hstate, hsized, hover⟩ ⟨e, he⟩
    obtain ⟨gs, hgs⟩ := truncate_ok_iff.mpr hover
    have hpre := preflight_ok_iff.mpr ⟨capacity, groups, hstate, hsized, hgs⟩
    simp [loadStateDict, hpre] at he

end TQReplayBuffer

end NemoRL.AsyncUtils
