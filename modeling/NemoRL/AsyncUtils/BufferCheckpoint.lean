import Mathlib
import NemoRL.AsyncUtils.Commit

namespace NemoRL.AsyncUtils

open DataPlane Foundations Foundations.Positions

structure SavedGroup (ρ : Type*) where
  kvMeta : KVBatchMeta
  startWeight : ℕ
  endWeight : ℤ
  targetStep : Option ℕ
  groupId : GroupId
  fieldsData : List ρ

/-- A group as it is found in a checkpoint, where a key may be missing. -/
structure GroupEntry (ρ : Type*) where
  kvMeta : Option KVBatchMeta
  startWeight : Option ℕ
  endWeight : Option ℤ
  targetStep : Option (Option ℕ)
  groupId : Option GroupId
  fieldsData : Option (List ρ)

structure Envelope (ρ : Type*) where
  partitionId : Option String
  savedCapacity : Option ℕ
  groups : Option (List (GroupEntry ρ))

/-- The checks of `load_state_dict` that end in `ValueError`. -/
inductive LoadError
  | missingKeys (keys : List String)
  | partitionMismatch (checkpoint expected : String)
  | groupMissingKeys (keys : List String)
  | misaligned (sampleIds : ℕ) (tags sequenceLengths : ℤ) (expectedGroupSize : ℕ)
  | duplicateSampleId (sid : SampleId)
  | stampedOverCapacity (groups maxGroups : ℕ)
  deriving DecidableEq

variable {ρ : Type*}

namespace SavedGroup

def toEntry (g : SavedGroup ρ) : GroupEntry ρ :=
  ⟨some g.kvMeta, some g.startWeight, some g.endWeight, some g.targetStep, some g.groupId,
    some g.fieldsData⟩

def toSlot (g : SavedGroup ρ) : Slot :=
  ⟨some g.kvMeta, g.startWeight, g.endWeight, g.targetStep, true, g.groupId⟩

def rows (g : SavedGroup ρ) : List (SampleId × Row ρ) :=
  (g.kvMeta.sampleIds.zip (g.fieldsData.zip (g.kvMeta.tags.getD []))).map
    fun ⟨k, payload, tag⟩ ↦ (k, ⟨payload, tag⟩)

end SavedGroup

namespace GroupEntry

def missingKeys (g : GroupEntry ρ) : List String :=
  (if g.kvMeta.isNone then ["meta"] else []) ++
  (if g.startWeight.isNone then ["start_weight"] else []) ++
  (if g.endWeight.isNone then ["end_weight"] else []) ++
  (if g.targetStep.isNone then ["target_step"] else []) ++
  (if g.groupId.isNone then ["group_id"] else []) ++
  (if g.fieldsData.isNone then ["fields_data"] else [])

def complete? (g : GroupEntry ρ) : Option (SavedGroup ρ) :=
  match g with
  | ⟨some m, some w, some e, some t, some i, some d⟩ => some ⟨m, w, e, t, i, d⟩
  | _ => none

end GroupEntry

def Envelope.ofSaved (partitionId : String) (savedCapacity : ℕ) (groups : List (SavedGroup ρ)) :
    Envelope ρ :=
  ⟨some partitionId, some savedCapacity, some (groups.map SavedGroup.toEntry)⟩

namespace TQReplayBuffer

def snapshot (b : TQReplayBuffer) : List Slot := b.slots.filter Slot.ready

/-- Fetch the rows of one snapshotted group; nothing where a row is missing. -/
def fetchGroup (dp : KeyedStore SampleId (Row ρ)) (s : Slot) : Option (SavedGroup ρ) :=
  s.kvMeta.bind fun m ↦ (m.sampleIds.mapM dp).map fun rows ↦
    ⟨m, s.startWeight, s.endWeight, s.targetStep, s.groupId, rows.map Row.payload⟩

def checkGroup (expectedGroupSize : ℕ) (seen : List SampleId) (entry : GroupEntry ρ) :
    Except LoadError (SavedGroup ρ) :=
  match entry.complete? with
  | none => .error (.groupMissingKeys entry.missingKeys)
  | some g =>
    let numTags : ℤ := g.kvMeta.tags.elim (-1) fun ts ↦ ts.length
    let numLengths : ℤ := g.kvMeta.sequenceLengths.elim (-1) fun ls ↦ ls.length
    if ¬ ((g.kvMeta.sampleIds.length : ℤ) = numTags ∧ numTags = numLengths ∧
        numLengths = expectedGroupSize) then
      .error (.misaligned g.kvMeta.sampleIds.length numTags numLengths expectedGroupSize)
    else match (g.kvMeta.sampleIds.zipIdx.find? fun x ↦
        decide (x.1 ∈ seen ++ g.kvMeta.sampleIds.take x.2)) with
      | some x => .error (.duplicateSampleId x.1)
      | none => .ok g

def checkGroups (expectedGroupSize : ℕ) :
    List SampleId → List (GroupEntry ρ) → Except LoadError (List (SavedGroup ρ))
  | _, [] => .ok []
  | seen, entry :: rest => do
    let g ← checkGroup expectedGroupSize seen entry
    let gs ← checkGroups expectedGroupSize (seen ++ g.kvMeta.sampleIds) rest
    return g :: gs

/-- The sort key of the truncation: older start weights first, then position. -/
def Staler (groups : List (SavedGroup ρ)) (i j : ℕ) : Prop :=
  (groups[i]?.elim 0 SavedGroup.startWeight) < (groups[j]?.elim 0 SavedGroup.startWeight) ∨
    ((groups[i]?.elim 0 SavedGroup.startWeight) = (groups[j]?.elim 0 SavedGroup.startWeight) ∧
      i ≤ j)

instance (groups : List (SavedGroup ρ)) (i j : ℕ) : Decidable (Staler groups i j) :=
  inferInstanceAs (Decidable (_ ∨ _))

def truncateFreshest (maxGroups : ℕ) (groups : List (SavedGroup ρ)) : List (SavedGroup ρ) :=
  let prioritized := (List.range groups.length).insertionSort (Staler groups)
  let indicesToKeep := (prioritized.drop (groups.length - maxGroups)).insertionSort (· ≤ ·)
  entriesAt groups indicesToKeep

def truncate (maxGroups : ℕ) (groups : List (SavedGroup ρ)) :
    Except LoadError (List (SavedGroup ρ)) :=
  if groups.length > maxGroups then
    if groups.any fun g ↦ g.targetStep.isSome then
      .error (.stampedOverCapacity groups.length maxGroups)
    else .ok (truncateFreshest maxGroups groups)
  else .ok groups

/-- Everything `load_state_dict` does before its first DataPlane write. -/
def preflight (state : Envelope ρ) (maxGroups : ℕ) (expectedPartitionId : String)
    (expectedGroupSize : ℕ) : Except LoadError (List (SavedGroup ρ)) :=
  match state with
  | ⟨some partitionId, some _, some entries⟩ =>
    if partitionId ≠ expectedPartitionId then
      .error (.partitionMismatch partitionId expectedPartitionId)
    else do
      let groups ← checkGroups expectedGroupSize [] entries
      truncate maxGroups groups
  | ⟨partitionId, savedCapacity, groups⟩ => .error (.missingKeys
      ((if partitionId.isNone then ["partition_id"] else []) ++
        (if savedCapacity.isNone then ["saved_capacity"] else []) ++
        if groups.isNone then ["groups"] else []))

/-- The body of the restoring loop after its `put_samples` has returned. -/
def restoreGroup (p : Plane ρ) (g : SavedGroup ρ) : Plane ρ :=
  ⟨p.buffer.append g.toSlot, p.dp.put g.rows⟩

@[simp] theorem slots_restoreGroup (p : Plane ρ) (g : SavedGroup ρ) :
    (restoreGroup p g).buffer.slots = p.buffer.slots ++ [g.toSlot] := slots_append _ _

theorem complete?_toEntry (g : SavedGroup ρ) : g.toEntry.complete? = some g := rfl

theorem checkGroups_mem {n : ℕ} {seen : List SampleId} {entries : List (GroupEntry ρ)}
    {groups : List (SavedGroup ρ)} (h : checkGroups n seen entries = .ok groups) :
    List.Forall₂ (fun e g ↦ e.complete? = some g) entries groups := by
  induction entries generalizing seen groups with
  | nil =>
    obtain rfl : [] = groups := by simpa [checkGroups] using h
    exact .nil
  | cons e entries ih =>
    simp only [checkGroups] at h
    cases hc : checkGroup n seen e with
    | error err => simp [hc, bind, Except.bind] at h
    | ok g =>
      cases hr : checkGroups n (seen ++ g.kvMeta.sampleIds) entries with
      | error err => simp [hc, hr, bind, Except.bind] at h
      | ok gs =>
        obtain rfl : g :: gs = groups := by
          simpa [hc, hr, bind, Except.bind, pure, Except.pure] using h
        refine .cons ?_ (ih hr)
        unfold checkGroup at hc
        cases he : e.complete? with
        | none => simp [he] at hc
        | some g' =>
          simp only [he] at hc
          split_ifs at hc
          split at hc
          · simp at hc
          · exact congrArg some (Except.ok.inj hc)

theorem truncateFreshest_subset (maxGroups : ℕ) (groups : List (SavedGroup ρ)) :
    ∀ g ∈ truncateFreshest maxGroups groups, g ∈ groups := by
  intro g hg
  obtain ⟨i, _, hi⟩ := List.mem_filterMap.mp hg
  exact List.mem_of_getElem? hi

theorem truncateFreshest_length {maxGroups : ℕ} {groups : List (SavedGroup ρ)}
    (h : maxGroups ≤ groups.length) :
    (truncateFreshest maxGroups groups).length = maxGroups := by
  have hlt : ∀ i ∈ ((List.range groups.length).insertionSort (Staler groups)).drop
      (groups.length - maxGroups) |>.insertionSort (· ≤ ·), i < groups.length := by
    intro i hi
    have h₁ := (List.perm_insertionSort _ _).mem_iff.mp hi
    have h₂ := (List.perm_insertionSort _ _).mem_iff.mp (List.mem_of_mem_drop h₁)
    exact List.mem_range.mp h₂
  simp only [truncateFreshest]
  rw [length_entriesAt hlt, List.length_insertionSort, List.length_drop,
    List.length_insertionSort, List.length_range]
  omega

theorem preflight_ofSaved {partition partition' : String} {capacity maxGroups n : ℕ}
    {groups gs : List (SavedGroup ρ)}
    (h : preflight (Envelope.ofSaved partition capacity groups) maxGroups partition' n =
      .ok gs) : gs = groups ∨ gs = truncateFreshest maxGroups groups := by
  simp only [preflight, Envelope.ofSaved] at h
  split_ifs at h with hp
  cases hc : checkGroups n [] (groups.map SavedGroup.toEntry) with
  | error err => simp [hc, bind, Except.bind] at h
  | ok all =>
    have hall : all = groups := by
      have hmem := checkGroups_mem hc
      rw [List.forall₂_map_left_iff] at hmem
      have heq : List.Forall₂ Eq groups all := hmem.imp fun g g' hg ↦ by
        simpa [complete?_toEntry] using hg
      rw [List.forall₂_eq_eq_eq] at heq
      exact heq.symm
    subst hall
    simp only [hc, bind, Except.bind, truncate] at h
    split_ifs at h with hlen hany
    · exact .inr (Except.ok.inj h).symm
    · exact .inl (Except.ok.inj h).symm

theorem preflight_nodup {partition partition' : String} {capacity maxGroups n : ℕ}
    {groups gs : List (SavedGroup ρ)}
    (h : preflight (Envelope.ofSaved partition capacity groups) maxGroups partition' n =
      .ok gs) (hg : (groups.map SavedGroup.groupId).Nodup) :
    (gs.map SavedGroup.groupId).Nodup ∧ ∀ g ∈ gs, g ∈ groups := by
  rcases preflight_ofSaved h with rfl | rfl
  · exact ⟨hg, fun g h ↦ h⟩
  · refine ⟨nodup_map_entriesAt hg ?_, truncateFreshest_subset _ _⟩
    refine (List.perm_insertionSort _ _).nodup_iff.mpr (List.Nodup.sublist (List.drop_sublist _ _) ?_)
    exact (List.perm_insertionSort _ _).nodup_iff.mpr List.nodup_range

end TQReplayBuffer

end NemoRL.AsyncUtils
