import Mathlib
import NemoRL.DataPlane.Payload
import NemoRL.Foundations.Positions

namespace NemoRL.AsyncUtils

open DataPlane Foundations.Positions

/-- What the six parallel lists say about one index. -/
structure Slot where
  kvMeta : Option KVBatchMeta
  startWeight : ℕ
  endWeight : ℤ
  targetStep : Option ℕ
  ready : Bool
  groupId : GroupId
  deriving DecidableEq

namespace Slot

def filled (s : Slot) (m : KVBatchMeta) (endWeightVersion : ℕ) : Slot :=
  { s with kvMeta := some m, endWeight := endWeightVersion, ready := true }

def restamped (s : Slot) (targetStep : ℕ) : Slot := { s with targetStep := some targetStep }

def rowIds (s : Slot) : List SampleId := (s.kvMeta.map KVBatchMeta.sampleIds).getD []

end Slot

/-- Meta cache with reserve-then-commit slots, kept as six parallel lists. -/
@[ext] structure TQReplayBuffer where
  metaList : List (Option KVBatchMeta)
  startWeightList : List ℕ
  endWeightList : List ℤ
  targetStepList : List (Option ℕ)
  readyList : List Bool
  groupIds : List GroupId
  length_startWeightList : startWeightList.length = metaList.length
  length_endWeightList : endWeightList.length = metaList.length
  length_targetStepList : targetStepList.length = metaList.length
  length_readyList : readyList.length = metaList.length
  length_groupIds : groupIds.length = metaList.length

namespace TQReplayBuffer

def empty : TQReplayBuffer := ⟨[], [], [], [], [], [], rfl, rfl, rfl, rfl, rfl⟩

def size (b : TQReplayBuffer) : ℕ := b.metaList.length

def append (b : TQReplayBuffer) (s : Slot) : TQReplayBuffer where
  metaList := b.metaList ++ [s.kvMeta]
  startWeightList := b.startWeightList ++ [s.startWeight]
  endWeightList := b.endWeightList ++ [s.endWeight]
  targetStepList := b.targetStepList ++ [s.targetStep]
  readyList := b.readyList ++ [s.ready]
  groupIds := b.groupIds ++ [s.groupId]
  length_startWeightList := by simp [b.length_startWeightList]
  length_endWeightList := by simp [b.length_endWeightList]
  length_targetStepList := by simp [b.length_targetStepList]
  length_readyList := by simp [b.length_readyList]
  length_groupIds := by simp [b.length_groupIds]

def reservation (weightVersion : ℕ) (targetStep : Option ℕ) (groupId : GroupId) : Slot :=
  ⟨none, weightVersion, -1, targetStep, false, groupId⟩

def reserve (b : TQReplayBuffer) (weightVersion : ℕ) (targetStep : Option ℕ)
    (groupId : GroupId) : TQReplayBuffer :=
  b.append (reservation weightVersion targetStep groupId)

/-- `self._group_ids.index(group_id)`, or nothing where it raises `ValueError`. -/
def index (b : TQReplayBuffer) (groupId : GroupId) : Option ℕ := b.groupIds.idxOf? groupId

/-- The last lines of `commit`: fill the slot found under the group id. -/
def fill (b : TQReplayBuffer) (idx : ℕ) (m : KVBatchMeta) (endWeightVersion : ℕ) :
    TQReplayBuffer where
  metaList := b.metaList.set idx (some m)
  startWeightList := b.startWeightList
  endWeightList := b.endWeightList.set idx endWeightVersion
  targetStepList := b.targetStepList
  readyList := b.readyList.set idx true
  groupIds := b.groupIds
  length_startWeightList := by simp [b.length_startWeightList]
  length_endWeightList := by simp [b.length_endWeightList]
  length_targetStepList := by simp [b.length_targetStepList]
  length_readyList := by simp [b.length_readyList]
  length_groupIds := by simp [b.length_groupIds]

def delete (b : TQReplayBuffer) (i : ℕ) : TQReplayBuffer where
  metaList := b.metaList.eraseIdx i
  startWeightList := b.startWeightList.eraseIdx i
  endWeightList := b.endWeightList.eraseIdx i
  targetStepList := b.targetStepList.eraseIdx i
  readyList := b.readyList.eraseIdx i
  groupIds := b.groupIds.eraseIdx i
  length_startWeightList := by simp [List.length_eraseIdx, b.length_startWeightList]
  length_endWeightList := by simp [List.length_eraseIdx, b.length_endWeightList]
  length_targetStepList := by simp [List.length_eraseIdx, b.length_targetStepList]
  length_readyList := by simp [List.length_eraseIdx, b.length_readyList]
  length_groupIds := by simp [List.length_eraseIdx, b.length_groupIds]

/-- The deletion loop of `remove`, collecting the row keys of the dropped
slots. A repeated index can run past the shrunken lists; the loop then raises
`IndexError` half way. -/
def removeLoop (b : TQReplayBuffer) : List ℕ → List SampleId →
    TQReplayBuffer × Option (List SampleId)
  | [], dropped => (b, some dropped)
  | i :: is, dropped =>
    match b.metaList[i]? with
    | none => (b, none)
    | some m => (b.delete i).removeLoop is (dropped ++ (m.map KVBatchMeta.sampleIds).getD [])

/-- `remove` up to its only suspension: the buffer it leaves, with the row keys
that `remove_in_dp` would clear, or nothing where it raises `IndexError`. -/
def remove (b : TQReplayBuffer) (idxs : List ℕ) : TQReplayBuffer × Option (List SampleId) :=
  match idxs.insertionSort (· ≥ ·) with
  | [] => (b, some [])
  | top :: rest => if top ≥ b.size then (b, none) else b.removeLoop (top :: rest) []

/-- `remove_group` without DataPlane clearing; nothing where it raises. -/
def removeGroup (b : TQReplayBuffer) (groupId : GroupId) : Option TQReplayBuffer :=
  (b.index groupId).map fun i ↦ (b.remove [i]).1

def countForTargetStep (b : TQReplayBuffer) (targetStep : ℕ) : ℕ :=
  b.targetStepList.count (some targetStep)

def promoteScan (b : TQReplayBuffer) (toTargetStep : ℕ) (lender : Option (ℕ × ℕ))
    (x : Option ℕ × ℕ) : Option (ℕ × ℕ) :=
  match x.1 with
  | none => lender
  | some target =>
    if target ≤ toTargetStep ∨ b.readyList[x.2]? ≠ some true then lender
    else match lender with
      | none => some (x.2, target)
      | some (i, lenderTarget) =>
        if target > lenderTarget then some (x.2, target) else some (i, lenderTarget)

/-- The first ready slot among those of the furthest later step. -/
def promoteLender (b : TQReplayBuffer) (toTargetStep : ℕ) : Option (ℕ × ℕ) :=
  b.targetStepList.zipIdx.foldl (b.promoteScan toTargetStep) none

def retarget (b : TQReplayBuffer) (i : ℕ) (targetStep : ℕ) : TQReplayBuffer :=
  { b with
    targetStepList := b.targetStepList.set i (some targetStep)
    length_targetStepList := by simp [b.length_targetStepList] }

/-- Re-stamp a finished group of a later step, answering the step it was
borrowed from. -/
def promoteReadyGroup (b : TQReplayBuffer) (toTargetStep : ℕ) : TQReplayBuffer × Option ℕ :=
  match b.promoteLender toTargetStep with
  | none => (b, none)
  | some (i, lenderTarget) => (b.retarget i toTargetStep, some lenderTarget)

def slots (b : TQReplayBuffer) : List Slot :=
  (b.metaList.zip (b.startWeightList.zip (b.endWeightList.zip
    (b.targetStepList.zip (b.readyList.zip b.groupIds))))).map
    fun ⟨m, w, e, t, r, g⟩ ↦ ⟨m, w, e, t, r, g⟩

def ofSlots (l : List Slot) : TQReplayBuffer where
  metaList := l.map Slot.kvMeta
  startWeightList := l.map Slot.startWeight
  endWeightList := l.map Slot.endWeight
  targetStepList := l.map Slot.targetStep
  readyList := l.map Slot.ready
  groupIds := l.map Slot.groupId
  length_startWeightList := by simp
  length_endWeightList := by simp
  length_targetStepList := by simp
  length_readyList := by simp
  length_groupIds := by simp

@[simp] theorem slots_ofSlots (l : List Slot) : (ofSlots l).slots = l := by
  induction l with
  | nil => rfl
  | cons s l ih =>
    simp only [slots, ofSlots, List.map_cons, List.zip_cons_cons] at ih ⊢
    rw [ih]

theorem exists_ofSlots (b : TQReplayBuffer) : ∃ l, b = ofSlots l := by
  have h₁ := b.length_startWeightList
  have h₂ := b.length_endWeightList
  have h₃ := b.length_targetStepList
  have h₄ := b.length_readyList
  have h₅ := b.length_groupIds
  refine ⟨b.slots, TQReplayBuffer.ext ?_ ?_ ?_ ?_ ?_ ?_⟩
  all_goals
    refine List.ext_getElem ?_ fun i hi _ ↦ ?_
    · simp [ofSlots, slots, h₁, h₂, h₃, h₄, h₅]
    · simp [ofSlots, slots]

@[simp] theorem ofSlots_slots (b : TQReplayBuffer) : ofSlots b.slots = b := by
  obtain ⟨l, rfl⟩ := b.exists_ofSlots
  rw [slots_ofSlots]

@[simp] theorem slots_empty : empty.slots = [] := rfl

theorem length_slots (b : TQReplayBuffer) : b.slots.length = b.size := by
  obtain ⟨l, rfl⟩ := b.exists_ofSlots
  rw [slots_ofSlots]
  simp [size, ofSlots]

@[simp] theorem slots_append (b : TQReplayBuffer) (s : Slot) :
    (b.append s).slots = b.slots ++ [s] := by
  obtain ⟨l, rfl⟩ := b.exists_ofSlots
  have h : (ofSlots l).append s = ofSlots (l ++ [s]) := by
    simp [ofSlots, append]
  rw [h, slots_ofSlots, slots_ofSlots]

@[simp] theorem slots_reserve (b : TQReplayBuffer) (w : ℕ) (t : Option ℕ) (g : GroupId) :
    (b.reserve w t g).slots = b.slots ++ [reservation w t g] :=
  slots_append b _

@[simp] theorem slots_delete (b : TQReplayBuffer) (i : ℕ) :
    (b.delete i).slots = b.slots.eraseIdx i := by
  obtain ⟨l, rfl⟩ := b.exists_ofSlots
  have h : (ofSlots l).delete i = ofSlots (l.eraseIdx i) := by
    simp [ofSlots, delete, List.eraseIdx_map]
  rw [h, slots_ofSlots, slots_ofSlots]

theorem map_groupId_slots (b : TQReplayBuffer) : b.slots.map Slot.groupId = b.groupIds := by
  obtain ⟨l, rfl⟩ := b.exists_ofSlots
  rw [slots_ofSlots]
  rfl

theorem map_kvMeta_slots (b : TQReplayBuffer) : b.slots.map Slot.kvMeta = b.metaList := by
  obtain ⟨l, rfl⟩ := b.exists_ofSlots
  rw [slots_ofSlots]
  rfl

theorem map_targetStep_slots (b : TQReplayBuffer) :
    b.slots.map Slot.targetStep = b.targetStepList := by
  obtain ⟨l, rfl⟩ := b.exists_ofSlots
  rw [slots_ofSlots]
  rfl

theorem map_ready_slots (b : TQReplayBuffer) : b.slots.map Slot.ready = b.readyList := by
  obtain ⟨l, rfl⟩ := b.exists_ofSlots
  rw [slots_ofSlots]
  rfl

theorem getElem?_readyList (b : TQReplayBuffer) (i : ℕ) :
    b.readyList[i]? = b.slots[i]?.map Slot.ready := by
  rw [← b.map_ready_slots, List.getElem?_map]

theorem index_eq_some {b : TQReplayBuffer} {g : GroupId} {i : ℕ} (h : b.index g = some i) :
    ∃ s, b.slots[i]? = some s ∧ s.groupId = g := by
  obtain ⟨hi, hg, _⟩ := List.findIdx?_eq_some_iff_getElem.mp h
  have hlen : i < b.slots.length := by
    rw [← b.map_groupId_slots, List.length_map] at hi
    exact hi
  refine ⟨b.slots[i], List.getElem?_eq_getElem hlen, ?_⟩
  have hmap : (b.slots.map Slot.groupId)[i]? = b.groupIds[i]? := by rw [b.map_groupId_slots]
  rw [List.getElem?_map, List.getElem?_eq_getElem hlen, List.getElem?_eq_getElem hi] at hmap
  simpa [beq_iff_eq, ← Option.some.inj hmap] using hg

theorem index_eq_none {b : TQReplayBuffer} {g : GroupId} :
    b.index g = none ↔ ∀ s ∈ b.slots, s.groupId ≠ g := by
  rw [index, List.idxOf?_eq_none_iff, ← b.map_groupId_slots]
  simp

theorem slots_fill {b : TQReplayBuffer} {i : ℕ} {s : Slot} (h : b.slots[i]? = some s)
    (m : KVBatchMeta) (e : ℕ) : (b.fill i m e).slots =
      b.slots.set i (s.filled m e) := by
  obtain ⟨l, rfl⟩ := b.exists_ofSlots
  rw [slots_ofSlots] at h ⊢
  have hf : (ofSlots l).fill i m e =
      ofSlots (l.set i (s.filled m e)) := by
    refine TQReplayBuffer.ext ?_ ?_ ?_ ?_ ?_ ?_
    · simp [ofSlots, fill, List.map_set, Slot.filled]
    · exact (map_set_of_eq Slot.startWeight h (s.filled m e) rfl).symm
    · simp [ofSlots, fill, List.map_set, Slot.filled]
    · exact (map_set_of_eq Slot.targetStep h (s.filled m e) rfl).symm
    · simp [ofSlots, fill, List.map_set, Slot.filled]
    · exact (map_set_of_eq Slot.groupId h (s.filled m e) rfl).symm
  rw [hf, slots_ofSlots]

theorem slots_retarget {b : TQReplayBuffer} {i : ℕ} {s : Slot} (h : b.slots[i]? = some s)
    (t : ℕ) : (b.retarget i t).slots = b.slots.set i (s.restamped t) := by
  obtain ⟨l, rfl⟩ := b.exists_ofSlots
  rw [slots_ofSlots] at h ⊢
  have hf : (ofSlots l).retarget i t = ofSlots (l.set i (s.restamped t)) := by
    refine TQReplayBuffer.ext ?_ ?_ ?_ ?_ ?_ ?_
    · exact (map_set_of_eq Slot.kvMeta h (s.restamped t) rfl).symm
    · exact (map_set_of_eq Slot.startWeight h (s.restamped t) rfl).symm
    · exact (map_set_of_eq Slot.endWeight h (s.restamped t) rfl).symm
    · simp [ofSlots, retarget, List.map_set, Slot.restamped]
    · exact (map_set_of_eq Slot.ready h (s.restamped t) rfl).symm
    · exact (map_set_of_eq Slot.groupId h (s.restamped t) rfl).symm
  rw [hf, slots_ofSlots]

theorem removeLoop_eq {idxs : List ℕ} (hs : idxs.Pairwise (· > ·)) (acc : List SampleId) :
    ∀ {b : TQReplayBuffer}, (∀ i ∈ idxs, i < b.size) →
      ((b.removeLoop idxs acc).1.slots = idxs.foldl List.eraseIdx b.slots) ∧
      (b.removeLoop idxs acc).2 = some (acc ++ (entriesAt b.slots idxs).flatMap Slot.rowIds) := by
  induction idxs generalizing acc with
  | nil => intro b _; exact ⟨rfl, by simp [removeLoop, entriesAt]⟩
  | cons i idxs ih =>
    intro b hb
    have hi : i < b.slots.length := b.length_slots ▸ hb i (by simp)
    obtain ⟨hlt, hs⟩ := List.pairwise_cons.mp hs
    have hget : b.metaList[i]? = some b.slots[i].kvMeta := by
      rw [← b.map_kvMeta_slots, List.getElem?_map, List.getElem?_eq_getElem hi]
      rfl
    have hsize : ∀ j ∈ idxs, j < (b.delete i).size := by
      intro j hj
      have hji := hlt j hj
      rw [← length_slots, slots_delete, List.length_eraseIdx_of_lt hi]
      omega
    have hrest : entriesAt (b.slots.eraseIdx i) idxs = entriesAt b.slots idxs :=
      List.filterMap_congr fun j hj ↦ List.getElem?_eraseIdx_of_lt (hlt j hj)
    have hcons : entriesAt b.slots (i :: idxs) = b.slots[i] :: entriesAt b.slots idxs := by
      simp [entriesAt, hi]
    obtain ⟨h₁, h₂⟩ := ih hs (acc ++ b.slots[i].rowIds) hsize
    rw [slots_delete] at h₁ h₂
    simp only [removeLoop, hget]
    refine ⟨h₁, ?_⟩
    rw [hcons, List.flatMap_cons, ← List.append_assoc, ← hrest]
    exact h₂

/-- In-range distinct indices are dropped, and the row keys of exactly the
dropped slots are collected. -/
theorem remove_spec {b : TQReplayBuffer} {idxs : List ℕ} (hnd : idxs.Nodup)
    (hi : ∀ i ∈ idxs, i < b.size) :
    (b.remove idxs).1.slots = dropAll b.slots idxs ∧
    ∃ ids, (b.remove idxs).2 = some ids ∧
      ids.Perm ((entriesAt b.slots idxs).flatMap Slot.rowIds) := by
  have hp := List.perm_insertionSort (· ≥ ·) idxs
  have hpair : (idxs.insertionSort (· ≥ ·)).Pairwise (· > ·) := by
    have hge := List.pairwise_insertionSort (· ≥ ·) idxs
    have hne : (idxs.insertionSort (· ≥ ·)).Pairwise (· ≠ ·) := hp.nodup_iff.mpr hnd
    exact (hge.and hne).imp fun ⟨h₁, h₂⟩ ↦ lt_of_le_of_ne h₁ (Ne.symm h₂)
  have hsort : ∀ i ∈ idxs.insertionSort (· ≥ ·), i < b.size := fun i h ↦
    hi i (hp.mem_iff.mp h)
  have hperm : ((entriesAt b.slots (idxs.insertionSort (· ≥ ·))).flatMap Slot.rowIds).Perm
      ((entriesAt b.slots idxs).flatMap Slot.rowIds) := (hp.filterMap _).flatMap_right _
  obtain ⟨h₁, h₂⟩ := removeLoop_eq hpair [] hsort
  unfold remove
  cases hl : idxs.insertionSort (· ≥ ·) with
  | nil =>
    rw [hl] at hperm
    refine ⟨by rw [dropAll, hl]; rfl, [], rfl, ?_⟩
    simpa [entriesAt] using hperm
  | cons top rest =>
    have htop : ¬ top ≥ b.size := not_le.mpr (hsort top (by simp [hl]))
    rw [hl] at h₁ h₂ hperm
    simp only [htop, if_false]
    refine ⟨by rw [h₁, dropAll, hl], _, h₂, ?_⟩
    simpa using hperm

theorem remove_eq_none {b : TQReplayBuffer} {idxs : List ℕ} (hnd : idxs.Nodup)
    (h : (b.remove idxs).2 = none) : (b.remove idxs).1 = b := by
  by_cases hi : ∀ i ∈ idxs, i < b.size
  · obtain ⟨_, ids, hids, _⟩ := remove_spec hnd hi
    simp [hids] at h
  · unfold remove at h ⊢
    cases hl : idxs.insertionSort (· ≥ ·) with
    | nil => rfl
    | cons top rest =>
      have htop : top ≥ b.size := by
        push Not at hi
        obtain ⟨i, hmem, hle⟩ := hi
        have hmem' : i ∈ top :: rest := hl ▸ (List.perm_insertionSort _ _).mem_iff.mpr hmem
        have hge := List.pairwise_insertionSort (· ≥ ·) idxs
        rw [hl] at hge
        rcases List.mem_cons.mp hmem' with rfl | hr
        · exact hle
        · exact hle.trans (List.rel_of_pairwise_cons hge hr)
      simp [htop]

theorem lt_size_of_remove {b : TQReplayBuffer} {idxs : List ℕ} {ids : List SampleId}
    (h : (b.remove idxs).2 = some ids) : ∀ i ∈ idxs, i < b.size := by
  intro i hi
  have hmem := (List.perm_insertionSort (· ≥ ·) idxs).mem_iff.mpr hi
  unfold remove at h
  cases hl : idxs.insertionSort (· ≥ ·) with
  | nil => simp [hl] at hmem
  | cons top rest =>
    simp only [hl] at h
    split_ifs at h with htop
    have hge := List.pairwise_insertionSort (· ≥ ·) idxs
    rw [hl] at hge hmem
    rcases List.mem_cons.mp hmem with rfl | hr
    · omega
    · exact (List.rel_of_pairwise_cons hge hr).trans_lt (not_le.mp htop)

theorem removeGroup_eq_none {b : TQReplayBuffer} {g : GroupId} :
    b.removeGroup g = none ↔ ∀ s ∈ b.slots, s.groupId ≠ g := by
  rw [removeGroup, Option.map_eq_none_iff, index_eq_none]

theorem removeGroup_eq_some {b b' : TQReplayBuffer} {g : GroupId}
    (h : b.removeGroup g = some b') :
    ∃ i s, b.slots[i]? = some s ∧ s.groupId = g ∧ b'.slots = b.slots.eraseIdx i := by
  obtain ⟨i, hi, rfl⟩ := Option.map_eq_some_iff.mp h
  obtain ⟨s, hs, hg⟩ := index_eq_some hi
  have hlt : i < b.size := b.length_slots ▸ (List.getElem?_eq_some_iff.mp hs).1
  obtain ⟨h₁, _⟩ := remove_spec (b := b) (List.nodup_singleton i) (by simpa using hlt)
  exact ⟨i, s, hs, hg, by rw [h₁]; rfl⟩

theorem countForTargetStep_eq (b : TQReplayBuffer) (t : ℕ) :
    b.countForTargetStep t = b.slots.countP fun s ↦ s.targetStep = some t := by
  rw [countForTargetStep, ← b.map_targetStep_slots, List.count, List.countP_map]
  exact List.countP_congr fun s _ ↦ by simp

def Lends (toTargetStep : ℕ) (s : Slot) (t : ℕ) : Prop :=
  s.ready = true ∧ s.targetStep = some t ∧ toTargetStep < t

/-- What the promotion loop has found once it has passed the first slots. -/
def LenderOf (toTargetStep : ℕ) (l : List Slot) (n : ℕ) : Option (ℕ × ℕ) → Prop
  | none => ∀ i s t, i < n → l[i]? = some s → ¬ Lends toTargetStep s t
  | some (j, lenderTarget) => (∃ s, l[j]? = some s ∧ Lends toTargetStep s lenderTarget) ∧
      ∀ i s t, i < n → l[i]? = some s → Lends toTargetStep s t → t ≤ lenderTarget

theorem promoteScan_lenderOf {b : TQReplayBuffer} {step n : ℕ} {s : Slot} {r : Option (ℕ × ℕ)}
    (hn : b.slots[n]? = some s) (hr : LenderOf step b.slots n r) :
    LenderOf step b.slots (n + 1) (b.promoteScan step r (s.targetStep, n)) := by
  have hready : b.readyList[n]? = some s.ready := by rw [getElem?_readyList, hn]; rfl
  have hlast : ∀ i x t, i < n + 1 → b.slots[i]? = some x → Lends step x t →
      (i < n ∨ x = s) := by
    intro i x t hi hx _
    rcases Nat.lt_succ_iff_lt_or_eq.mp hi with h | rfl
    · exact .inl h
    · exact .inr (by simpa [hn] using hx.symm)
  have hskip : (∀ t, ¬ Lends step s t) → LenderOf step b.slots (n + 1) r := by
    intro hs
    cases r with
    | none =>
      intro i x t hi hx hlend
      rcases hlast i x t hi hx hlend with h | rfl
      · exact hr i x t h hx hlend
      · exact hs t hlend
    | some p =>
      refine ⟨hr.1, fun i x t hi hx hlend ↦ ?_⟩
      rcases hlast i x t hi hx hlend with h | rfl
      · exact hr.2 i x t h hx hlend
      · exact absurd hlend (hs t)
  unfold promoteScan
  cases htarget : s.targetStep with
  | none => exact hskip fun t h ↦ by simp [Lends, htarget] at h
  | some target =>
    simp only [hready]
    split_ifs with hc
    · refine hskip fun t h ↦ ?_
      obtain ⟨h₁, h₂, h₃⟩ := h
      obtain rfl : target = t := by simpa [htarget] using h₂
      rcases hc with hc | hc
      · omega
      · exact hc (by rw [h₁])
    · obtain ⟨hc₁, hc₂⟩ := not_or.mp hc
      have hlend : Lends step s target := ⟨by simpa using hc₂, htarget, by omega⟩
      have hbound : ∀ t, Lends step s t → t ≤ target := fun t h ↦ by
        simp [Lends, htarget] at h
        omega
      cases r with
      | none =>
        refine ⟨⟨s, hn, hlend⟩, fun i x t hi hx h ↦ ?_⟩
        rcases hlast i x t hi hx h with h' | rfl
        · exact absurd h (hr i x t h' hx)
        · exact hbound t h
      | some p =>
        obtain ⟨j, best⟩ := p
        obtain ⟨hj, hmax⟩ := hr
        simp only
        split_ifs with hgt
        · refine ⟨⟨s, hn, hlend⟩, fun i x t hi hx h ↦ ?_⟩
          rcases hlast i x t hi hx h with h' | rfl
          · exact (hmax i x t h' hx h).trans hgt.le
          · exact hbound t h
        · refine ⟨hj, fun i x t hi hx h ↦ ?_⟩
          rcases hlast i x t hi hx h with h' | rfl
          · exact hmax i x t h' hx h
          · exact (hbound t h).trans (not_lt.mp hgt)

theorem promoteLender_induct (b : TQReplayBuffer) (step : ℕ) {P : ℕ → Option (ℕ × ℕ) → Prop}
    (hstart : P 0 none)
    (hscan : ∀ n s r, b.slots[n]? = some s → P n r →
      P (n + 1) (b.promoteScan step r (s.targetStep, n))) :
    P b.slots.length (b.promoteLender step) := by
  have hmap := b.map_targetStep_slots
  have h : ∀ n, n ≤ b.slots.length →
      P n ((b.targetStepList.zipIdx.take n).foldl (b.promoteScan step) none) := by
    intro n hn
    induction n with
    | zero => exact hstart
    | succ n ih =>
      have hlt : n < b.slots.length := by omega
      have hget : b.targetStepList.zipIdx[n]? = some (b.slots[n].targetStep, n) := by
        rw [List.getElem?_zipIdx, ← hmap, List.getElem?_map, List.getElem?_eq_getElem hlt]
        simp
      rw [List.take_add_one, hget, List.foldl_append]
      exact hscan n b.slots[n] _ (List.getElem?_eq_getElem hlt) (ih (by omega))
  have hlen : b.targetStepList.zipIdx.length = b.slots.length := by
    rw [List.length_zipIdx, ← hmap, List.length_map]
  have hall := h _ le_rfl
  rwa [← hlen, List.take_length, hlen] at hall

theorem promoteLender_lenderOf (b : TQReplayBuffer) (step : ℕ) :
    LenderOf step b.slots b.slots.length (b.promoteLender step) := by
  refine b.promoteLender_induct step ?_ fun n s r hn hr ↦ promoteScan_lenderOf hn hr
  intro i s t hi
  omega

theorem promoteReadyGroup_eq_some {b : TQReplayBuffer} {step lent : ℕ}
    (h : (b.promoteReadyGroup step).2 = some lent) :
    ∃ i s, b.slots[i]? = some s ∧ Lends step s lent ∧
      (∀ s' ∈ b.slots, ∀ t, Lends step s' t → t ≤ lent) ∧
      (b.promoteReadyGroup step).1.slots = b.slots.set i (s.restamped step) := by
  have hl := b.promoteLender_lenderOf step
  simp only [promoteReadyGroup] at h ⊢
  cases hp : b.promoteLender step with
  | none => simp [hp] at h
  | some p =>
    obtain ⟨i, best⟩ := p
    simp only [hp, Option.some.injEq] at h hl ⊢
    subst h
    obtain ⟨⟨s, hs, hlend⟩, hmax⟩ := hl
    refine ⟨i, s, hs, hlend, fun s' hs' t ht ↦ ?_, slots_retarget hs step⟩
    obtain ⟨j, hj⟩ := List.mem_iff_getElem?.mp hs'
    exact hmax j s' t (List.getElem?_eq_some_iff.mp hj).1 hj ht

theorem promoteReadyGroup_eq_none {b : TQReplayBuffer} {step : ℕ}
    (h : (b.promoteReadyGroup step).2 = none) :
    (b.promoteReadyGroup step).1 = b ∧ ∀ s ∈ b.slots, ∀ t, ¬ Lends step s t := by
  have hl := b.promoteLender_lenderOf step
  simp only [promoteReadyGroup] at h ⊢
  cases hp : b.promoteLender step with
  | some p => simp [hp] at h
  | none =>
    rw [hp] at hl
    refine ⟨rfl, fun s hs t ht ↦ ?_⟩
    obtain ⟨j, hj⟩ := List.mem_iff_getElem?.mp hs
    exact hl j s t (List.getElem?_eq_some_iff.mp hj).1 hj ht

end TQReplayBuffer

end NemoRL.AsyncUtils
