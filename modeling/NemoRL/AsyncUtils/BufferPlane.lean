import Mathlib
import NemoRL.AsyncUtils.BufferCheckpoint
import NemoRL.Foundations.Transition

namespace NemoRL.AsyncUtils.BufferPlane

open DataPlane Experience Foundations Foundations.Positions Foundations.Transition

/-- The buffer with every coroutine of its clients that is suspended, and the
groups that have left it but not yet the DataPlane. -/
structure State (ρ : Type) where
  plane : Plane ρ
  commits : List (Commit ρ)
  /-- Groups handed out by `select` that the trainer has not cleared. -/
  handedOut : List Slot
  /-- Removals suspended at `clear_samples`, with the rows they clear. -/
  evictions : List (List SampleId)
  /-- Restores with the groups still to put, the first being put now. -/
  restores : List (List (SavedGroup ρ))
  /-- State dicts with the slots still to fetch and the groups fetched. -/
  saves : List (List Slot × List (SavedGroup ρ))
  /-- Rows whose removal or restore raised. -/
  abandoned : List SampleId

inductive Event (ρ : Type)
  | reserve (groupId : GroupId) (weightVersion : ℕ) (targetStep : Option ℕ)
  | commit (groupId : GroupId) (record : PromptGroupRecord ρ) (startWeight endWeight : ℕ)
  | writeRow (i j : ℕ)
  | resumeCommit (i : ℕ) (reply : Reply)
  | remove (idxs : List ℕ) (removeInDp : Bool)
  | removeGroup (groupId : GroupId) (removeInDp : Bool)
  | evicted (i : ℕ) (reply : Reply)
  | trainerClear (i : ℕ) (reply : Reply)
  | promote (toTargetStep : ℕ)
  | stateDict
  | fetched (i : ℕ) (reply : Reply)
  | load (state : Envelope ρ) (maxGroups : ℕ) (partitionId : String) (groupSize : ℕ)
  | restoreRow (i j : ℕ)
  | restored (i : ℕ) (reply : Reply)

variable {ρ : Type} (cfg : BufferConfig)

def remove (s : State ρ) (idxs : List ℕ) (removeInDp : Bool) : State ρ :=
  let dropped := entriesAt s.plane.buffer.slots idxs
  match s.plane.buffer.remove idxs with
  | (b, none) => { s with plane.buffer := b }
  | (b, some ids) =>
    if idxs = [] then s
    else if removeInDp then { s with plane.buffer := b, evictions := s.evictions ++ [ids] }
    else { s with plane.buffer := b, handedOut := s.handedOut ++ dropped.filter Slot.ready }

/-- The state after the `i`-th suspended commit has run to its next suspension
or to its end. -/
def afterCommit (s : State ρ) (i : ℕ) :
    Plane ρ × Progress (Commit ρ) KVBatchMeta → State ρ
  | (p, .suspended c) => { s with plane := p, commits := s.commits.set i c }
  | (p, _) => { s with plane := p, commits := s.commits.eraseIdx i }

def step (s : State ρ) : Event ρ → Option (State ρ)
  | .reserve g w t => some { s with plane.buffer := s.plane.buffer.reserve w t g }
  | .commit g record v w =>
    match Commit.start cfg s.plane g record v w with
    | .suspended c => some { s with commits := s.commits ++ [c] }
    | _ => some s
  | .writeRow i j => do
    let c ← s.commits[i]?
    let r ← c.rows[j]?
    match c.stage with
    | .put => some { s with plane.dp := s.plane.dp.write r.1 r.2 }
    | _ => none
  | .resumeCommit i reply => do
    let c ← s.commits[i]?
    some (afterCommit s i (Commit.resume cfg s.plane c reply))
  | .remove idxs removeInDp => some (remove s idxs removeInDp)
  | .removeGroup g removeInDp =>
    match s.plane.buffer.index g with
    | none => some s
    | some i => some (remove s [i] removeInDp)
  | .evicted i reply => do
    let ids ← s.evictions[i]?
    match reply with
    | .ok => some { s with
        plane.dp := s.plane.dp.clear ids
        evictions := s.evictions.eraseIdx i }
    | .raise _ => some { s with
        evictions := s.evictions.eraseIdx i
        abandoned := s.abandoned ++ ids }
  | .trainerClear i reply => do
    let x ← s.handedOut[i]?
    match reply with
    | .ok => some { s with
        plane.dp := s.plane.dp.clear x.rowIds
        handedOut := s.handedOut.eraseIdx i }
    | .raise _ => some s
  | .promote t => some { s with plane.buffer := (s.plane.buffer.promoteReadyGroup t).1 }
  | .stateDict => some { s with saves := s.saves ++ [(s.plane.buffer.snapshot, [])] }
  | .fetched i reply =>
    match s.saves[i]?, reply with
    | some (x :: rest, groups), .ok =>
      match TQReplayBuffer.fetchGroup s.plane.dp x with
      | some g => some { s with saves := s.saves.set i (rest, groups ++ [g]) }
      | none => some { s with saves := s.saves.eraseIdx i }
    | some _, _ => some { s with saves := s.saves.eraseIdx i }
    | none, _ => none
  | .load env maxGroups partitionId groupSize =>
    match TQReplayBuffer.preflight env maxGroups partitionId groupSize with
    | .ok (g :: gs) => some { s with restores := s.restores ++ [g :: gs] }
    | _ => some s
  | .restoreRow i j => do
    let queue ← s.restores[i]?
    let g ← queue.head?
    let r ← g.rows[j]?
    some { s with plane.dp := s.plane.dp.write r.1 r.2 }
  | .restored i reply =>
    match s.restores[i]?, reply with
    | some (g :: rest), .ok => some { s with
        plane := TQReplayBuffer.restoreGroup s.plane g
        restores := if rest = [] then s.restores.eraseIdx i else s.restores.set i rest }
    | some (g :: _), .raise _ => some { s with
        restores := s.restores.eraseIdx i
        abandoned := s.abandoned ++ g.kvMeta.sampleIds }
    | _, _ => none

def init : State ρ := ⟨⟨.empty, .empty⟩, [], [], [], [], [], []⟩

def Initial (s : State ρ) : Prop := s = init

theorem initial_init : Initial (init : State ρ) := rfl

def holders (s : State ρ) : List Slot := s.plane.buffer.slots ++ s.handedOut

def names (s : State ρ) : List GroupId :=
  (holders s).map Slot.groupId ++ s.restores.flatten.map SavedGroup.groupId

/-- Rows of groups that have left the buffer and are still to be cleared, or
whose clear or restore raised. -/
def loose (s : State ρ) : List SampleId := s.evictions.flatten ++ s.abandoned

def heads (s : State ρ) : List (SavedGroup ρ) := s.restores.filterMap List.head?

def ownedIds (s : State ρ) : List SampleId :=
  (holders s).flatMap Slot.rowIds ++ (s.commits.flatMap Commit.sampleIds ++
    (loose s ++ (heads s).flatMap fun g ↦ g.kvMeta.sampleIds))

def Fresh (s : State ρ) (g : GroupId) : Prop :=
  g ∉ names s ∧ g ∉ s.commits.map Commit.groupId ∧ g ∉ (loose s).map SampleId.group

def DescribesGroup (m : KVBatchMeta) (startWeight : ℕ) (g : GroupId) : Prop :=
  (∀ k ∈ m.sampleIds, k.group = g) ∧
    m.tags = some (List.replicate m.sampleIds.length ⟨startWeight⟩)

def WellSaved (g : SavedGroup ρ) : Prop :=
  DescribesGroup g.kvMeta g.startWeight g.groupId ∧
    g.fieldsData.length = g.kvMeta.sampleIds.length

instance (m : KVBatchMeta) (w : ℕ) (g : GroupId) : Decidable (DescribesGroup m w g) :=
  inferInstanceAs (Decidable (_ ∧ _))

instance (g : SavedGroup ρ) : Decidable (WellSaved g) := inferInstanceAs (Decidable (_ ∧ _))

instance (s : State ρ) (g : GroupId) : Decidable (Fresh s g) := inferInstanceAs (Decidable (_ ∧ _))

/-- What the callers keep to: fresh group ids, one commit for a reservation
with the weight it was reserved at, distinct indices, restores of state dicts
whose groups are not in the process, and a rollback clear that does not raise. -/
def Allowed (s : State ρ) : Event ρ → Prop
  | .reserve g _ _ => Fresh s g
  | .commit g _ v _ => g ∈ s.plane.buffer.groupIds → g ∉ s.commits.map Commit.groupId ∧
      ∀ x ∈ s.plane.buffer.slots, x.groupId = g → x.ready = false ∧ x.startWeight = v
  | .resumeCommit i (.raise _) =>
    match s.commits[i]? with
    | some ⟨_, _, _, _, .clear _⟩ => False
    | _ => True
  | .remove idxs _ => idxs.Nodup
  | .load env maxGroups partitionId groupSize =>
    match TQReplayBuffer.preflight env maxGroups partitionId groupSize with
    | .ok gs => (gs.map SavedGroup.groupId).Nodup ∧
        ∀ g ∈ gs, WellSaved g ∧ Fresh s g.groupId
    | .error _ => True
  | _ => True

instance (s : State ρ) : (e : Event ρ) → Decidable (Allowed s e)
  | .reserve g _ _ => inferInstanceAs (Decidable (Fresh s g))
  | .commit _ _ _ _ => inferInstanceAs (Decidable (_ → _))
  | .resumeCommit i (.raise _) =>
    match h : s.commits[i]? with
    | some ⟨_, _, _, _, .clear _⟩ => .isFalse fun ho ↦ by simp [Allowed, h] at ho
    | some ⟨_, _, _, _, .put⟩ => .isTrue (by simp [Allowed, h])
    | some ⟨_, _, _, _, .enrich⟩ => .isTrue (by simp [Allowed, h])
    | none => .isTrue (by simp [Allowed, h])
  | .resumeCommit _ .ok => .isTrue trivial
  | .remove idxs _ => inferInstanceAs (Decidable idxs.Nodup)
  | .load env maxGroups partitionId groupSize =>
    match h : TQReplayBuffer.preflight env maxGroups partitionId groupSize with
    | .ok gs => decidable_of_iff ((gs.map SavedGroup.groupId).Nodup ∧
        ∀ g ∈ gs, WellSaved g ∧ Fresh s g.groupId) (by simp [Allowed, h])
    | .error _ => .isTrue (by simp [Allowed, h])
  | .writeRow _ _ => .isTrue trivial
  | .removeGroup _ _ => .isTrue trivial
  | .evicted _ _ => .isTrue trivial
  | .trainerClear _ _ => .isTrue trivial
  | .promote _ => .isTrue trivial
  | .stateDict => .isTrue trivial
  | .fetched _ _ => .isTrue trivial
  | .restoreRow _ _ => .isTrue trivial
  | .restored _ _ => .isTrue trivial

end NemoRL.AsyncUtils.BufferPlane
