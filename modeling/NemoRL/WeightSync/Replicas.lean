import Mathlib
import NemoRL.WeightSync.Plan

namespace NemoRL.WeightSync

open Foundations.Boxes

def regionNumel (region : Box) : ℕ := (sizes region).prod

def activeReplicaSignature (groups : List DestinationGroup) : List (ℕ × List ℕ) :=
  (groups.filter fun g ↦ 1 < g.members.length ∧ 0 < regionNumel g.region).map
    fun g ↦ (g.representative, g.members)

/-- The representative first, then the others in their order. -/
def orderedReplicaMembers (representative : ℕ) (members : List ℕ) : List ℕ :=
  representative :: members.filter (· ≠ representative)

/-- What a rank passes to the communicator split, and whether it is in a group. -/
structure ReplicaSplit where
  color : ℕ
  key : ℕ
  active : Bool
  deriving DecidableEq

def replicaSplit (signature : List (ℕ × List ℕ)) (rank : ℕ) : ReplicaSplit :=
  match signature.findIdx? fun s ↦ rank ∈ s.2 with
  | some color =>
    let group := signature.getD color (0, [])
    ⟨color, (orderedReplicaMembers group.1 group.2).idxOf rank, true⟩
  | none => ⟨signature.length, rank, false⟩

def splitCommunicator (world : List ℕ) (signature : List (ℕ × List ℕ)) (rank : ℕ) : List ℕ :=
  (world.filter fun r ↦ (replicaSplit signature r).color = (replicaSplit signature rank).color)
    |>.insertionSort fun a b ↦ (replicaSplit signature a).key ≤ (replicaSplit signature b).key

def replicaSubcommunicator (world : List ℕ) (groups : List DestinationGroup) (rank : ℕ) :
    Option (List ℕ) :=
  let signature := activeReplicaSignature groups
  if signature = [] then none
  else if (replicaSplit signature rank).active then some (splitCommunicator world signature rank)
  else none

theorem mem_orderedReplicaMembers {representative : ℕ} {members : List ℕ}
    (h : representative ∈ members) {r : ℕ} :
    r ∈ orderedReplicaMembers representative members ↔ r ∈ members := by
  simp only [orderedReplicaMembers, List.mem_cons, List.mem_filter, decide_eq_true_eq]
  constructor
  · rintro (rfl | h')
    · exact h
    · exact h'.1
  · intro hr
    by_cases heq : r = representative
    · exact .inl heq
    · exact .inr ⟨hr, heq⟩

theorem nodup_orderedReplicaMembers (representative : ℕ) {members : List ℕ}
    (h : members.Nodup) : (orderedReplicaMembers representative members).Nodup :=
  List.nodup_cons.mpr ⟨by simp, h.filter _⟩

theorem length_orderedReplicaMembers {representative : ℕ} {members : List ℕ}
    (hnd : members.Nodup) (h : representative ∈ members) :
    (orderedReplicaMembers representative members).length = members.length := by
  refine List.Perm.length_eq ((List.perm_ext_iff_of_nodup ?_ hnd).mpr fun r ↦ ?_)
  · exact nodup_orderedReplicaMembers representative hnd
  · exact mem_orderedReplicaMembers h

theorem pairwise_idxOf {l : List ℕ} (h : l.Nodup) :
    l.Pairwise fun a b ↦ l.idxOf a ≤ l.idxOf b := by
  rw [List.pairwise_iff_getElem]
  intro i j hi hj hij
  rw [h.idxOf_getElem, h.idxOf_getElem]
  exact hij.le

section Groups

variable {mesh : Mesh} {placements : List Placement} {regions : ℕ → Box}

/-- A group that takes part in the collective: it has replicas and elements. -/
def DestinationGroup.Active (g : DestinationGroup) : Prop :=
  1 < g.members.length ∧ 0 < regionNumel g.region

theorem mem_signature {groups : List DestinationGroup} {s : ℕ × List ℕ} :
    s ∈ activeReplicaSignature groups ↔
      ∃ g ∈ groups, g.Active ∧ (g.representative, g.members) = s := by
  simp only [activeReplicaSignature, List.mem_map, List.mem_filter, decide_eq_true_eq,
    DestinationGroup.Active, and_assoc]

theorem nodup_members {g : DestinationGroup} (hg : g ∈ destinationGroups mesh placements regions) :
    g.members.Nodup := by
  rw [(destinationGroup_spec hg).1]
  exact mesh.nodup_ranks.filter _

theorem nodup_signature :
    (activeReplicaSignature (destinationGroups mesh placements regions)).Nodup := by
  rw [activeReplicaSignature, List.Nodup, List.pairwise_map]
  refine (pairwise_destinationGroups.filter _).imp_of_mem fun {a b} ha hb hne heq ↦ hne ?_
  have ha' := List.mem_of_mem_filter ha
  have hb' := List.mem_of_mem_filter hb
  obtain ⟨hrep, -⟩ := Prod.mk.inj heq
  rw [group_unique ha' hb' (destinationGroup_spec ha').2 (hrep ▸ (destinationGroup_spec hb').2)]

def groupColor (groups : List DestinationGroup) (g : DestinationGroup) : ℕ :=
  (activeReplicaSignature groups).idxOf (g.representative, g.members)

theorem replicaSplit_of_mem {g : DestinationGroup}
    (hg : g ∈ destinationGroups mesh placements regions) (hactive : g.Active) {r : ℕ}
    (hr : r ∈ g.members) :
    replicaSplit (activeReplicaSignature (destinationGroups mesh placements regions)) r =
      ⟨groupColor (destinationGroups mesh placements regions) g,
        (orderedReplicaMembers g.representative g.members).idxOf r, true⟩ := by
  have hmem : (g.representative, g.members) ∈
      activeReplicaSignature (destinationGroups mesh placements regions) :=
    mem_signature.mpr ⟨g, hg, hactive, rfl⟩
  unfold replicaSplit
  cases hfind : (activeReplicaSignature (destinationGroups mesh placements regions)).findIdx?
      fun s ↦ r ∈ s.2 with
  | none =>
    have hnone := List.findIdx?_eq_none_iff.mp hfind _ hmem
    simp [hr] at hnone
  | some color =>
    obtain ⟨hlt, hin, _⟩ := List.findIdx?_eq_some_iff_getElem.mp hfind
    rw [decide_eq_true_eq] at hin
    obtain ⟨g', hg', _, heq⟩ := mem_signature.mp (List.getElem_mem hlt)
    rw [← heq] at hin
    obtain rfl := group_unique hg hg' hr hin
    have hget : (activeReplicaSignature (destinationGroups mesh placements regions)).getD color
        (0, []) = (g.representative, g.members) := by
      rw [List.getD_eq_getElem?_getD, List.getElem?_eq_getElem hlt, Option.getD_some, heq]
    have hcolor : groupColor (destinationGroups mesh placements regions) g = color := by
      rw [groupColor, heq, nodup_signature.idxOf_getElem]
    simp only [hget, hcolor]

theorem mem_of_color {g : DestinationGroup} (hg : g ∈ destinationGroups mesh placements regions)
    (hactive : g.Active) {r : ℕ}
    (hcolor : (replicaSplit (activeReplicaSignature
      (destinationGroups mesh placements regions)) r).color =
        groupColor (destinationGroups mesh placements regions) g) : r ∈ g.members := by
  have hmem : (g.representative, g.members) ∈
      activeReplicaSignature (destinationGroups mesh placements regions) :=
    mem_signature.mpr ⟨g, hg, hactive, rfl⟩
  have hlt := List.idxOf_lt_length_of_mem hmem
  unfold replicaSplit at hcolor
  cases hfind : (activeReplicaSignature (destinationGroups mesh placements regions)).findIdx?
      fun s ↦ r ∈ s.2 with
  | none =>
    rw [hfind] at hcolor
    simp only [groupColor] at hcolor
    omega
  | some color =>
    rw [hfind] at hcolor
    simp only [groupColor] at hcolor
    obtain ⟨hlt', hin, _⟩ := List.findIdx?_eq_some_iff_getElem.mp hfind
    rw [decide_eq_true_eq] at hin
    have hget : (activeReplicaSignature (destinationGroups mesh placements regions))[color] =
        (g.representative, g.members) := by
      simp only [hcolor, List.getElem_idxOf]
    rwa [hget] at hin

/-- The members of an active group are the communicator of each of them, the
representative first. -/
theorem replicaSubcommunicator_of_mem {world : List ℕ} (hworld : world.Nodup)
    (hranks : ∀ r ∈ mesh.ranks, r ∈ world) {g : DestinationGroup}
    (hg : g ∈ destinationGroups mesh placements regions) (hactive : g.Active) {r : ℕ}
    (hr : r ∈ g.members) :
    replicaSubcommunicator world (destinationGroups mesh placements regions) r =
      some (orderedReplicaMembers g.representative g.members) := by
  have hmem : (g.representative, g.members) ∈
      activeReplicaSignature (destinationGroups mesh placements regions) :=
    mem_signature.mpr ⟨g, hg, hactive, rfl⟩
  have hnd := nodup_orderedReplicaMembers g.representative (nodup_members hg)
  have hrep := (destinationGroup_spec hg).2
  have hkey : ∀ a ∈ g.members, (replicaSplit (activeReplicaSignature
      (destinationGroups mesh placements regions)) a).key =
        (orderedReplicaMembers g.representative g.members).idxOf a := fun a ha ↦ by
    rw [replicaSplit_of_mem hg hactive ha]
  have hcolor : (replicaSplit (activeReplicaSignature
      (destinationGroups mesh placements regions)) r).color =
        groupColor (destinationGroups mesh placements regions) g := by
    rw [replicaSplit_of_mem hg hactive hr]
  have hfilter : (world.filter fun r' ↦ (replicaSplit (activeReplicaSignature
      (destinationGroups mesh placements regions)) r').color = (replicaSplit
        (activeReplicaSignature (destinationGroups mesh placements regions)) r).color).Perm
      (orderedReplicaMembers g.representative g.members) := by
    refine (List.perm_ext_iff_of_nodup (hworld.filter _) hnd).mpr fun a ↦ ?_
    rw [mem_orderedReplicaMembers hrep, List.mem_filter, decide_eq_true_eq, hcolor]
    constructor
    · exact fun h ↦ mem_of_color hg hactive h.2
    · intro ha
      refine ⟨hranks a ((mem_members hg).mp ha).1, ?_⟩
      rw [replicaSplit_of_mem hg hactive ha]
  have hsort : splitCommunicator world (activeReplicaSignature
      (destinationGroups mesh placements regions)) r =
        orderedReplicaMembers g.representative g.members := by
    refine List.Perm.eq_of_pairwise ?_ (List.pairwise_insertionSort _ _) ?_
      ((List.perm_insertionSort _ _).trans hfilter)
    · intro a b ha hb hab hba
      have ha' := (mem_orderedReplicaMembers hrep).mp
        (((List.perm_insertionSort _ _).trans hfilter).mem_iff.mp ha)
      have hb' := (mem_orderedReplicaMembers hrep).mp hb
      rw [hkey a ha', hkey b hb'] at hab hba
      exact (List.idxOf_inj ((mem_orderedReplicaMembers hrep).mpr ha')).mp (le_antisymm hab hba)
    · refine (pairwise_idxOf hnd).imp_of_mem fun {a b} ha hb h ↦ ?_
      rw [hkey a ((mem_orderedReplicaMembers hrep).mp ha),
        hkey b ((mem_orderedReplicaMembers hrep).mp hb)]
      exact h
  unfold replicaSubcommunicator
  simp only
  rw [if_neg (List.ne_nil_of_mem hmem), replicaSplit_of_mem hg hactive hr, if_pos rfl, hsort]

theorem replicaSubcommunicator_of_not_mem {world : List ℕ} {r : ℕ}
    (h : ∀ g ∈ destinationGroups mesh placements regions, g.Active → r ∉ g.members) :
    replicaSubcommunicator world (destinationGroups mesh placements regions) r = none := by
  have hnone : (activeReplicaSignature (destinationGroups mesh placements regions)).findIdx?
      (fun s ↦ r ∈ s.2) = none := by
    rw [List.findIdx?_eq_none_iff]
    intro s hs
    obtain ⟨g, hg, hactive, rfl⟩ := mem_signature.mp hs
    simpa using h g hg hactive
  simp [replicaSubcommunicator, replicaSplit, hnone]

end Groups

end NemoRL.WeightSync
