import Mathlib
import NemoRL.WeightSync.Layout

namespace NemoRL.WeightSync

open Foundations.Boxes

def firstKeys {α β : Type*} [DecidableEq β] (f : α → β) (l : List α) : List β :=
  l.foldl (fun keys a ↦ if f a ∈ keys then keys else keys ++ [f a]) []

/-- The ranks of each region, regions and ranks in the order of the mesh. -/
def groupRanks (regions : ℕ → Box) (ranks : List ℕ) : List (Box × List ℕ) :=
  (firstKeys regions ranks).map fun region ↦ (region, ranks.filter (regions · = region))

/-- The ranks that hold one destination region, and the one that receives it. -/
structure DestinationGroup where
  region : Box
  members : List ℕ
  representative : ℕ
  deriving DecidableEq

structure Transfer where
  source : ℕ
  receiver : ℕ
  overlap : Box
  deriving DecidableEq, Repr

/-- A rank has coordinate zero in every dimension that replicates. -/
def FirstReplica (mesh : Mesh) (placements : List Placement) (rank : ℕ) : Prop :=
  ∀ x ∈ placements.zip (mesh.coordinate rank), x.1 = .replicate → x.2 = 0

instance (mesh : Mesh) (placements : List Placement) (rank : ℕ) :
    Decidable (FirstReplica mesh placements rank) :=
  inferInstanceAs (Decidable (∀ x ∈ _, _ → _))

def destinationGroups (mesh : Mesh) (placements : List Placement) (regions : ℕ → Box) :
    List DestinationGroup :=
  (groupRanks regions mesh.ranks).map fun g ↦
    let preferred := g.2.filter (FirstReplica mesh placements)
    ⟨g.1, g.2, (if preferred = [] then g.2 else preferred).headD 0⟩

def Transfer.key (t : Transfer) : List ℕ :=
  t.source :: t.receiver :: t.overlap.flatMap fun iv ↦ [iv.1, iv.2]

def sortTransfers (ts : List Transfer) : List Transfer :=
  ts.insertionSort fun s t ↦ s.key ≤ t.key

def groupTransfers (sourceGroups : List (Box × List ℕ)) (g : DestinationGroup) : List Transfer :=
  sourceGroups.filterMap fun s ↦ (intersect s.1 g.region).map fun overlap ↦
    ⟨if g.representative ∈ s.2 then g.representative else s.2.headD 0, g.representative, overlap⟩

def buildExactPlan (srcRegions : ℕ → Box) (srcRanks : List ℕ) (groups : List DestinationGroup) :
    List Transfer :=
  sortTransfers (groups.flatMap (groupTransfers (groupRanks srcRegions srcRanks)))

structure Plan where
  srcRegions : ℕ → Box
  dstRegions : ℕ → Box
  groups : List DestinationGroup
  transfers : List Transfer

def planGeometry (src : Mesh) (srcPlacements : List Placement) (dst : Mesh)
    (dstPlacements : List Placement) (globalShape : List ℕ) : Except ReshardError Plan := do
  validateLayout src srcPlacements globalShape.length "src"
  validateLayout dst dstPlacements globalShape.length "dst"
  let srcRegions := rankRegion src srcPlacements globalShape
  let dstRegions := rankRegion dst dstPlacements globalShape
  let groups := destinationGroups dst dstPlacements dstRegions
  return ⟨srcRegions, dstRegions, groups, buildExactPlan srcRegions src.ranks groups⟩

section Keys

variable {α β : Type*} [DecidableEq β]

theorem firstKeys_spec (f : α → β) (l : List α) :
    (firstKeys f l).Nodup ∧ ∀ b, b ∈ firstKeys f l ↔ ∃ a ∈ l, f a = b := by
  have hrun : ∀ (l : List α) (keys : List β), keys.Nodup →
      (l.foldl (fun keys a ↦ if f a ∈ keys then keys else keys ++ [f a]) keys).Nodup ∧
      ∀ b, b ∈ l.foldl (fun keys a ↦ if f a ∈ keys then keys else keys ++ [f a]) keys ↔
        b ∈ keys ∨ ∃ a ∈ l, f a = b := by
    intro l
    induction l with
    | nil => simp
    | cons a l ih =>
      intro keys hnd
      rw [List.foldl_cons]
      split_ifs with ha
      · refine ⟨(ih keys hnd).1, fun b ↦ ?_⟩
        rw [(ih keys hnd).2]
        grind
      · have hnd' : (keys ++ [f a]).Nodup := by
          rw [List.nodup_append]
          refine ⟨hnd, List.nodup_singleton _, fun b hb c hc heq ↦ ha ?_⟩
          rw [← List.mem_singleton.mp hc, ← heq]
          exact hb
        refine ⟨(ih _ hnd').1, fun b ↦ ?_⟩
        rw [(ih _ hnd').2]
        grind
  obtain ⟨hnd, hmem⟩ := hrun l [] List.nodup_nil
  exact ⟨hnd, fun b ↦ by simpa [firstKeys] using hmem b⟩

end Keys

section Groups

variable {regions : ℕ → Box} {ranks : List ℕ}

theorem mem_groupRanks {g : Box × List ℕ} : g ∈ groupRanks regions ranks ↔
    (∃ r ∈ ranks, regions r = g.1) ∧ g.2 = ranks.filter (regions · = g.1) := by
  simp only [groupRanks, List.mem_map, (firstKeys_spec regions ranks).2]
  constructor
  · rintro ⟨region, h, rfl⟩
    exact ⟨h, rfl⟩
  · rintro ⟨h, hg⟩
    exact ⟨g.1, h, Prod.ext rfl hg.symm⟩

theorem mem_holders {g : Box × List ℕ} (hg : g ∈ groupRanks regions ranks) {r : ℕ} :
    r ∈ g.2 ↔ r ∈ ranks ∧ regions r = g.1 := by
  rw [(mem_groupRanks.mp hg).2, List.mem_filter, decide_eq_true_eq]

theorem holders_ne_nil {g : Box × List ℕ} (hg : g ∈ groupRanks regions ranks) : g.2 ≠ [] := by
  obtain ⟨r, hr, hregion⟩ := (mem_groupRanks.mp hg).1
  exact List.ne_nil_of_mem ((mem_holders hg).mpr ⟨hr, hregion⟩)

theorem exists_groupRanks (regions : ℕ → Box) {r : ℕ} (hr : r ∈ ranks) :
    ∃ g ∈ groupRanks regions ranks, g.1 = regions r ∧ r ∈ g.2 := by
  refine ⟨(regions r, ranks.filter (regions · = regions r)), ?_, rfl, ?_⟩
  · exact mem_groupRanks.mpr ⟨⟨r, hr, rfl⟩, rfl⟩
  · simpa using hr

theorem headD_mem {l : List ℕ} (h : l ≠ []) : l.headD 0 ∈ l := by
  cases l with
  | nil => exact absurd rfl h
  | cons a l => exact List.mem_cons_self

theorem pairwise_groupRanks
    (hunique : ∀ r ∈ ranks, ∀ r' ∈ ranks, ∀ x, InBox (regions r) x → InBox (regions r') x →
      regions r = regions r') :
    (groupRanks regions ranks).Pairwise fun g g' ↦ ∀ x, InBox g.1 x → ¬ InBox g'.1 x := by
  rw [groupRanks, List.pairwise_map]
  obtain ⟨hnd, hmem⟩ := firstKeys_spec regions ranks
  refine hnd.imp_of_mem fun {a b} ha hb hne x hx hx' ↦ hne ?_
  obtain ⟨r, hr, rfl⟩ := (hmem a).mp ha
  obtain ⟨r', hr', rfl⟩ := (hmem b).mp hb
  exact hunique r hr r' hr' x hx hx'

end Groups

section Destination

variable {mesh : Mesh} {placements : List Placement} {regions : ℕ → Box}

theorem destinationGroup_spec {g : DestinationGroup}
    (hg : g ∈ destinationGroups mesh placements regions) :
    g.members = mesh.ranks.filter (regions · = g.region) ∧ g.representative ∈ g.members := by
  obtain ⟨s, hs, rfl⟩ := List.mem_map.mp hg
  refine ⟨(mem_groupRanks.mp hs).2, ?_⟩
  simp only
  split_ifs with hp
  · exact headD_mem (holders_ne_nil hs)
  · exact List.mem_of_mem_filter (headD_mem hp)

theorem mem_members {g : DestinationGroup} (hg : g ∈ destinationGroups mesh placements regions)
    {r : ℕ} : r ∈ g.members ↔ r ∈ mesh.ranks ∧ regions r = g.region := by
  rw [(destinationGroup_spec hg).1, List.mem_filter, decide_eq_true_eq]

theorem exists_destinationGroup (placements : List Placement) (regions : ℕ → Box) {r : ℕ}
    (hr : r ∈ mesh.ranks) :
    ∃ g ∈ destinationGroups mesh placements regions, r ∈ g.members := by
  obtain ⟨s, hs, _, hmem⟩ := exists_groupRanks regions hr
  exact ⟨_, List.mem_map_of_mem hs, hmem⟩

theorem pairwise_destinationGroups :
    (destinationGroups mesh placements regions).Pairwise fun g g' ↦ g.region ≠ g'.region := by
  rw [destinationGroups, List.pairwise_map, groupRanks, List.pairwise_map]
  exact (firstKeys_spec regions mesh.ranks).1

theorem group_unique {g g' : DestinationGroup}
    (hg : g ∈ destinationGroups mesh placements regions)
    (hg' : g' ∈ destinationGroups mesh placements regions) {r : ℕ} (hr : r ∈ g.members)
    (hr' : r ∈ g'.members) : g = g' := by
  have hregion : g.region = g'.region :=
    ((mem_members hg).mp hr).2.symm.trans ((mem_members hg').mp hr').2
  have hnd : ((destinationGroups mesh placements regions).map DestinationGroup.region).Nodup :=
    List.pairwise_map.mpr pairwise_destinationGroups
  exact List.inj_on_of_nodup_map hnd hg hg' hregion

end Destination

/-- Every transfer is from a rank that holds its overlap to one that wants it. -/
def Routes (srcRanks dstRanks : List ℕ) (srcRegions dstRegions : ℕ → Box) (ts : List Transfer) :
    Prop :=
  ∀ t ∈ ts, t.source ∈ srcRanks ∧ t.receiver ∈ dstRanks ∧
    Within t.overlap (srcRegions t.source) ∧ Within t.overlap (dstRegions t.receiver)

theorem sortTransfers_perm (ts : List Transfer) : (sortTransfers ts).Perm ts :=
  List.perm_insertionSort _ _

theorem source_mem {holders : List ℕ} (h : holders ≠ []) (preferred : ℕ) :
    (if preferred ∈ holders then preferred else holders.headD 0) ∈ holders := by
  split_ifs with hp
  · exact hp
  · exact headD_mem h

theorem mem_groupTransfers {sourceGroups : List (Box × List ℕ)} {g : DestinationGroup}
    {t : Transfer} : t ∈ groupTransfers sourceGroups g ↔ ∃ s ∈ sourceGroups,
      intersect s.1 g.region = some t.overlap ∧ t.receiver = g.representative ∧
        t.source = if g.representative ∈ s.2 then g.representative else s.2.headD 0 := by
  obtain ⟨source, receiver, overlap⟩ := t
  simp only [groupTransfers, List.mem_filterMap, Option.map_eq_some_iff, Transfer.mk.injEq]
  constructor
  · rintro ⟨s, hs, o, ho, rfl, rfl, rfl⟩
    exact ⟨s, hs, ho, rfl, rfl⟩
  · rintro ⟨s, hs, ho, rfl, rfl⟩
    exact ⟨s, hs, overlap, ho, rfl, rfl, rfl⟩

/-- The receiver and the overlap of every transfer into a list of targets. -/
def targetOverlaps (sourceGroups : List (Box × List ℕ)) (targets : List (Box × ℕ)) :
    List (ℕ × Box) :=
  targets.flatMap fun target ↦ sourceGroups.filterMap fun s ↦
    (intersect s.1 target.1).map (target.2, ·)

section Targets

variable {src : Mesh} {srcPlacements : List Placement} {globalShape : List ℕ}

theorem pairwise_sourceGroups : (groupRanks (rankRegion src srcPlacements globalShape)
    src.ranks).Pairwise fun g g' ↦ ∀ x, InBox g.1 x → ¬ InBox g'.1 x :=
  pairwise_groupRanks fun _ _ _ _ _ hx hx' ↦ rankRegion_unique hx hx'

theorem length_sourceGroup {s : Box × List ℕ}
    (hs : s ∈ groupRanks (rankRegion src srcPlacements globalShape) src.ranks) :
    s.1.length = globalShape.length := by
  obtain ⟨r, _, hr⟩ := (mem_groupRanks.mp hs).1
  rw [← hr, length_rankRegion]

/-- Where the targets have a receiver each, every element of a target is
received in exactly one overlap. -/
theorem countP_targetOverlaps (hsrc : srcPlacements.length = src.shape.length)
    {targets : List (Box × ℕ)} (hreceivers : (targets.map Prod.snd).Nodup)
    (hlen : ∀ target ∈ targets, target.1.length = globalShape.length) {target : Box × ℕ}
    (htarget : target ∈ targets) {x : List ℕ} (hx : InBox target.1 x)
    (hbound : List.Forall₂ (· < ·) x globalShape) :
    (targetOverlaps (groupRanks (rankRegion src srcPlacements globalShape) src.ranks)
      targets).countP (fun p ↦ p.1 = target.2 ∧ InBox p.2 x) = 1 := by
  refine countP_eq_one ?_ ?_
  · rw [targetOverlaps, List.pairwise_flatMap]
    refine ⟨fun t ht ↦ ?_, ?_⟩
    · -- within a target the overlaps lie in different source regions
      rw [List.pairwise_filterMap]
      refine pairwise_sourceGroups.imp_of_mem fun {s s'} hs hs' hdisj p hp p' hp' hboth ↦ ?_
      simp only [decide_eq_true_eq] at hboth
      obtain ⟨o, ho, rfl⟩ := Option.map_eq_some_iff.mp hp
      obtain ⟨o', ho', rfl⟩ := Option.map_eq_some_iff.mp hp'
      have hs₁ := (length_sourceGroup hs).trans (hlen t ht).symm
      have hs₂ := (length_sourceGroup hs').trans (hlen t ht).symm
      exact hdisj x ((intersect_within hs₁ ho).1.inBox hboth.1.2)
        ((intersect_within hs₂ ho').1.inBox hboth.2.2)
    · -- and different targets have different receivers
      refine (List.pairwise_map.mp hreceivers).imp fun {a b} hne p hp p' hp' hboth ↦ hne ?_
      simp only [decide_eq_true_eq] at hboth
      obtain ⟨s, _, hp⟩ := List.mem_filterMap.mp hp
      obtain ⟨s', _, hp'⟩ := List.mem_filterMap.mp hp'
      obtain ⟨o, _, rfl⟩ := Option.map_eq_some_iff.mp hp
      obtain ⟨o', _, rfl⟩ := Option.map_eq_some_iff.mp hp'
      exact hboth.1.1.trans hboth.2.1.symm
  · obtain ⟨r, hr, hrx⟩ := exists_rankRegion hsrc hbound
    obtain ⟨s, hs, hsr, _⟩ := exists_groupRanks (rankRegion src srcPlacements globalShape) hr
    obtain ⟨o, ho, hox⟩ := intersect_of_mem (hsr ▸ hrx) hx
    refine ⟨(target.2, o), List.mem_flatMap.mpr ⟨target, htarget, ?_⟩, by simpa using hox⟩
    exact List.mem_filterMap.mpr ⟨s, hs, by rw [ho]; rfl⟩

end Targets

section ExactPlan

variable {src dst : Mesh} {srcPlacements dstPlacements : List Placement} {globalShape : List ℕ}

theorem routes_exactPlan : Routes src.ranks dst.ranks (rankRegion src srcPlacements globalShape)
    (rankRegion dst dstPlacements globalShape)
    (buildExactPlan (rankRegion src srcPlacements globalShape) src.ranks
      (destinationGroups dst dstPlacements (rankRegion dst dstPlacements globalShape))) := by
  intro t ht
  have hmem := (sortTransfers_perm _).mem_iff.mp ht
  obtain ⟨g, hg, htg⟩ := List.mem_flatMap.mp hmem
  obtain ⟨s, hs, ho, hrec, hsource⟩ := mem_groupTransfers.mp htg
  have hholder : t.source ∈ s.2 := hsource ▸ source_mem (holders_ne_nil hs) g.representative
  obtain ⟨hsrc, hsregion⟩ := (mem_holders hs).mp hholder
  obtain ⟨hdst, hdregion⟩ := (mem_members hg).mp (destinationGroup_spec hg).2
  have hlen : s.1.length = g.region.length := by
    rw [length_sourceGroup hs, ← hdregion, length_rankRegion]
  obtain ⟨hleft, hright⟩ := intersect_within hlen ho
  rw [hrec, hsregion, hdregion]
  exact ⟨hsrc, hdst, hleft, hright⟩

theorem nodup_representatives {regions : ℕ → Box} :
    ((destinationGroups dst dstPlacements regions).map DestinationGroup.representative).Nodup := by
  refine List.pairwise_map.mpr ?_
  refine pairwise_destinationGroups.imp_of_mem fun {a b} ha hb hne heq ↦ hne ?_
  rw [group_unique ha hb (destinationGroup_spec ha).2 (heq ▸ (destinationGroup_spec hb).2)]

/-- Every element of a representative's region is written by exactly one transfer. -/
theorem exactPlan_once (hsrc : srcPlacements.length = src.shape.length) {g : DestinationGroup}
    (hg : g ∈ destinationGroups dst dstPlacements (rankRegion dst dstPlacements globalShape))
    {x : List ℕ} (hx : InBox g.region x) :
    (buildExactPlan (rankRegion src srcPlacements globalShape) src.ranks
      (destinationGroups dst dstPlacements (rankRegion dst dstPlacements globalShape))).countP
        (fun t ↦ t.receiver = g.representative ∧ InBox t.overlap x) = 1 := by
  set groups := destinationGroups dst dstPlacements (rankRegion dst dstPlacements globalShape)
  set sources := groupRanks (rankRegion src srcPlacements globalShape) src.ranks
  have hregion : ∀ g ∈ groups, ∃ r, rankRegion dst dstPlacements globalShape r = g.region :=
    fun g hg ↦ ⟨_, ((mem_members hg).mp (destinationGroup_spec hg).2).2⟩
  have hoverlaps : (groups.flatMap (groupTransfers sources)).map
      (fun t ↦ (t.receiver, t.overlap)) =
      targetOverlaps sources (groups.map fun g ↦ (g.region, g.representative)) := by
    rw [targetOverlaps, List.map_flatMap, List.flatMap_map]
    refine List.flatMap_congr fun g _ ↦ ?_
    rw [groupTransfers, List.map_filterMap]
    refine List.filterMap_congr fun s _ ↦ ?_
    cases intersect s.1 g.region <;> rfl
  have hreceivers : ((groups.map fun g ↦ (g.region, g.representative)).map Prod.snd).Nodup := by
    rw [List.map_map]
    exact nodup_representatives
  have hlen : ∀ target ∈ groups.map fun g ↦ (g.region, g.representative),
      target.1.length = globalShape.length := by
    intro target ht
    obtain ⟨g', hg', rfl⟩ := List.mem_map.mp ht
    obtain ⟨r, hr⟩ := hregion g' hg'
    rw [← hr, length_rankRegion]
  have htarget : (g.region, g.representative) ∈ groups.map fun g ↦ (g.region, g.representative) :=
    List.mem_map_of_mem hg
  have hbound : List.Forall₂ (· < ·) x globalShape := by
    obtain ⟨r, hr⟩ := hregion g hg
    exact lt_of_inBox_rankRegion (hr ▸ hx)
  have hcount := countP_targetOverlaps hsrc hreceivers hlen htarget hx hbound
  rw [buildExactPlan, (sortTransfers_perm _).countP_eq, ← hcount, ← hoverlaps, List.countP_map]
  rfl

end ExactPlan

end NemoRL.WeightSync
