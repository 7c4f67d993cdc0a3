import Mathlib
import NemoRL.WeightSync.Exchange
import NemoRL.WeightSync.Replicas

namespace NemoRL.WeightSync

open Foundations.Boxes

variable {α : Type*}

def broadcastDestination (communicator : Option (List ℕ)) (locals : ℕ → Option (Block α))
    (rank : ℕ) : Option (Block α) := do
  let own ← locals rank
  match communicator with
  | none => return own
  | some ranks =>
    if own.shape.prod = 0 then return own
    else
      let root ← locals (ranks.headD rank)
      return { own with data := root.data }

def exchanged (plan : Plan) (srcLocal dstLocal : ℕ → Block α) (rank : ℕ) : Option (Block α) :=
  (exchangeOverlaps plan.srcRegions plan.dstRegions srcLocal dstLocal plan.transfers rank).map
    Prod.fst

/-- `_xferdtensor_python_impl_v1` on every rank of the process group. -/
def xferdtensorV1 (world : List ℕ) (plan : Plan) (srcLocal dstLocal : ℕ → Block α) (rank : ℕ) :
    Option (Block α) :=
  broadcastDestination (replicaSubcommunicator world plan.groups rank)
    (exchanged plan srcLocal dstLocal) rank

theorem length_of_validateLayout {mesh : Mesh} {placements : List Placement} {n : ℕ}
    {name : String} (h : validateLayout mesh placements n name = .ok ()) :
    placements.length = mesh.shape.length := by
  by_contra hne
  rw [validateLayout, if_pos hne] at h
  cases h

variable {src dst : Mesh} {srcPlacements dstPlacements : List Placement} {globalShape : List ℕ}

def exactPlan (src : Mesh) (srcPlacements : List Placement) (dst : Mesh)
    (dstPlacements : List Placement) (globalShape : List ℕ) : Plan :=
  let groups := destinationGroups dst dstPlacements (rankRegion dst dstPlacements globalShape)
  ⟨rankRegion src srcPlacements globalShape, rankRegion dst dstPlacements globalShape, groups,
    buildExactPlan (rankRegion src srcPlacements globalShape) src.ranks groups⟩

theorem planGeometry_eq
    (hsrc : validateLayout src srcPlacements globalShape.length "src" = .ok ())
    (hdst : validateLayout dst dstPlacements globalShape.length "dst" = .ok ()) :
    planGeometry src srcPlacements dst dstPlacements globalShape =
      .ok (exactPlan src srcPlacements dst dstPlacements globalShape) := by
  rw [planGeometry, hsrc, hdst]
  rfl

theorem prod_ne_zero_of_inBox {b : Box} {x : List ℕ} (h : InBox b x) : 0 < regionNumel b := by
  refine List.prod_pos fun n hn ↦ ?_
  obtain ⟨iv, hiv, rfl⟩ := List.mem_map.mp hn
  obtain ⟨i, hi⟩ := List.mem_iff_getElem?.mp hiv
  obtain ⟨hlt, hget⟩ := List.getElem?_eq_some_iff.mp hi
  have hx := (List.forall₂_iff_get.mp h).2 i hlt (h.length_eq ▸ hlt)
  simp only [List.get_eq_getElem, hget] at hx
  omega

theorem eq_representative {g : DestinationGroup} {regions : ℕ → Box}
    (hg : g ∈ destinationGroups dst dstPlacements regions) (hone : ¬ 1 < g.members.length) {r : ℕ}
    (hr : r ∈ g.members) : r = g.representative := by
  have hrep := (destinationGroup_spec hg).2
  cases hm : g.members with
  | nil => simp [hm] at hr
  | cons a l =>
    rw [hm] at hr hrep hone
    obtain rfl : l = [] := by simpa using hone
    rw [List.mem_singleton.mp hr, List.mem_singleton.mp hrep]

theorem holds_representative (hlen : srcPlacements.length = src.shape.length)
    {whole : List ℕ → α} {srcLocal : ℕ → Block α} (dstLocal : ℕ → Block α)
    (hheld : ∀ r ∈ src.ranks, Holds whole (rankRegion src srcPlacements globalShape r) (srcLocal r))
    {g : DestinationGroup}
    (hg : g ∈ (exactPlan src srcPlacements dst dstPlacements globalShape).groups) :
    ∃ out, exchanged (exactPlan src srcPlacements dst dstPlacements globalShape) srcLocal dstLocal
        g.representative = some out ∧
      ∀ x, InBox g.region x → out.data (toLocal g.region x) = whole x := by
  obtain ⟨_, hregion⟩ := (mem_members hg).mp (destinationGroup_spec hg).2
  obtain ⟨out, hout, _, hdata⟩ := exchange_spec dstLocal routes_exactPlan hheld g.representative
  refine ⟨out, by rw [exchanged, exactPlan, hout]; rfl, fun x hx ↦ ?_⟩
  have honce := exactPlan_once hlen hg hx
  obtain ⟨t, ht, htx⟩ := List.countP_pos_iff.mp (honce ▸ Nat.one_pos)
  rw [decide_eq_true_eq] at htx
  rw [← hregion] at hx ⊢
  exact hdata x hx ⟨t, ht, htx⟩

theorem holds_xferdtensorV1 (hlen : srcPlacements.length = src.shape.length) {world : List ℕ}
    {whole : List ℕ → α} {srcLocal dstLocal : ℕ → Block α}
    (hworld : world.Nodup) (hranks : ∀ r ∈ dst.ranks, r ∈ world)
    (hheld : ∀ r ∈ src.ranks, Holds whole (rankRegion src srcPlacements globalShape r) (srcLocal r))
    (hshape : ∀ r ∈ dst.ranks,
      (dstLocal r).shape = sizes (rankRegion dst dstPlacements globalShape r))
    {r : ℕ} (hr : r ∈ dst.ranks) :
    ∃ out, xferdtensorV1 world (exactPlan src srcPlacements dst dstPlacements globalShape)
        srcLocal dstLocal r = some out ∧
      Holds whole (rankRegion dst dstPlacements globalShape r) out := by
  set plan := exactPlan src srcPlacements dst dstPlacements globalShape
  obtain ⟨g, hg, hmem⟩ := exists_destinationGroup dstPlacements
    (rankRegion dst dstPlacements globalShape) hr
  obtain ⟨_, hregion⟩ := (mem_members hg).mp hmem
  have hroutes : Routes src.ranks dst.ranks plan.srcRegions plan.dstRegions plan.transfers :=
    routes_exactPlan
  obtain ⟨own, hown, hownShape, _⟩ := exchange_spec dstLocal hroutes hheld r
  have hexchanged : exchanged plan srcLocal dstLocal r = some own :=
    congrArg (Option.map Prod.fst) hown
  have hsizes : own.shape = sizes g.region := by rw [hownShape, hshape r hr, hregion]
  obtain ⟨root, hroot, hdata⟩ := holds_representative hlen dstLocal hheld hg
  rw [hregion]
  by_cases hactive : g.Active
  · have hcomm : replicaSubcommunicator world plan.groups r =
        some (orderedReplicaMembers g.representative g.members) :=
      replicaSubcommunicator_of_mem hworld hranks hg hactive hmem
    have hnumel : own.shape.prod ≠ 0 := by
      rw [hsizes]
      exact hactive.2.ne'
    refine ⟨{ own with data := root.data }, ?_, hsizes, hdata⟩
    rw [xferdtensorV1, hcomm, broadcastDestination, hexchanged]
    simp only [Option.bind_eq_bind, Option.bind_some, if_neg hnumel, orderedReplicaMembers,
      List.headD_cons]
    rw [hroot]
    rfl
  · have hcomm : replicaSubcommunicator world plan.groups r = none := by
      refine replicaSubcommunicator_of_not_mem fun g' hg' hactive' hmem' ↦ hactive ?_
      rwa [group_unique hg hg' hmem hmem']
    refine ⟨own, ?_, hsizes, fun x hx ↦ ?_⟩
    · rw [xferdtensorV1, hcomm, broadcastDestination, hexchanged]
      rfl
    · have hone : ¬ 1 < g.members.length := fun h ↦ hactive ⟨h, prod_ne_zero_of_inBox hx⟩
      obtain rfl := eq_representative hg hone hmem
      obtain rfl := Option.some.inj (hroot.symm.trans hexchanged)
      exact hdata x hx

/-- Resharding leaves every destination rank with the global tensor restricted
to its region; every element a representative holds is written once, no message
is left over, and sends meet receives in order and shape. -/
theorem xferdtensorV1_exact (src dst : Mesh) (srcPlacements dstPlacements : List Placement)
    (globalShape world : List ℕ) (whole : List ℕ → α) (srcLocal dstLocal : ℕ → Block α)
    (hsrc : validateLayout src srcPlacements globalShape.length "src" = .ok ())
    (hdst : validateLayout dst dstPlacements globalShape.length "dst" = .ok ())
    (hworld : world.Nodup) (hranks : ∀ r ∈ dst.ranks, r ∈ world)
    (hheld : ∀ r ∈ src.ranks, Holds whole (rankRegion src srcPlacements globalShape r) (srcLocal r))
    (hshape : ∀ r ∈ dst.ranks,
      (dstLocal r).shape = sizes (rankRegion dst dstPlacements globalShape r)) :
    ∃ plan, planGeometry src srcPlacements dst dstPlacements globalShape = .ok plan ∧
      (∀ r ∈ dst.ranks, ∃ out, xferdtensorV1 world plan srcLocal dstLocal r = some out ∧
        Holds whole (rankRegion dst dstPlacements globalShape r) out) ∧
      (∀ r, ∃ out, exchangeOverlaps plan.srcRegions plan.dstRegions srcLocal dstLocal
        plan.transfers r = some (out, fun _ ↦ [])) ∧
      (∀ g ∈ plan.groups, ∀ x, InBox g.region x →
        plan.transfers.countP (fun t ↦ t.receiver = g.representative ∧ InBox t.overlap x) = 1) ∧
      ∀ a b : ℕ,
        ((stageRankOperations a (srcLocal a) (dstLocal a) (plan.srcRegions a) (plan.dstRegions a)
          plan.transfers).sends.filter (·.1 = b)).map (fun m ↦ m.2.shape) =
        ((stageRankOperations b (srcLocal b) (dstLocal b) (plan.srcRegions b) (plan.dstRegions b)
          plan.transfers).receives.filter (·.1 = a)).map fun m ↦ sizes m.2 := by
  have hlen := length_of_validateLayout hsrc
  have hroutes : Routes src.ranks dst.ranks (rankRegion src srcPlacements globalShape)
      (rankRegion dst dstPlacements globalShape)
      (exactPlan src srcPlacements dst dstPlacements globalShape).transfers := routes_exactPlan
  refine ⟨exactPlan src srcPlacements dst dstPlacements globalShape, planGeometry_eq hsrc hdst,
    fun r hr ↦ holds_xferdtensorV1 hlen hworld hranks hheld hshape hr, fun r ↦ ?_,
    fun g hg x hx ↦ exactPlan_once hlen hg hx, fun a b ↦ sends_match_receives a b⟩
  obtain ⟨out, hout, _⟩ := exchange_spec dstLocal hroutes hheld r
  exact ⟨out, hout⟩

/-- Two ranks that split seven rows, and two that replicate them, one of them shared. -/
def splitMesh : Mesh := ⟨[2], [0, 1], by decide, rfl, by decide⟩

def replicaMesh : Mesh := ⟨[2], [1, 2], by decide, rfl, by decide⟩

theorem xferdtensorV1_exact_replicated :
    ∃ plan, planGeometry splitMesh [.shard (-2)] replicaMesh [.replicate] [7, 2] = .ok plan ∧
      ∀ r ∈ replicaMesh.ranks, ∃ out, xferdtensorV1 [0, 1, 2] plan
        (fun r ↦ restrict (fun x ↦ x.sum) (rankRegion splitMesh [.shard (-2)] [7, 2] r))
        (fun r ↦ restrict (fun _ ↦ 0) (rankRegion replicaMesh [.replicate] [7, 2] r)) r = some out ∧
        Holds (fun x ↦ x.sum) (rankRegion replicaMesh [.replicate] [7, 2] r) out := by
  obtain ⟨plan, hplan, h, _⟩ := xferdtensorV1_exact splitMesh replicaMesh [.shard (-2)]
    [.replicate] [7, 2] [0, 1, 2] (fun x ↦ x.sum)
    (fun r ↦ restrict (fun x ↦ x.sum) (rankRegion splitMesh [.shard (-2)] [7, 2] r))
    (fun r ↦ restrict (fun _ ↦ 0) (rankRegion replicaMesh [.replicate] [7, 2] r)) rfl rfl
    (by decide) (by decide) (fun r _ ↦ holds_restrict _ _) (fun r _ ↦ rfl)
  exact ⟨plan, hplan, h⟩

end NemoRL.WeightSync
