import Mathlib
import NemoRL.WeightSync.Reshard

namespace NemoRL.WeightSync

open Foundations.Boxes Foundations.RowMajor

/-- The targets of a striped plan, each a region and its receiver, and the
stripe of each rank that has one. -/
structure StripedTargets where
  targets : List (Box × ℕ)
  stripesByRank : List (ℕ × Box)
  hasActiveReplicaGroup : Bool

def stripeRegion (dim0 : ℕ × ℕ) (rest : Box) (stripeDim0 i : ℕ) : Box :=
  (dim0.1 + i * stripeDim0, dim0.1 + i * stripeDim0 + stripeDim0) :: rest

def StripedTargets.push (s : StripedTargets) (g : DestinationGroup) : Option StripedTargets :=
  if regionNumel g.region = 0 then some s
  else if g.members.length = 1 then
    some { s with targets := s.targets ++ [(g.region, g.representative)] }
  else match g.region with
    | [] => none
    | dim0 :: rest =>
      let replicaCount := g.members.length
      if (dim0.2 - dim0.1) % replicaCount ≠ 0 then none
      else
        let stripeDim0 := (dim0.2 - dim0.1) / replicaCount
        let stripes := (orderedReplicaMembers g.representative g.members).zipIdx.map fun x ↦
          (stripeRegion dim0 rest stripeDim0 x.2, x.1)
        some ⟨s.targets ++ stripes, s.stripesByRank ++ stripes.map Prod.swap, true⟩

def buildStripedTargets (groups : List DestinationGroup) :
    Option (List (Box × ℕ) × List (ℕ × Box)) := do
  let s ← groups.foldlM StripedTargets.push ⟨[], [], false⟩
  if s.hasActiveReplicaGroup then return (s.targets, s.stripesByRank) else none

structure StripedTransfers where
  transfers : List Transfer
  uses : Box → ℕ

def StripedTransfers.push (target : Box × ℕ) (s : StripedTransfers)
    (sourceGroup : Box × List ℕ) : StripedTransfers :=
  match intersect sourceGroup.1 target.1 with
  | none => s
  | some overlap =>
    if target.2 ∈ sourceGroup.2 then
      { s with transfers := s.transfers ++ [⟨target.2, target.2, overlap⟩] }
    else
      let use := s.uses sourceGroup.1
      ⟨s.transfers ++ [⟨sourceGroup.2.getD (use % sourceGroup.2.length) 0, target.2, overlap⟩],
        Function.update s.uses sourceGroup.1 (use + 1)⟩

def buildStripedTransfers (srcRegions : ℕ → Box) (srcRanks : List ℕ)
    (targets : List (Box × ℕ)) : List Transfer :=
  sortTransfers (targets.foldl
    (fun s target ↦ (groupRanks srcRegions srcRanks).foldl (StripedTransfers.push target) s)
    ⟨[], fun _ ↦ 0⟩).transfers

def stridesAgree : List (ℕ × ℕ) → ℕ → ℕ → Bool
  | [], _, _ => true
  | (parentSize, viewSize) :: rest, parentStride, expectedStride =>
    if 1 < viewSize then
      parentStride = expectedStride &&
        stridesAgree rest (parentStride * parentSize) (expectedStride * viewSize)
    else stridesAgree rest (parentStride * parentSize) expectedStride

def regionViewIsContiguous (region parentRegion : Box) : Bool :=
  stridesAgree ((sizes parentRegion).reverse.zip (sizes region).reverse) 1 1

def remoteTransfersAvoidDoubleStaging (transfers : List Transfer) (srcRegions dstRegions : ℕ → Box) :
    Bool :=
  transfers.all fun t ↦ t.source = t.receiver ||
    regionViewIsContiguous t.overlap (srcRegions t.source) ||
    regionViewIsContiguous t.overlap (dstRegions t.receiver)

structure StripedPlan where
  srcRegions : ℕ → Box
  dstRegions : ℕ → Box
  groups : List DestinationGroup
  transfers : List Transfer
  stripesByRank : List (ℕ × Box)

def stripedGeometry (src : Mesh) (srcPlacements : List Placement) (dst : Mesh)
    (dstPlacements : List Placement) (globalShape : List ℕ) :
    Except ReshardError (Option StripedPlan) := do
  let plan ← planGeometry src srcPlacements dst dstPlacements globalShape
  match buildStripedTargets plan.groups with
  | none => return none
  | some (targets, stripesByRank) =>
    let transfers := buildStripedTransfers plan.srcRegions src.ranks targets
    if remoteTransfersAvoidDoubleStaging transfers plan.srcRegions plan.dstRegions then
      return some ⟨plan.srcRegions, plan.dstRegions, plan.groups, transfers, stripesByRank⟩
    else return none

variable {α : Type*}

/-- The buffer the transfers land in: the tensor itself, or a fresh one with
arbitrary entries where the tensor is not contiguous. -/
def destinationBuffer (contiguous : ℕ → Bool) (fresh : ℕ → List ℕ → α) (dstLocal : ℕ → Block α)
    (rank : ℕ) : Block α :=
  if contiguous rank then dstLocal rank else { dstLocal rank with data := fresh rank }

/-- An all-gather of equal contiguous blocks in the order of the communicator.
Nothing where a send buffer is missing or is no such part of the receive buffer. -/
def allgather (ranks : List ℕ) (sendBuffer : ℕ → Option (Block α)) (own : Block α) :
    Option (Block α) := do
  let blocks ← ranks.mapM sendBuffer
  if ∀ block ∈ blocks, block.shape.prod * blocks.length = own.shape.prod then
    let count := own.shape.prod / blocks.length
    return { own with data := fun v ↦
              match blocks[ravel own.shape v / count]? with
              | none => own.data v
              | some block => block.data (unravel block.shape (ravel own.shape v % count)) }
  else none

def StripedPlan.stripeOf (plan : StripedPlan) (rank : ℕ) : Option Box :=
  (plan.stripesByRank.find? (·.1 = rank)).map Prod.snd

def StripedPlan.gathers (plan : StripedPlan) (world : List ℕ) (own : Block α) (rank : ℕ) :
    Option (List ℕ) := do
  let _ ← plan.stripeOf rank
  let ranks ← replicaSubcommunicator world plan.groups rank
  if own.shape.prod = 0 then none else some ranks

def StripedPlan.sendBuffer (plan : StripedPlan) (buffers : ℕ → Option (Block α)) (rank : ℕ) :
    Option (Block α) :=
  match plan.stripeOf rank with
  | none => none
  | some stripe =>
    if regionViewIsContiguous stripe (plan.dstRegions rank) then
      (buffers rank).map fun buffer ↦ readView buffer stripe (plan.dstRegions rank)
    else none

def StripedPlan.buffers (plan : StripedPlan) (contiguous : ℕ → Bool) (fresh : ℕ → List ℕ → α)
    (srcLocal dstLocal : ℕ → Block α) (rank : ℕ) : Option (Block α) :=
  (exchangeOverlaps plan.srcRegions plan.dstRegions srcLocal
    (destinationBuffer contiguous fresh dstLocal) plan.transfers rank).map Prod.fst

/-- The striped branch of `xferdtensor_python_impl` on every rank of the process
group; a buffer of its own is copied back whole. -/
def xferdtensorStriped (world : List ℕ) (plan : StripedPlan) (contiguous : ℕ → Bool)
    (fresh : ℕ → List ℕ → α) (srcLocal dstLocal : ℕ → Block α) (rank : ℕ) : Option (Block α) := do
  let buffers := plan.buffers contiguous fresh srcLocal dstLocal
  let own ← buffers rank
  match plan.gathers world own rank with
  | none => return own
  | some ranks => allgather ranks (plan.sendBuffer buffers) own

end NemoRL.WeightSync
