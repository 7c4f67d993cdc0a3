import Mathlib
import NemoRL.Foundations.Classes

namespace NemoRL.Distributed.VirtualCluster

open Foundations Foundations.Classes

def nvlinkDomainUnknown : String := "unknown"

def topoRankUnknown : ℤ := -1

abbrev Topology := Dict String (String × ℤ)

inductive ClusterError
  | valueError
  | zeroDivisionError
  | assertionError
  | resourceInsufficient (numSegmentsNeeded segmentSize numNodes : ℕ)
      (domainSummary : Dict String ℕ)
  deriving DecidableEq

section Selection

def domainNodes (topology : Topology) : Dict String (List (String × ℤ)) :=
  (groupBy (fun node : String × String × ℤ ↦ node.2.1)
    (topology.filter (·.2.1 ≠ nvlinkDomainUnknown))).map fun item ↦
      (item.1, sortBy Prod.snd (item.2.map fun node ↦ (node.1, node.2.2)))

def sortedDomains (topology : Topology) : List (String × List (String × ℤ)) :=
  sortBy (fun item ↦ (item.2.headD ("", topoRankUnknown)).2) (domainNodes topology)

/-- One turn of the loop over the domains, on what is selected and how many segments that
are; once there are enough, the loop has ended. -/
def takeSegments (segmentSize numSegmentsNeeded : ℕ) (taken : List String × ℕ)
    (item : String × List (String × ℤ)) : List String × ℕ :=
  if taken.2 ≥ numSegmentsNeeded then taken
  else
    let segmentsAvailable := item.2.length / segmentSize
    let segmentsToTake := min segmentsAvailable (numSegmentsNeeded - taken.2)
    let nodesToTake := segmentsToTake * segmentSize
    (taken.1 ++ (item.2.take nodesToTake).map Prod.fst, taken.2 + segmentsToTake)

def selectSegmentNodes (topology : Topology) (segmentSize numNodes : ℕ) :
    Except ClusterError (List String × List String) :=
  if segmentSize = 0 then .error .zeroDivisionError
  else if numNodes % segmentSize ≠ 0 then .error .valueError
  else
    let numSegmentsNeeded := numNodes / segmentSize
    let domains := sortedDomains topology
    let taken := domains.foldl (takeSegments segmentSize numSegmentsNeeded) ([], 0)
    if taken.2 < numSegmentsNeeded then
      .error (.resourceInsufficient numSegmentsNeeded segmentSize numNodes
        (domains.map fun item ↦ (item.1, item.2.length)))
    else .ok (taken.1, (topology.map Prod.fst).filter (· ∉ taken.1))

def domainOf (topology : Topology) (nid : String) : Option String :=
  (Dict.get topology nid).map Prod.fst

/-- `prepare_segment_topology` on a topology that is given or has been fetched: the
constraints, the remaining nodes and the topology for the callers. -/
def prepareSegmentTopology (segmentSize : Option ℕ) (numNodes : ℕ) (topology : Topology) :
    Except ClusterError (Option (List (Dict String ℚ)) × List String × Topology) :=
  match segmentSize with
  | none => .ok (none, [], [])
  | some segmentSize =>
    if topology.any fun node ↦ node.2.1 ≠ nvlinkDomainUnknown then do
      let (selected, remaining) ← selectSegmentNodes topology segmentSize numNodes
      let constraints := selected.map fun nid ↦
        [((domainOf topology nid).getD nvlinkDomainUnknown, (1 / 1000 : ℚ))]
      .ok (some constraints, remaining, topology)
    else .ok (none, topology.map Prod.fst, topology)

end Selection

section Bundles

structure Bundle where
  gpuId : ℕ
  nvlinkDomain : String
  topoRank : ℤ
  nodeId : String
  deriving DecidableEq

/-- A bundle with its index in the placement group. -/
structure BundleInfo where
  idx : ℕ
  nodeId : String
  gpuId : ℕ
  domain : String
  topoRank : ℤ
  deriving DecidableEq

def bundleInfos (bundleData : List Bundle) : List BundleInfo :=
  bundleData.zipIdx.map fun (b, i) ↦ ⟨i, b.nodeId, b.gpuId, b.nvlinkDomain, b.topoRank⟩

def keptBundles (segmentSize gpusPerNode : ℕ) (bundles : List BundleInfo) : List BundleInfo :=
  let domainNodeCount := (bundles.map (·.nodeId)).dedup.length
  let usableNodes := domainNodeCount / segmentSize * segmentSize
  let usableGpus := usableNodes * gpusPerNode
  (sortBy (fun x ↦ toLex (x.topoRank, x.gpuId)) bundles).take usableGpus

def filteredBundles (segmentSize gpusPerNode : ℕ) (infos : List BundleInfo) : List BundleInfo :=
  (groupBy (·.domain) infos).flatMap fun item ↦ keptBundles segmentSize gpusPerNode item.2

def domainToMinTopoRank (infos : List BundleInfo) : Dict String ℤ :=
  infos.foldl (fun ranks info ↦
    match Dict.get ranks info.domain with
    | none => Dict.set ranks info.domain info.topoRank
    | some rank =>
      if info.topoRank < rank then Dict.set ranks info.domain info.topoRank else ranks) []

def minTopoRank (infos : List BundleInfo) (domain : String) : ℤ :=
  (Dict.get (domainToMinTopoRank infos) domain).getD topoRankUnknown

def topologyKey (infos : List BundleInfo) (x : BundleInfo) : ℤ ×ₗ ℤ ×ₗ ℕ :=
  toLex (minTopoRank infos x.domain, toLex (x.topoRank, x.gpuId))

def sortBundleIndicesByTopology (bundleData : List Bundle) (segmentSize gpusPerNode : Option ℕ) :
    Except ClusterError (List ℕ) :=
  if segmentSize.isSome ∧ gpusPerNode.isNone then .error .valueError
  else if bundleData.isEmpty then .ok []
  else
    let infos := bundleInfos bundleData
    if ∀ b ∈ bundleData, b.nvlinkDomain = nvlinkDomainUnknown ∧ b.topoRank = topoRankUnknown then
      .ok ((sortBy (fun x ↦ toLex (x.nodeId, x.gpuId)) infos).map (·.idx))
    else
      match segmentSize with
      | none => .ok ((sortBy (topologyKey infos) infos).map (·.idx))
      | some 0 => .error .zeroDivisionError
      | some segmentSize =>
        let infos := filteredBundles segmentSize (gpusPerNode.getD 0) infos
        .ok ((sortBy (topologyKey infos) infos).map (·.idx))

/-- `_get_sorted_bundle_indices`; the placement groups are given by their bundles. -/
def getSortedBundleIndices (useGpus : Bool) (nodePlacementGroups : List (List Bundle))
    (segmentSize : Option ℕ) (numGpusPerNode : ℕ) : Except ClusterError (Option (List ℕ)) :=
  match useGpus, nodePlacementGroups with
  | true, [bundleData] => do
    -- a segment size of zero is no segment size to the caller, but is one to the sort
    let gpusPerNode := segmentSize.bind fun size ↦ if size = 0 then none else some numGpusPerNode
    let indices ← sortBundleIndicesByTopology bundleData segmentSize gpusPerNode
    if indices.length ≠ bundleData.length then .error .assertionError
    else .ok (some indices)
  | _, _ => .ok none

end Bundles

end NemoRL.Distributed.VirtualCluster
