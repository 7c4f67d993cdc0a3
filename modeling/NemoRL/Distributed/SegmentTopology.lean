import Mathlib
import NemoRL.Distributed.VirtualCluster
import NemoRL.Foundations.Tensors

namespace NemoRL.Distributed.VirtualCluster

open Foundations Foundations.Blocks Foundations.Classes

section Specification

/-- Node ids are keys, and no two nodes with a domain have one rank. -/
structure WellFormed (topology : Topology) : Prop where
  keys : (topology.map Prod.fst).Nodup
  ranks : ∀ x ∈ topology, ∀ y ∈ topology, x.2.1 ≠ nvlinkDomainUnknown →
    y.2.1 ≠ nvlinkDomainUnknown → x.2.2 = y.2.2 → x = y

def knownDomains (topology : Topology) : List String :=
  ((topology.map (·.2.1)).filter (· ≠ nvlinkDomainUnknown)).dedup

def completeSegments (topology : Topology) (segmentSize : ℕ) : ℕ :=
  ((knownDomains topology).map fun d ↦ topology.countP (·.2.1 = d) / segmentSize).sum

def InOneDomain (topology : Topology) (ids : List String) : Prop :=
  ∃ d ≠ nvlinkDomainUnknown, ∀ nid ∈ ids, domainOf topology nid = some d

/-- The bundles of each logical node are on one node of its pinned domain, `gpusPerNode`
of them, and no two logical nodes share a node. -/
structure Placed (topology : Topology) (constraints : List (Dict String ℚ)) (gpusPerNode : ℕ)
    (bundleData : List Bundle) (placement : List String) : Prop where
  distinct : placement.Nodup
  pinned : List.Forall₂ (fun nid constraint ↦ ∃ d amount, constraint = [(d, amount)] ∧
    domainOf topology nid = some d) placement constraints
  bundles : ∀ b ∈ bundleData, b.nodeId ∈ placement ∧
    Dict.get topology b.nodeId = some (b.nvlinkDomain, b.topoRank)
  count : ∀ nid ∈ placement, bundleData.countP (·.nodeId = nid) = gpusPerNode

/-- The ranks are cut into nodes in the order of their GPUs, and into segments. -/
structure Aligned (topology : Topology) (segmentSize gpusPerNode : ℕ) (bundleData : List Bundle)
    (indices : List ℕ) : Prop where
  perm : indices.Perm (List.range bundleData.length)
  oneNode : ∀ i, ∃ nid, ∀ b ∈ (block gpusPerNode indices i).filterMap (bundleData[·]?),
    b.nodeId = nid
  gpuOrder : ∀ i, ((block gpusPerNode indices i).filterMap (bundleData[·]?)).Pairwise
    fun b b' ↦ b.gpuId ≤ b'.gpuId
  oneDomain : ∀ i, InOneDomain topology
    (((block (segmentSize * gpusPerNode) indices i).filterMap (bundleData[·]?)).map (·.nodeId))

end Specification

section Domains

variable {topology : Topology} {d : String} {nodes : List (String × ℤ)} {segmentSize : ℕ}

theorem mem_knownDomains : d ∈ knownDomains topology ↔
    d ≠ nvlinkDomainUnknown ∧ ∃ x ∈ topology, x.2.1 = d := by
  rw [knownDomains, List.mem_dedup, List.mem_filter, List.mem_map, and_comm]
  simp

theorem keys_domainNodes : ((domainNodes topology).map Prod.fst).Perm (knownDomains topology) := by
  rw [domainNodes, List.map_map]
  refine (List.perm_ext_iff_of_nodup (nodup_keys_groupBy _ _) (List.nodup_dedup _)).mpr fun d ↦ ?_
  have hkeys := @mem_keys_groupBy _ _ _ (fun node : String × String × ℤ ↦ node.2.1)
    (topology.filter (·.2.1 ≠ nvlinkDomainUnknown)) d
  rw [← knownDomains, mem_knownDomains]
  refine hkeys.trans ?_
  rw [List.mem_map]
  constructor
  · rintro ⟨x, hx, rfl⟩
    obtain ⟨hx, hne⟩ := List.mem_filter.mp hx
    exact ⟨by simpa using hne, x, hx, rfl⟩
  · rintro ⟨hne, x, hx, rfl⟩
    exact ⟨x, List.mem_filter.mpr ⟨hx, by simpa using hne⟩, rfl⟩

theorem mem_domainNodes (h : (d, nodes) ∈ domainNodes topology) :
    d ∈ knownDomains topology ∧
      nodes.Perm ((topology.filter (·.2.1 = d)).map fun x ↦ (x.1, x.2.2)) := by
  refine ⟨keys_domainNodes.subset (List.mem_map_of_mem h), ?_⟩
  obtain ⟨⟨d', g⟩, hitem, heq⟩ := List.mem_map.mp h
  obtain ⟨rfl, rfl⟩ := Prod.mk.inj heq
  obtain ⟨hd, rfl⟩ := mem_groupBy hitem
  obtain ⟨x, hx, hxd⟩ := List.mem_map.mp hd
  have hne : d' ≠ nvlinkDomainUnknown := by
    have h := (List.mem_filter.mp hx).2
    rw [← hxd]
    simpa using h
  refine (sortBy_perm _ _).trans (.map _ ?_)
  rw [List.filter_filter]
  refine .of_eq (List.filter_congr fun x _ ↦ ?_)
  by_cases hx : x.2.1 = d'
  · simp [hx, hne]
  · simp [hx]

theorem sum_segments (topology : Topology) (segmentSize : ℕ) :
    ((sortedDomains topology).map fun item ↦ item.2.length / segmentSize).sum =
      completeSegments topology segmentSize := by
  have hsorted : (sortedDomains topology).Perm (domainNodes topology) := sortBy_perm _ _
  have hlength : ∀ item ∈ domainNodes topology,
      item.2.length / segmentSize = topology.countP (·.2.1 = item.1) / segmentSize := by
    rintro ⟨d, nodes⟩ hitem
    rw [(mem_domainNodes hitem).2.length_eq, List.length_map, ← List.countP_eq_length_filter]
  rw [(hsorted.map _).sum_eq, List.map_congr_left hlength, completeSegments,
    ← (keys_domainNodes.map _).sum_eq, List.map_map]
  rfl

end Domains

section Selection

variable {topology : Topology} {segmentSize needed : ℕ}

/-- What the loop takes: of each domain a part of its nodes, in complete segments. -/
theorem foldl_takeSegments (domains : List (String × List (String × ℤ))) (selected : List String)
    (taken : ℕ) (htaken : taken ≤ needed) :
    ∃ parts, List.Forall₂ (fun p item ↦ p <+: item.2 ∧ segmentSize ∣ p.length) parts domains ∧
      domains.foldl (takeSegments segmentSize needed) (selected, taken) =
        (selected ++ parts.flatten.map Prod.fst,
          min needed (taken + (domains.map fun item ↦ item.2.length / segmentSize).sum)) ∧
      taken * segmentSize + parts.flatten.length =
        min needed (taken + (domains.map fun item ↦ item.2.length / segmentSize).sum) *
          segmentSize := by
  induction domains generalizing selected taken with
  | nil => exact ⟨[], .nil, by simp [htaken], by simp [htaken]⟩
  | cons item domains ih =>
    rw [List.foldl_cons, List.map_cons, List.sum_cons]
    by_cases henough : taken ≥ needed
    · obtain rfl := Nat.le_antisymm htaken henough
      obtain ⟨parts, hparts, hfold, hlen⟩ := ih selected taken le_rfl
      rw [min_eq_left (Nat.le_add_right _ _)] at hfold hlen ⊢
      refine ⟨[] :: parts, .cons ⟨List.nil_prefix, dvd_zero _⟩ hparts, ?_, ?_⟩
      · rw [takeSegments, if_pos henough, hfold]
        rfl
      · simpa using hlen
    · let take := min (item.2.length / segmentSize) (needed - taken)
      have htake : taken + take ≤ needed := by omega
      obtain ⟨parts, hparts, hfold, hlen⟩ :=
        ih (selected ++ (item.2.take (take * segmentSize)).map Prod.fst) (taken + take) htake
      have hmin : min needed (taken + take +
          (domains.map fun item ↦ item.2.length / segmentSize).sum) =
          min needed (taken + (item.2.length / segmentSize +
            (domains.map fun item ↦ item.2.length / segmentSize).sum)) := by omega
      have hle : take * segmentSize ≤ item.2.length :=
        (Nat.mul_le_mul_right _ (min_le_left _ _)).trans (Nat.div_mul_le_self _ _)
      have hlength : (item.2.take (take * segmentSize)).length = take * segmentSize :=
        List.length_take_of_le hle
      rw [hmin] at hfold hlen
      refine ⟨item.2.take (take * segmentSize) :: parts,
        .cons ⟨List.take_prefix _ _, hlength.symm ▸ Nat.dvd_mul_left _ _⟩ hparts, ?_, ?_⟩
      · rw [takeSegments, if_neg henough]
        refine hfold.trans ?_
        rw [List.flatten_cons, List.map_append, List.append_assoc]
      · rw [List.flatten_cons, List.length_append, hlength, ← hlen]
        ring

variable {domains : List (String × List (String × ℤ))} {parts : List (List (String × ℤ))}

theorem flatten_sublist
    (h : List.Forall₂ (fun p item ↦ p <+: item.2 ∧ segmentSize ∣ p.length) parts domains) :
    parts.flatten.Sublist (domains.flatMap Prod.snd) := by
  induction h with
  | nil => exact List.Sublist.refl _
  | cons hp _ ih =>
    rw [List.flatten_cons, List.flatMap_cons]
    exact hp.1.sublist.append ih

theorem nodes_perm (topology : Topology) : ((sortedDomains topology).flatMap Prod.snd).Perm
    ((topology.filter (·.2.1 ≠ nvlinkDomainUnknown)).map fun x ↦ (x.1, x.2.2)) := by
  have hsorted : (sortedDomains topology).Perm (domainNodes topology) := sortBy_perm _ _
  have hgroups : ∀ groups : Dict String (List (String × String × ℤ)),
      ((groups.map fun item ↦ (item.1, sortBy Prod.snd (item.2.map fun node ↦
        (node.1, node.2.2)))).flatMap Prod.snd).Perm
          ((groups.flatMap Prod.snd).map fun x ↦ (x.1, x.2.2)) := by
    intro groups
    induction groups with
    | nil => exact List.Perm.refl _
    | cons item groups ih =>
      rw [List.map_cons, List.flatMap_cons, List.flatMap_cons, List.map_append]
      exact (sortBy_perm _ _).append ih
  exact (hsorted.flatMap_right _).trans ((hgroups _).trans ((groupBy_perm _ _).map _))

theorem domainOf_of_mem {d nid : String} {r : ℤ} (hwf : WellFormed topology)
    (h : (nid, d, r) ∈ topology) : domainOf topology nid = some d := by
  rw [domainOf, get_of_mem hwf.keys h]
  rfl

/-- The selected nodes as they are taken from the domains. -/
structure Segmented (topology : Topology) (segmentSize : ℕ) (parts : List (List String)) :
    Prop where
  nodup : parts.flatten.Nodup
  keys : parts.flatten ⊆ topology.map Prod.fst
  known : ∀ nid ∈ parts.flatten, ∃ d ≠ nvlinkDomainUnknown, domainOf topology nid = some d
  dvd : ∀ p ∈ parts, segmentSize ∣ p.length ∧ Uniform (domainOf topology) p

theorem segmented_of_parts (hwf : WellFormed topology)
    (h : List.Forall₂ (fun p item ↦ p <+: item.2 ∧ segmentSize ∣ p.length) parts
      (sortedDomains topology)) :
    Segmented topology segmentSize (parts.map fun p ↦ p.map Prod.fst) := by
  have hflatten : (parts.map fun p ↦ p.map Prod.fst).flatten = parts.flatten.map Prod.fst := by
    rw [List.map_flatten]
  have hsub := (flatten_sublist h).map Prod.fst
  have hperm := (nodes_perm topology).map Prod.fst
  rw [List.map_map] at hperm
  have hmem : ∀ nid ∈ parts.flatten.map Prod.fst,
      ∃ x ∈ topology, x.2.1 ≠ nvlinkDomainUnknown ∧ x.1 = nid := by
    intro nid hnid
    obtain ⟨x, hx, rfl⟩ := List.mem_map.mp (hperm.subset (hsub.subset hnid))
    obtain ⟨hx, hne⟩ := List.mem_filter.mp hx
    exact ⟨x, hx, by simpa using hne, rfl⟩
  refine ⟨?_, ?_, ?_, ?_⟩
  · rw [hflatten]
    refine (hperm.nodup_iff.mpr ?_).sublist hsub
    exact hwf.keys.sublist (List.filter_sublist.map Prod.fst)
  · rw [hflatten]
    intro nid hnid
    obtain ⟨x, hx, -, rfl⟩ := hmem nid hnid
    exact List.mem_map_of_mem hx
  · rw [hflatten]
    intro nid hnid
    obtain ⟨⟨nid, d, r⟩, hx, hne, rfl⟩ := hmem nid hnid
    exact ⟨d, hne, domainOf_of_mem hwf hx⟩
  · intro q hq
    obtain ⟨p, hp, rfl⟩ := List.mem_map.mp hq
    obtain ⟨⟨d, nodes⟩, hitem, hbegins, hdvd⟩ := Tensors.exists_of_mem_left h hp
    refine ⟨by rw [List.length_map]; exact hdvd, ?_⟩
    have hdomain : ∀ nid ∈ p.map Prod.fst, domainOf topology nid = some d := by
      intro nid hnid
      obtain ⟨node, hnode, rfl⟩ := List.mem_map.mp hnid
      have hnodes := (mem_domainNodes ((sortBy_perm _ _).subset hitem)).2
      obtain ⟨⟨nid, d', r⟩, hx, rfl⟩ := List.mem_map.mp
        (hnodes.subset (hbegins.subset hnode))
      obtain ⟨hmem, hd⟩ := List.mem_filter.mp hx
      have hd' : d' = d := by simpa using hd
      exact (domainOf_of_mem hwf hmem).trans (congrArg some hd')
    intro x hx y hy
    rw [hdomain x hx, hdomain y hy]

theorem inOneDomain_of_uniform {ids : List String} (hu : Uniform (domainOf topology) ids)
    (hk : ∀ nid ∈ ids, ∃ d ≠ nvlinkDomainUnknown, domainOf topology nid = some d) :
    InOneDomain topology ids := by
  cases ids with
  | nil => exact ⟨"", by decide, fun _ h ↦ absurd h List.not_mem_nil⟩
  | cons nid ids =>
    obtain ⟨d, hd, hnid⟩ := hk nid List.mem_cons_self
    exact ⟨d, hd, fun x hx ↦ (hu x hx nid List.mem_cons_self).trans hnid⟩

theorem selected_perm {keys selected : List String} (hkeys : keys.Nodup)
    (hselected : selected.Nodup) (hsub : selected ⊆ keys) :
    (selected ++ keys.filter (· ∉ selected)).Perm keys := by
  have hin : (keys.filter (· ∈ selected)).Perm selected :=
    (List.perm_ext_iff_of_nodup (hkeys.filter _) hselected).mpr fun nid ↦ by
      simpa using fun h ↦ hsub h
  refine (hin.symm.append_right _).trans ?_
  have hsplit := List.filter_append_perm (· ∈ selected) keys
  refine .trans (.of_eq ?_) hsplit
  simp

end Selection

section Infos

variable {bundleData : List Bundle} {infos : List BundleInfo}

def BundleInfo.bundle (x : BundleInfo) : Bundle := ⟨x.gpuId, x.domain, x.topoRank, x.nodeId⟩

theorem map_bundle_bundleInfos (bundleData : List Bundle) :
    (bundleInfos bundleData).map BundleInfo.bundle = bundleData := by
  rw [bundleInfos, List.map_map]
  exact List.zipIdx_map_fst 0 bundleData

theorem map_idx_bundleInfos (bundleData : List Bundle) :
    (bundleInfos bundleData).map (·.idx) = List.range bundleData.length := by
  rw [bundleInfos, List.map_map, List.range_eq_range']
  exact List.zipIdx_map_snd 0 bundleData

theorem getElem?_idx {x : BundleInfo} (h : x ∈ bundleInfos bundleData) :
    bundleData[x.idx]? = some x.bundle := by
  obtain ⟨⟨b, i⟩, hb, rfl⟩ := List.mem_map.mp h
  exact List.mem_zipIdx_iff_getElem?.mp hb

theorem filterMap_idx {l : List BundleInfo} (h : l ⊆ bundleInfos bundleData) :
    (l.map (·.idx)).filterMap (bundleData[·]?) = l.map BundleInfo.bundle := by
  rw [List.filterMap_map, ← List.filterMap_eq_map]
  exact List.filterMap_congr fun x hx ↦ getElem?_idx (h hx)

theorem domainToMinTopoRank_concat (infos : List BundleInfo) (x : BundleInfo) :
    domainToMinTopoRank (infos ++ [x]) =
      match Dict.get (domainToMinTopoRank infos) x.domain with
      | none => Dict.set (domainToMinTopoRank infos) x.domain x.topoRank
      | some rank =>
        if x.topoRank < rank then Dict.set (domainToMinTopoRank infos) x.domain x.topoRank
        else domainToMinTopoRank infos := by
  rw [domainToMinTopoRank, List.foldl_append]
  rfl

/-- The rank that is kept for a domain is the rank of one of its bundles. -/
theorem exists_of_domainToMinTopoRank {d : String} {r : ℤ}
    (h : Dict.get (domainToMinTopoRank infos) d = some r) :
    ∃ x ∈ infos, x.domain = d ∧ x.topoRank = r := by
  induction infos using List.reverseRecOn with
  | nil => exact absurd h nofun
  | append_singleton infos x ih =>
    have hold : Dict.get (domainToMinTopoRank infos) d = some r →
        ∃ y ∈ infos ++ [x], y.domain = d ∧ y.topoRank = r := by
      intro hget
      obtain ⟨y, hy, hyd⟩ := ih hget
      exact ⟨y, List.mem_append_left _ hy, hyd⟩
    have hnew : Dict.get (Dict.set (domainToMinTopoRank infos) x.domain x.topoRank) d = some r →
        ∃ y ∈ infos ++ [x], y.domain = d ∧ y.topoRank = r := by
      intro hget
      rw [Dict.get_set] at hget
      split_ifs at hget with hd
      · exact ⟨x, by simp, hd.symm, Option.some.inj hget⟩
      · exact hold hget
    rw [domainToMinTopoRank_concat] at h
    cases hx : Dict.get (domainToMinTopoRank infos) x.domain with
    | none =>
      rw [hx] at h
      exact hnew h
    | some rank =>
      rw [hx] at h
      simp only at h
      split_ifs at h
      · exact hnew h
      · exact hold h

theorem isSome_domainToMinTopoRank {x : BundleInfo} (h : x ∈ infos) :
    (Dict.get (domainToMinTopoRank infos) x.domain).isSome := by
  induction infos using List.reverseRecOn with
  | nil => exact absurd h List.not_mem_nil
  | append_singleton infos y ih =>
    rw [domainToMinTopoRank_concat]
    have hkeep : ∀ r, x ∈ infos ∨ x = y →
        (Dict.get (Dict.set (domainToMinTopoRank infos) y.domain r) x.domain).isSome := by
      intro r hx
      rw [Dict.get_set]
      split_ifs with hd
      · rfl
      · rcases hx with hx | rfl
        · exact ih hx
        · exact absurd rfl hd
    have hx : x ∈ infos ∨ x = y := by simpa using h
    cases hy : Dict.get (domainToMinTopoRank infos) y.domain with
    | none => exact hkeep _ hx
    | some rank =>
      simp only
      split_ifs
      · exact hkeep _ hx
      · rcases hx with hx | rfl
        · exact ih hx
        · rw [hy]
          rfl

theorem exists_minTopoRank {x : BundleInfo} (h : x ∈ infos) :
    ∃ y ∈ infos, y.domain = x.domain ∧ y.topoRank = minTopoRank infos x.domain := by
  obtain ⟨r, hr⟩ := Option.isSome_iff_exists.mp (isSome_domainToMinTopoRank h)
  obtain ⟨y, hy, hyd, hyr⟩ := exists_of_domainToMinTopoRank hr
  refine ⟨y, hy, hyd, ?_⟩
  rw [hyr, minTopoRank, hr]
  rfl

end Infos

section Placement

variable {topology : Topology} {segmentSize gpusPerNode : ℕ} {bundleData : List Bundle}
  {placement : List String} {infos infos' : List BundleInfo}

/-- What the sort rests on, whatever the order of the bundles. -/
structure PlacedInfos (topology : Topology) (segmentSize gpusPerNode : ℕ)
    (placement : List String) (infos : List BundleInfo) : Prop where
  distinct : placement.Nodup
  dvd : ∀ d, segmentSize ∣ placement.countP (domainOf topology · = some d)
  known : ∀ nid ∈ placement, ∃ d ≠ nvlinkDomainUnknown, domainOf topology nid = some d
  node : ∀ x ∈ infos, x.nodeId ∈ placement ∧
    Dict.get topology x.nodeId = some (x.domain, x.topoRank)
  count : ∀ nid ∈ placement, infos.countP (·.nodeId = nid) = gpusPerNode

/-- The constraints that pin the selected nodes to their domains. -/
def pins (topology : Topology) (selected : List String) : List (Dict String ℚ) :=
  selected.map fun nid ↦ [((domainOf topology nid).getD nvlinkDomainUnknown, (1 / 1000 : ℚ))]

theorem map_domainOf_of_pinned {selected : List String}
    (hknown : ∀ nid ∈ selected, ∃ d ≠ nvlinkDomainUnknown, domainOf topology nid = some d)
    (h : List.Forall₂ (fun nid constraint ↦ ∃ d amount, constraint = [(d, amount)] ∧
      domainOf topology nid = some d) placement (pins topology selected)) :
    placement.map (domainOf topology) = selected.map (domainOf topology) := by
  induction selected generalizing placement with
  | nil =>
    obtain rfl := List.forall₂_nil_right_iff.mp h
    rfl
  | cons nid selected ih =>
    obtain ⟨nid', placement, hpin, hrest, rfl⟩ := List.forall₂_cons_right_iff.mp h
    obtain ⟨d, amount, hconstraint, hd⟩ := hpin
    obtain ⟨d', -, hd'⟩ := hknown nid List.mem_cons_self
    simp only [hd', Option.getD_some, List.cons.injEq, Prod.mk.injEq] at hconstraint
    rw [List.map_cons, List.map_cons, hd, hd', ← hconstraint.1.1,
      ih (fun x hx ↦ hknown x (List.mem_cons_of_mem _ hx)) hrest]

theorem Placed.placedInfos {parts : List (List String)}
    (hparts : Segmented topology segmentSize parts)
    (h : Placed topology (pins topology parts.flatten) gpusPerNode bundleData placement) :
    PlacedInfos topology segmentSize gpusPerNode placement (bundleInfos bundleData) where
  distinct := h.distinct
  dvd := by
    intro d
    have hcount : ∀ ids : List String, ids.countP (domainOf topology · = some d) =
        (ids.map (domainOf topology)).countP (· = some d) := by
      intro ids
      rw [List.countP_map]
      rfl
    rw [hcount, map_domainOf_of_pinned hparts.known h.pinned, ← hcount]
    exact dvd_countP_flatten hparts.dvd (some d)
  known := by
    intro nid hnid
    have hmem : domainOf topology nid ∈ parts.flatten.map (domainOf topology) :=
      map_domainOf_of_pinned hparts.known h.pinned ▸ List.mem_map_of_mem hnid
    obtain ⟨nid', hnid', heq⟩ := List.mem_map.mp hmem
    obtain ⟨d, hd, hdomain⟩ := hparts.known nid' hnid'
    exact ⟨d, hd, heq ▸ hdomain⟩
  node := by
    intro x hx
    have hbundle : x.bundle ∈ bundleData := by
      rw [← map_bundle_bundleInfos bundleData]
      exact List.mem_map_of_mem hx
    exact h.bundles _ hbundle
  count := by
    intro nid hnid
    rw [← h.count nid hnid]
    conv_rhs => rw [← map_bundle_bundleInfos bundleData, List.countP_map]
    rfl

namespace PlacedInfos

theorem perm (h : PlacedInfos topology segmentSize gpusPerNode placement infos)
    (hperm : infos'.Perm infos) :
    PlacedInfos topology segmentSize gpusPerNode placement infos' where
  distinct := h.distinct
  dvd := h.dvd
  known := h.known
  node := fun x hx ↦ h.node x (hperm.subset hx)
  count := fun nid hnid ↦ (hperm.countP_eq _).trans (h.count nid hnid)

variable (h : PlacedInfos topology segmentSize gpusPerNode placement infos)

include h

theorem domainOf_eq {x : BundleInfo} (hx : x ∈ infos) :
    domainOf topology x.nodeId = some x.domain := by
  rw [domainOf, (h.node x hx).2]
  rfl

theorem domain_ne {x : BundleInfo} (hx : x ∈ infos) : x.domain ≠ nvlinkDomainUnknown := by
  obtain ⟨d, hd, hdomain⟩ := h.known _ (h.node x hx).1
  rw [h.domainOf_eq hx] at hdomain
  exact Option.some.inj hdomain ▸ hd

theorem eq_of_node {x y : BundleInfo} (hx : x ∈ infos) (hy : y ∈ infos)
    (hnode : x.nodeId = y.nodeId) : x.domain = y.domain ∧ x.topoRank = y.topoRank := by
  have hget := (h.node x hx).2
  rw [hnode, (h.node y hy).2] at hget
  exact ⟨(congrArg Prod.fst (Option.some.inj hget)).symm,
    (congrArg Prod.snd (Option.some.inj hget)).symm⟩

theorem node_eq_of_rank (hwf : WellFormed topology) {x y : BundleInfo} (hx : x ∈ infos)
    (hy : y ∈ infos) (hrank : x.topoRank = y.topoRank) : x.nodeId = y.nodeId :=
  congrArg Prod.fst (hwf.ranks _ (Dict.mem_of_get (h.node x hx).2) _
    (Dict.mem_of_get (h.node y hy).2) (h.domain_ne hx) (h.domain_ne hy) hrank)

theorem countP_domain (d : String) : infos.countP (·.domain = d) =
    placement.countP (domainOf topology · = some d) * gpusPerNode := by
  rw [List.countP_eq_length_filter, List.countP_eq_length_filter]
  refine @length_eq_of_classes _ _ _ (·.nodeId) _ _ _ (h.distinct.filter _) ?_ ?_
  · intro x hx
    obtain ⟨hx, hd⟩ := List.mem_filter.mp hx
    refine List.mem_filter.mpr ⟨(h.node x hx).1, ?_⟩
    rw [h.domainOf_eq hx]
    simpa using hd
  · intro nid hnid
    obtain ⟨hnid, hd⟩ := List.mem_filter.mp hnid
    rw [← h.count nid hnid, List.countP_filter]
    refine List.countP_congr fun x hx ↦ ?_
    have hdomain : x.nodeId = nid → x.domain = d := by
      rintro rfl
      rw [h.domainOf_eq hx] at hd
      simpa using hd
    simpa using hdomain

theorem exists_of_mem (hpos : 0 < gpusPerNode) {nid : String} (hnid : nid ∈ placement) :
    ∃ x ∈ infos, x.nodeId = nid := by
  have hcount := h.count nid hnid
  obtain ⟨x, hx, heq⟩ := List.countP_pos_iff.mp (hcount ▸ hpos)
  exact ⟨x, hx, by simpa using heq⟩

theorem nodes_of_domain (hpos : 0 < gpusPerNode) (d : String) :
    ((infos.filter (·.domain = d)).map (·.nodeId)).dedup.length =
      placement.countP (domainOf topology · = some d) := by
  rw [List.countP_eq_length_filter]
  refine List.Perm.length_eq ((List.perm_ext_iff_of_nodup (List.nodup_dedup _)
    (h.distinct.filter _)).mpr fun nid ↦ ?_)
  rw [List.mem_dedup, List.mem_map, List.mem_filter]
  constructor
  · rintro ⟨x, hx, rfl⟩
    obtain ⟨hx, hd⟩ := List.mem_filter.mp hx
    refine ⟨(h.node x hx).1, ?_⟩
    rw [h.domainOf_eq hx]
    simpa using hd
  · rintro ⟨hnid, hd⟩
    obtain ⟨x, hx, rfl⟩ := h.exists_of_mem hpos hnid
    rw [h.domainOf_eq hx] at hd
    exact ⟨x, List.mem_filter.mpr ⟨hx, by simpa using hd⟩, rfl⟩

/-- Complete segments are all that there is, so that no bundle is discarded. -/
theorem filteredBundles_perm (hpos : 0 < gpusPerNode) :
    (filteredBundles segmentSize gpusPerNode infos).Perm infos := by
  have hkept : ∀ item ∈ groupBy (fun x : BundleInfo ↦ x.domain) infos,
      (keptBundles segmentSize gpusPerNode item.2).Perm item.2 := by
    rintro ⟨d, bundles⟩ hitem
    obtain ⟨-, rfl⟩ := mem_groupBy hitem
    have hlength := h.countP_domain d
    rw [List.countP_eq_length_filter] at hlength
    rw [keptBundles, h.nodes_of_domain hpos, Nat.div_mul_cancel (h.dvd d), ← hlength,
      List.take_of_length_le]
    · exact sortBy_perm _ _
    · exact (sortBy_perm _ _).length_eq.le
  exact (List.Perm.flatMap_left _ hkept).trans (groupBy_perm _ _)

theorem domain_eq_of_minTopoRank (hwf : WellFormed topology) {x y : BundleInfo} (hx : x ∈ infos)
    (hy : y ∈ infos) (hmin : minTopoRank infos x.domain = minTopoRank infos y.domain) :
    x.domain = y.domain := by
  obtain ⟨x', hx', hxd, hxr⟩ := exists_minTopoRank hx
  obtain ⟨y', hy', hyd, hyr⟩ := exists_minTopoRank hy
  have hnode := h.node_eq_of_rank hwf hx' hy' (hxr.trans (hmin.trans hyr.symm))
  rw [← hxd, ← hyd]
  exact (h.eq_of_node hx' hy' hnode).1

end PlacedInfos

end Placement

section Ranks

variable {topology : Topology} {segmentSize gpusPerNode : ℕ} {bundleData : List Bundle}
  {placement : List String} {infos : List BundleInfo} {constraints : List (Dict String ℚ)}

def nodeKey (infos : List BundleInfo) (x : BundleInfo) : ℤ ×ₗ ℤ :=
  toLex (minTopoRank infos x.domain, x.topoRank)

theorem le_of_topologyKey_le {x y : BundleInfo} (h : topologyKey infos x ≤ topologyKey infos y) :
    nodeKey infos x ≤ nodeKey infos y ∧ (nodeKey infos x = nodeKey infos y → x.gpuId ≤ y.gpuId) := by
  simp only [topologyKey, nodeKey, Prod.Lex.toLex_le_toLex, toLex_inj, Prod.mk.injEq] at h ⊢
  rcases h with hlt | ⟨heq, hlt | ⟨hrank, hgpu⟩⟩
  · exact ⟨.inl hlt, fun h ↦ absurd h.1 hlt.ne⟩
  · exact ⟨.inr ⟨heq, hlt.le⟩, fun h ↦ absurd h.2 hlt.ne⟩
  · exact ⟨.inr ⟨heq, hrank.le⟩, fun _ ↦ hgpu⟩

theorem le_of_nodeKey_le {x y : BundleInfo} (h : nodeKey infos x ≤ nodeKey infos y) :
    minTopoRank infos x.domain ≤ minTopoRank infos y.domain := by
  rcases Prod.Lex.toLex_le_toLex.mp h with hlt | ⟨heq, -⟩
  · exact hlt.le
  · exact heq.le

theorem block_map_idx {sorted : List BundleInfo} (hsub : sorted ⊆ bundleInfos bundleData)
    (m i : ℕ) : (block m (sorted.map (·.idx)) i).filterMap (bundleData[·]?) =
      (block m sorted i).map BundleInfo.bundle := by
  rw [block, ← map_slice]
  exact filterMap_idx (List.Subset.trans (block_sublist m sorted i).subset hsub)

namespace PlacedInfos

variable (hwf : WellFormed topology)
  (h : PlacedInfos topology segmentSize gpusPerNode placement infos)

include hwf h

theorem nodeKey_inj {x y : BundleInfo} (hx : x ∈ infos) (hy : y ∈ infos) :
    nodeKey infos x = nodeKey infos y ↔ x.nodeId = y.nodeId := by
  rw [nodeKey, nodeKey, toLex_inj, Prod.mk.injEq]
  constructor
  · rintro ⟨-, hrank⟩
    exact h.node_eq_of_rank hwf hx hy hrank
  · intro hnode
    obtain ⟨hdomain, hrank⟩ := h.eq_of_node hx hy hnode
    exact ⟨by rw [hdomain], hrank⟩

theorem uniform_nodes (i : ℕ) :
    Uniform (nodeKey infos) (block gpusPerNode (sortBy (topologyKey infos) infos) i) := by
  have hsorted := pairwise_sortBy (topologyKey infos) infos
  refine uniform_block_of_sorted (hsorted.imp fun hxy ↦ (le_of_topologyKey_le hxy).1)
    (dvd_countP_of_forall_mem fun x hx ↦ ?_) i
  have hmem : ∀ y ∈ sortBy (topologyKey infos) infos, y ∈ infos :=
    fun y hy ↦ (sortBy_perm _ _).subset hy
  have hcount : (sortBy (topologyKey infos) infos).countP (nodeKey infos · = nodeKey infos x) =
      infos.countP (·.nodeId = x.nodeId) := by
    rw [(sortBy_perm _ _).countP_eq]
    exact List.countP_congr fun y hy ↦ by simpa using h.nodeKey_inj hwf hy (hmem x hx)
  rw [hcount, h.count _ (h.node x (hmem x hx)).1]

theorem uniform_domains (i : ℕ) : Uniform (·.domain)
    (block (segmentSize * gpusPerNode) (sortBy (topologyKey infos) infos) i) := by
  have hsorted := pairwise_sortBy (topologyKey infos) infos
  have hmem : ∀ y ∈ sortBy (topologyKey infos) infos, y ∈ infos :=
    fun y hy ↦ (sortBy_perm _ _).subset hy
  have hkey : Uniform (fun x : BundleInfo ↦ minTopoRank infos x.domain)
      (block (segmentSize * gpusPerNode) (sortBy (topologyKey infos) infos) i) := by
    refine uniform_block_of_sorted
      (hsorted.imp fun hxy ↦ le_of_nodeKey_le (le_of_topologyKey_le hxy).1)
      (dvd_countP_of_forall_mem fun x hx ↦ ?_) i
    have hcount : (sortBy (topologyKey infos) infos).countP
        (fun y ↦ minTopoRank infos y.domain = minTopoRank infos x.domain) =
          infos.countP (·.domain = x.domain) := by
      rw [(sortBy_perm _ _).countP_eq]
      refine List.countP_congr fun y hy ↦ ?_
      have hiff : minTopoRank infos y.domain = minTopoRank infos x.domain ↔ y.domain = x.domain :=
        ⟨h.domain_eq_of_minTopoRank hwf hy (hmem x hx), fun heq ↦ by rw [heq]⟩
      simpa using hiff
    rw [hcount, h.countP_domain]
    exact Nat.mul_dvd_mul_right (h.dvd _) _
  intro x hx y hy
  have hblock := (block_sublist (segmentSize * gpusPerNode) (sortBy (topologyKey infos) infos) i)
  exact h.domain_eq_of_minTopoRank hwf (hmem x (hblock.subset hx)) (hmem y (hblock.subset hy))
    (hkey x hx y hy)

theorem aligned (hperm : infos.Perm (bundleInfos bundleData)) :
    Aligned topology segmentSize gpusPerNode bundleData
      ((sortBy (topologyKey infos) infos).map (·.idx)) := by
  have hsorted := (sortBy_perm (topologyKey infos) infos).trans hperm
  have hmem : ∀ {m i : ℕ} {x : BundleInfo},
      x ∈ block m (sortBy (topologyKey infos) infos) i → x ∈ infos :=
    fun hx ↦ (sortBy_perm _ _).subset ((block_sublist ..).subset hx)
  refine ⟨?_, fun i ↦ ?_, fun i ↦ ?_, fun i ↦ ?_⟩
  · rw [← map_idx_bundleInfos]
    exact hsorted.map _
  · rw [block_map_idx hsorted.subset]
    have huniform := h.uniform_nodes hwf i
    cases hb : block gpusPerNode (sortBy (topologyKey infos) infos) i with
    | nil => exact ⟨"", fun b hb ↦ absurd hb List.not_mem_nil⟩
    | cons x l =>
      refine ⟨x.nodeId, fun b hmap ↦ ?_⟩
      obtain ⟨y, hy, rfl⟩ := List.mem_map.mp hmap
      have hx : x ∈ block gpusPerNode (sortBy (topologyKey infos) infos) i :=
        hb ▸ List.mem_cons_self
      have hy : y ∈ block gpusPerNode (sortBy (topologyKey infos) infos) i := hb ▸ hy
      exact (h.nodeKey_inj hwf (hmem hy) (hmem hx)).mp (huniform y hy x hx)
  · rw [block_map_idx hsorted.subset, List.pairwise_map]
    have hpairs := (pairwise_sortBy (topologyKey infos) infos).sublist
      (block_sublist gpusPerNode _ i)
    refine hpairs.imp_of_mem fun hx hy hxy ↦ ?_
    exact (le_of_topologyKey_le hxy).2 (h.uniform_nodes hwf i _ hx _ hy)
  · rw [block_map_idx hsorted.subset, List.map_map]
    refine inOneDomain_of_uniform ?_ ?_
    · intro nid hnid nid' hnid'
      obtain ⟨x, hx, rfl⟩ := List.mem_map.mp hnid
      obtain ⟨y, hy, rfl⟩ := List.mem_map.mp hnid'
      have hdomain := h.uniform_domains hwf i x hx y hy
      exact (h.domainOf_eq (hmem hx)).trans
        ((congrArg some hdomain).trans (h.domainOf_eq (hmem hy)).symm)
    · intro nid hnid
      obtain ⟨x, hx, rfl⟩ := List.mem_map.mp hnid
      exact ⟨x.domain, h.domain_ne (hmem hx), h.domainOf_eq (hmem hx)⟩

end PlacedInfos

theorem Placed.pos (h : Placed topology constraints gpusPerNode bundleData placement)
    (hne : bundleData ≠ []) : 0 < gpusPerNode := by
  obtain ⟨b, hb⟩ := List.exists_mem_of_ne_nil _ hne
  rw [← h.count _ (h.bundles b hb).1]
  exact List.countP_pos_iff.mpr ⟨b, hb, by simp⟩

theorem aligned_nil : Aligned topology segmentSize gpusPerNode [] [] := by
  refine ⟨.refl _, fun i ↦ ⟨"", ?_⟩, fun i ↦ ?_, fun i ↦ ⟨"", by decide, ?_⟩⟩
  all_goals simp

theorem sortBundleIndices_placed (hwf : WellFormed topology) (hseg : 0 < segmentSize)
    {parts : List (List String)} (hparts : Segmented topology segmentSize parts)
    (h : Placed topology (pins topology parts.flatten) gpusPerNode bundleData placement) :
    ∃ indices, sortBundleIndicesByTopology bundleData (some segmentSize) (some gpusPerNode) =
      .ok indices ∧ Aligned topology segmentSize gpusPerNode bundleData indices := by
  cases hdata : bundleData with
  | nil => exact ⟨[], rfl, aligned_nil⟩
  | cons b bs =>
    rw [← hdata]
    have hpos := h.pos (hdata ▸ List.cons_ne_nil b bs)
    have hinfos := h.placedInfos hparts
    have hperm := hinfos.filteredBundles_perm hpos
    refine ⟨_, ?_, (hinfos.perm hperm).aligned hwf hperm⟩
    have hmem : b ∈ bundleData := hdata ▸ List.mem_cons_self
    obtain ⟨x, hx, hxb⟩ := List.mem_map.mp (map_bundle_bundleInfos bundleData ▸ hmem)
    have hknown : b.nvlinkDomain ≠ nvlinkDomainUnknown := hxb ▸ hinfos.domain_ne hx
    obtain ⟨k, rfl⟩ := Nat.exists_eq_succ_of_ne_zero hseg.ne'
    have hsome : ¬∀ b ∈ bundleData,
        b.nvlinkDomain = nvlinkDomainUnknown ∧ b.topoRank = topoRankUnknown :=
      fun hall ↦ hknown (hall b hmem).1
    rw [sortBundleIndicesByTopology, if_neg (by simp), if_neg (by simp [hdata])]
    simp only [if_neg hsome]
    rfl

end Ranks

section Topology

variable {topology : Topology} {segmentSize numNodes : ℕ}

theorem selectSegmentNodes_of_dvd (hseg : 0 < segmentSize) (hdvd : segmentSize ∣ numNodes) :
    ∃ parts, List.Forall₂ (fun p item ↦ p <+: item.2 ∧ segmentSize ∣ p.length) parts
        (sortedDomains topology) ∧
      parts.flatten.length =
        min (numNodes / segmentSize) (completeSegments topology segmentSize) * segmentSize ∧
      selectSegmentNodes topology segmentSize numNodes =
        if completeSegments topology segmentSize < numNodes / segmentSize then
          .error (.resourceInsufficient (numNodes / segmentSize) segmentSize numNodes
            ((sortedDomains topology).map fun item ↦ (item.1, item.2.length)))
        else .ok (parts.flatten.map Prod.fst,
          (topology.map Prod.fst).filter (· ∉ parts.flatten.map Prod.fst)) := by
  obtain ⟨parts, hparts, hfold, hlen⟩ := @foldl_takeSegments segmentSize (numNodes / segmentSize)
    (sortedDomains topology) [] 0 (Nat.zero_le _)
  rw [Nat.zero_add, sum_segments, List.nil_append] at hfold
  rw [Nat.zero_mul, Nat.zero_add, Nat.zero_add, sum_segments] at hlen
  refine ⟨parts, hparts, hlen, ?_⟩
  have hmod : ¬ numNodes % segmentSize ≠ 0 := not_not.mpr (Nat.mod_eq_zero_of_dvd hdvd)
  rw [selectSegmentNodes, if_neg hseg.ne', if_neg hmod]
  simp only [hfold]
  by_cases hlt : completeSegments topology segmentSize < numNodes / segmentSize
  · rw [if_pos (by omega), if_pos hlt]
  · rw [if_neg (by omega), if_neg hlt]

theorem getSortedBundleIndices_of_perm {bundleData : List Bundle} {gpusPerNode : ℕ}
    {indices : List ℕ} (hseg : 0 < segmentSize)
    (hsort : sortBundleIndicesByTopology bundleData (some segmentSize) (some gpusPerNode) =
      .ok indices) (hperm : indices.Perm (List.range bundleData.length)) :
    getSortedBundleIndices true [bundleData] (some segmentSize) gpusPerNode =
      .ok (some indices) := by
  have hlen : ¬ indices.length ≠ bundleData.length := by
    rw [hperm.length_eq, List.length_range]
    exact not_not.mpr rfl
  simp only [getSortedBundleIndices, Option.bind_some, if_neg hseg.ne', hsort, bind, Except.bind,
    if_neg hlen]

theorem prepareSegmentTopology_eq {selected remaining rest : List String}
    {constraints : List (Dict String ℚ)} {topology' : Topology}
    (hselect : selectSegmentNodes topology segmentSize numNodes = .ok (selected, remaining))
    (h : prepareSegmentTopology (some segmentSize) numNodes topology =
      .ok (some constraints, rest, topology')) :
    constraints = pins topology selected := by
  rw [prepareSegmentTopology] at h
  split_ifs at h with hknown
  · simp only [hselect, bind, Except.bind, Except.ok.injEq, Prod.mk.injEq, Option.some.injEq] at h
    exact h.1.symm
  · simp at h

/-- The nodes are selected in complete segments if the domains hold enough of them, and the
ranks follow the segments wherever in the pinned domains the bundles are placed. -/
theorem segment_topology (hwf : WellFormed topology) (hseg : 0 < segmentSize) :
    (¬ segmentSize ∣ numNodes →
      selectSegmentNodes topology segmentSize numNodes = .error .valueError) ∧
    (segmentSize ∣ numNodes →
      ((∃ summary, selectSegmentNodes topology segmentSize numNodes =
          .error (.resourceInsufficient (numNodes / segmentSize) segmentSize numNodes summary)) ↔
        completeSegments topology segmentSize < numNodes / segmentSize) ∧
      (numNodes / segmentSize ≤ completeSegments topology segmentSize →
        ∃ selected remaining,
          selectSegmentNodes topology segmentSize numNodes = .ok (selected, remaining) ∧
          selected.length = numNodes ∧
          (selected ++ remaining).Perm (topology.map Prod.fst) ∧
          (∀ i, InOneDomain topology (block segmentSize selected i)) ∧
          ∀ constraints, prepareSegmentTopology (some segmentSize) numNodes topology =
              .ok (some constraints, remaining, topology) →
            ∀ gpusPerNode bundleData placement,
              Placed topology constraints gpusPerNode bundleData placement →
              ∃ indices,
                sortBundleIndicesByTopology bundleData (some segmentSize) (some gpusPerNode) =
                  .ok indices ∧
                getSortedBundleIndices true [bundleData] (some segmentSize) gpusPerNode =
                  .ok (some indices) ∧
                Aligned topology segmentSize gpusPerNode bundleData indices)) := by
  refine ⟨fun hndvd ↦ ?_, fun hdvd ↦ ?_⟩
  · rw [selectSegmentNodes, if_neg hseg.ne',
      if_pos fun hmod ↦ hndvd (Nat.dvd_of_mod_eq_zero hmod)]
  obtain ⟨parts, hparts, hlen, hselect⟩ := @selectSegmentNodes_of_dvd topology _ _ hseg hdvd
  refine ⟨⟨?_, fun hlt ↦ ?_⟩, fun henough ↦ ?_⟩
  · rintro ⟨summary, herror⟩
    by_contra hge
    rw [hselect, if_neg hge] at herror
    exact absurd herror nofun
  · rw [hselect, if_pos hlt]
    exact ⟨_, rfl⟩
  · rw [if_neg (by omega)] at hselect
    have hsegmented := segmented_of_parts hwf hparts
    have hflatten : (parts.map fun p ↦ p.map Prod.fst).flatten = parts.flatten.map Prod.fst := by
      rw [List.map_flatten]
    have hnodup := hflatten ▸ hsegmented.nodup
    have hkeys := hflatten ▸ hsegmented.keys
    have hknown := hflatten ▸ hsegmented.known
    refine ⟨_, _, hselect, ?_, selected_perm hwf.keys hnodup hkeys, fun i ↦ ?_, ?_⟩
    · rw [List.length_map, hlen, min_eq_left henough, Nat.div_mul_cancel hdvd]
    · refine inOneDomain_of_uniform ?_ fun nid hnid ↦
        hknown nid ((block_sublist segmentSize _ i).subset hnid)
      rw [← hflatten]
      exact uniform_block_flatten hsegmented.dvd i
    · intro constraints hprepare gpusPerNode bundleData placement hplaced
      rw [prepareSegmentTopology_eq hselect hprepare, ← hflatten] at hplaced
      obtain ⟨indices, hsort, haligned⟩ := sortBundleIndices_placed hwf hseg hsegmented hplaced
      exact ⟨indices, hsort, getSortedBundleIndices_of_perm hseg hsort haligned.perm, haligned⟩

def twoDomains : Topology :=
  [("n4", "b", 4), ("n0", "a", 0), ("n2", "a", 2), ("n3", "b", 3), ("n1", "a", 1)]

theorem wellFormed_twoDomains : WellFormed twoDomains := ⟨by decide, by decide⟩

/-- The bundles of four nodes with two GPUs each, the node over taken for a selected one. -/
def twoDomainsBundles : List Bundle :=
  [⟨1, "a", 2, "n2"⟩, ⟨0, "b", 4, "n4"⟩, ⟨0, "a", 0, "n0"⟩, ⟨1, "b", 3, "n3"⟩,
    ⟨0, "a", 2, "n2"⟩, ⟨1, "a", 0, "n0"⟩, ⟨0, "b", 3, "n3"⟩, ⟨1, "b", 4, "n4"⟩]

theorem segment_topology_twoDomains : ∃ indices,
    getSortedBundleIndices true [twoDomainsBundles] (some 2) 2 = .ok (some indices) ∧
      Aligned twoDomains 2 2 twoDomainsBundles indices := by
  obtain ⟨selected, remaining, hselect, -, -, -, hsort⟩ :=
    ((segment_topology wellFormed_twoDomains (by decide : 0 < 2)).2 (by decide : 2 ∣ 4)).2
      (by decide)
  have hprepare : prepareSegmentTopology (some 2) 4 twoDomains =
      .ok (some (pins twoDomains selected), remaining, twoDomains) := by
    rw [prepareSegmentTopology, if_pos (by decide)]
    simp only [hselect, bind, Except.bind, pins]
  have hselected : selectSegmentNodes twoDomains 2 4 = .ok (["n0", "n1", "n3", "n4"], ["n2"]) := by
    have hgroups : groupBy (fun node : String × String × ℤ ↦ node.2.1)
        (twoDomains.filter (·.2.1 ≠ nvlinkDomainUnknown)) =
          [("b", [("n4", "b", 4), ("n3", "b", 3)]),
            ("a", [("n0", "a", 0), ("n2", "a", 2), ("n1", "a", 1)])] := by decide
    rw [selectSegmentNodes, sortedDomains, domainNodes, hgroups]
    simp [sortBy, List.mergeSort, List.MergeSort.Internal.splitInTwo, takeSegments, twoDomains]
  obtain ⟨rfl, rfl⟩ : selected = ["n0", "n1", "n3", "n4"] ∧ remaining = ["n2"] := by
    simpa using hselect.symm.trans hselected
  have hpin : List.Forall₂ (fun nid constraint ↦ ∃ d amount, constraint = [(d, amount)] ∧
      domainOf twoDomains nid = some d) ["n2", "n0", "n4", "n3"]
        (pins twoDomains ["n0", "n1", "n3", "n4"]) :=
    .cons ⟨"a", _, rfl, rfl⟩ (.cons ⟨"a", _, rfl, rfl⟩
      (.cons ⟨"b", _, rfl, rfl⟩ (.cons ⟨"b", _, rfl, rfl⟩ .nil)))
  obtain ⟨indices, -, hindices, haligned⟩ := hsort _ hprepare 2 twoDomainsBundles
    ["n2", "n0", "n4", "n3"] ⟨by decide, hpin, by decide, by decide⟩
  exact ⟨indices, hindices, haligned⟩

/-- A number of nodes that is no multiple of the segment size is rejected. -/
theorem not_segment_topology_of_not_dvd : ¬ ∀ (topology : Topology) (segmentSize numNodes : ℕ),
    WellFormed topology → 0 < segmentSize →
      (numNodes / segmentSize : ℚ) ≤ completeSegments topology segmentSize →
        ∃ selected remaining,
          selectSegmentNodes topology segmentSize numNodes = .ok (selected, remaining) := by
  intro hall
  have henough : ((3 : ℕ) / (2 : ℕ) : ℚ) ≤ completeSegments twoDomains 2 := by
    have htwo : completeSegments twoDomains 2 = 2 := by decide
    rw [htwo]
    norm_num
  obtain ⟨selected, remaining, hselect⟩ :=
    hall twoDomains 2 3 wellFormed_twoDomains (by decide) henough
  have herror : selectSegmentNodes twoDomains 2 3 = .error .valueError := rfl
  exact absurd (herror.symm.trans hselect) nofun

end Topology


end NemoRL.Distributed.VirtualCluster
