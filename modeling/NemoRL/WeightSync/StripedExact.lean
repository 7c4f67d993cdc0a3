import Mathlib
import NemoRL.Foundations.Positions
import NemoRL.WeightSync.Reshard
import NemoRL.WeightSync.Striped

namespace NemoRL.WeightSync

open Foundations.Boxes Foundations.RowMajor Foundations.Positions

/-- The stripes of a group with their receivers, the representative's first. -/
def DestinationGroup.stripes (g : DestinationGroup) : List (Box × ℕ) :=
  match g.region with
  | [] => []
  | dim0 :: rest => (orderedReplicaMembers g.representative g.members).zipIdx.map fun x ↦
      (stripeRegion dim0 rest ((dim0.2 - dim0.1) / g.members.length) x.2, x.1)

def DestinationGroup.targets (g : DestinationGroup) : List (Box × ℕ) :=
  if regionNumel g.region = 0 then []
  else if g.members.length = 1 then [(g.region, g.representative)] else g.stripes

/-- The first dimension of a group is cut into one stripe a member. -/
def DestinationGroup.Cut (g : DestinationGroup) (dim0 : ℕ × ℕ) (rest : Box) (stripe : ℕ) : Prop :=
  g.region = dim0 :: rest ∧ dim0.2 - dim0.1 = g.members.length * stripe ∧
    g.stripes = (orderedReplicaMembers g.representative g.members).zipIdx.map fun x ↦
      (stripeRegion dim0 rest stripe x.2, x.1)

section Targets

instance (g : DestinationGroup) : Decidable g.Active := inferInstanceAs (Decidable (_ ∧ _))

theorem push_spec {s s' : StripedTargets} {g : DestinationGroup} (hone : g.members ≠ [])
    (h : s.push g = some s') : s'.targets = s.targets ++ g.targets ∧
      s'.stripesByRank = s.stripesByRank ++
        (if g.Active then g.stripes.map Prod.swap else []) ∧
      (g.Active → ∃ dim0 rest stripe, g.Cut dim0 rest stripe) := by
  have hlen : 0 < g.members.length := List.length_pos_iff.mpr hone
  unfold StripedTargets.push at h
  split_ifs at h with hempty hsingle
  · obtain rfl := Option.some.inj h
    have hactive : ¬ g.Active := fun ha ↦ ha.2.ne' hempty
    simp [DestinationGroup.targets, hempty, hactive]
  · obtain rfl := Option.some.inj h
    have hactive : ¬ g.Active := fun ha ↦ by
      have := ha.1
      omega
    simp [DestinationGroup.targets, hempty, hsingle, hactive]
  · have hactive : g.Active := ⟨by omega, Nat.pos_of_ne_zero hempty⟩
    cases hregion : g.region with
    | nil =>
      rw [hregion] at h
      cases h
    | cons dim0 rest =>
      simp only [hregion] at h
      split_ifs at h with hdvd
      obtain rfl := Option.some.inj h
      have hmod : (dim0.2 - dim0.1) % g.members.length = 0 := not_not.mp hdvd
      have hstripes : g.stripes = (orderedReplicaMembers g.representative g.members).zipIdx.map
          fun x ↦ (stripeRegion dim0 rest ((dim0.2 - dim0.1) / g.members.length) x.2, x.1) := by
        rw [DestinationGroup.stripes, hregion]
      refine ⟨?_, ?_, fun _ ↦ ⟨dim0, rest, (dim0.2 - dim0.1) / g.members.length, hregion, ?_,
        hstripes⟩⟩
      · rw [DestinationGroup.targets, if_neg hempty, if_neg hsingle, hstripes]
      · rw [if_pos hactive, hstripes]
      · exact (Nat.mul_div_cancel' (Nat.dvd_of_mod_eq_zero hmod)).symm

theorem foldlM_push {groups : List DestinationGroup} (hone : ∀ g ∈ groups, g.members ≠ [])
    {s s' : StripedTargets} (h : groups.foldlM StripedTargets.push s = some s') :
    s'.targets = s.targets ++ groups.flatMap DestinationGroup.targets ∧
      s'.stripesByRank = s.stripesByRank ++ groups.flatMap (fun g ↦
        if g.Active then g.stripes.map Prod.swap else []) ∧
      ∀ g ∈ groups, g.Active → ∃ dim0 rest stripe, g.Cut dim0 rest stripe := by
  induction groups generalizing s with
  | nil =>
    obtain rfl : s = s' := Option.some.inj h
    simp
  | cons g groups ih =>
    obtain ⟨hg, hrest⟩ := List.forall_mem_cons.mp hone
    obtain ⟨s₁, hpush, hrun⟩ := Option.bind_eq_some_iff.mp h
    obtain ⟨htargets, hstripes, hcut⟩ := push_spec hg hpush
    obtain ⟨htargets', hstripes', hcut'⟩ := ih hrest hrun
    refine ⟨?_, ?_, List.forall_mem_cons.mpr ⟨hcut, hcut'⟩⟩
    · rw [htargets', htargets, List.append_assoc, List.flatMap_cons]
    · rw [hstripes', hstripes, List.append_assoc, List.flatMap_cons]

theorem buildStripedTargets_spec {groups : List DestinationGroup}
    (hone : ∀ g ∈ groups, g.members ≠ []) {targets : List (Box × ℕ)} {stripes : List (ℕ × Box)}
    (h : buildStripedTargets groups = some (targets, stripes)) :
    targets = groups.flatMap DestinationGroup.targets ∧
      stripes = groups.flatMap (fun g ↦ if g.Active then g.stripes.map Prod.swap else []) ∧
      ∀ g ∈ groups, g.Active → ∃ dim0 rest stripe, g.Cut dim0 rest stripe := by
  obtain ⟨s, hrun, hs⟩ := Option.bind_eq_some_iff.mp h
  obtain ⟨htargets, hstripes, hcut⟩ := foldlM_push hone hrun
  split_ifs at hs
  obtain ⟨rfl, rfl⟩ := Prod.mk.inj (Option.some.inj hs)
  exact ⟨by simpa using htargets, by simpa using hstripes, hcut⟩

end Targets

section Transfers

/-- A transfer that serves a target from a holder of a source region. -/
def Serves (sourceGroups : List (Box × List ℕ)) (target : Box × ℕ) (t : Transfer) : Prop :=
  t.receiver = target.2 ∧ ∃ s ∈ sourceGroups, t.source ∈ s.2 ∧
    intersect s.1 target.1 = some t.overlap

theorem getD_mod_mem {holders : List ℕ} (h : holders ≠ []) (use : ℕ) :
    holders.getD (use % holders.length) 0 ∈ holders := by
  have hlt : use % holders.length < holders.length := Nat.mod_lt _ (List.length_pos_iff.mpr h)
  rw [List.getD_eq_getElem?_getD, List.getElem?_eq_getElem hlt, Option.getD_some]
  exact List.getElem_mem hlt

/-- Whatever source a target is served by, its overlaps are those of the target. -/
theorem foldl_push_spec {sourceGroups : List (Box × List ℕ)}
    (hholders : ∀ s ∈ sourceGroups, s.2 ≠ []) (target : Box × ℕ) (st : StripedTransfers) :
    ∃ ts, (sourceGroups.foldl (StripedTransfers.push target) st).transfers = st.transfers ++ ts ∧
      ts.map (fun t ↦ (t.receiver, t.overlap)) =
        sourceGroups.filterMap (fun s ↦ (intersect s.1 target.1).map (target.2, ·)) ∧
      ∀ t ∈ ts, Serves sourceGroups target t := by
  induction sourceGroups generalizing st with
  | nil => exact ⟨[], by simp, rfl, by simp⟩
  | cons s sourceGroups ih =>
    obtain ⟨hs, hrest⟩ := List.forall_mem_cons.mp hholders
    have hmono : ∀ t, Serves sourceGroups target t → Serves (s :: sourceGroups) target t :=
      fun t ⟨hrec, s', hs', hserve⟩ ↦ ⟨hrec, s', List.mem_cons_of_mem _ hs', hserve⟩
    obtain ⟨ts, htransfers, hmap, hserve⟩ := ih hrest (st.push target s)
    rw [List.foldl_cons, htransfers]
    cases hoverlap : intersect s.1 target.1 with
    | none =>
      have hpush : st.push target s = st := by rw [StripedTransfers.push, hoverlap]
      refine ⟨ts, by rw [hpush], ?_, fun t ht ↦ hmono t (hserve t ht)⟩
      simpa [hoverlap] using hmap
    | some overlap =>
      obtain ⟨source, hsource, hpush⟩ : ∃ source ∈ s.2, (st.push target s).transfers =
          st.transfers ++ [⟨source, target.2, overlap⟩] := by
        by_cases hmem : target.2 ∈ s.2
        · exact ⟨target.2, hmem, by simp [StripedTransfers.push, hoverlap, hmem]⟩
        · exact ⟨_, getD_mod_mem hs (st.uses s.1), by
            simp [StripedTransfers.push, hoverlap, hmem]⟩
      refine ⟨⟨source, target.2, overlap⟩ :: ts, by rw [hpush, List.append_assoc]; rfl, ?_, ?_⟩
      · simpa [hoverlap] using hmap
      · refine List.forall_mem_cons.mpr ⟨?_, fun t ht ↦ hmono t (hserve t ht)⟩
        exact ⟨rfl, s, by simp, hsource, hoverlap⟩

theorem foldl_targets_spec {sourceGroups : List (Box × List ℕ)}
    (hholders : ∀ s ∈ sourceGroups, s.2 ≠ []) (targets : List (Box × ℕ)) (st : StripedTransfers) :
    ∃ ts, (targets.foldl (fun s target ↦ sourceGroups.foldl (StripedTransfers.push target) s)
        st).transfers = st.transfers ++ ts ∧
      ts.map (fun t ↦ (t.receiver, t.overlap)) = targetOverlaps sourceGroups targets ∧
      ∀ t ∈ ts, ∃ target ∈ targets, Serves sourceGroups target t := by
  induction targets generalizing st with
  | nil => exact ⟨[], by simp, rfl, by simp⟩
  | cons target targets ih =>
    obtain ⟨ts, htransfers, hmap, hserve⟩ := foldl_push_spec hholders target st
    obtain ⟨ts', htransfers', hmap', hserve'⟩ :=
      ih (sourceGroups.foldl (StripedTransfers.push target) st)
    refine ⟨ts ++ ts', ?_, ?_, fun t ht ↦ ?_⟩
    · rw [List.foldl_cons, htransfers', htransfers, List.append_assoc]
    · rw [List.map_append, hmap, hmap', targetOverlaps, targetOverlaps, List.flatMap_cons]
    · rcases List.mem_append.mp ht with ht | ht
      · exact ⟨target, by simp, hserve t ht⟩
      · obtain ⟨target', hmem, hs⟩ := hserve' t ht
        exact ⟨target', List.mem_cons_of_mem _ hmem, hs⟩

/-- The striped transfers are the overlaps of their targets, each from a holder. -/
theorem buildStripedTransfers_spec (srcRegions : ℕ → Box) (srcRanks : List ℕ)
    (targets : List (Box × ℕ)) :
    ((buildStripedTransfers srcRegions srcRanks targets).map fun t ↦ (t.receiver, t.overlap)).Perm
        (targetOverlaps (groupRanks srcRegions srcRanks) targets) ∧
      ∀ t ∈ buildStripedTransfers srcRegions srcRanks targets,
        ∃ target ∈ targets, Serves (groupRanks srcRegions srcRanks) target t := by
  obtain ⟨ts, htransfers, hmap, hserve⟩ := foldl_targets_spec
    (fun s (hs : s ∈ groupRanks srcRegions srcRanks) ↦ holders_ne_nil hs) targets
    ⟨[], fun _ ↦ 0⟩
  have hperm : (buildStripedTransfers srcRegions srcRanks targets).Perm ts := by
    rw [buildStripedTransfers, htransfers]
    exact sortTransfers_perm ts
  exact ⟨hmap ▸ hperm.map _, fun t ht ↦ hserve t (hperm.mem_iff.mp ht)⟩

end Transfers

section Memory

theorem toLocal_lt {b : Box} {x : List ℕ} (h : InBox b x) :
    List.Forall₂ (· < ·) (toLocal b x) (sizes b) := by
  unfold InBox at h
  induction h with
  | nil => exact .nil
  | @cons iv i _ _ hi _ ih =>
    have hlt : i - iv.1 < iv.2 - iv.1 := by omega
    exact .cons hlt ih

variable {dim0 : ℕ × ℕ} {rest : Box} {stripe n i : ℕ} {x : List ℕ}

def blockLength (rest : Box) (stripe : ℕ) : ℕ := stripe * (sizes rest).prod

theorem regionNumel_stripeRegion (dim0 : ℕ × ℕ) (rest : Box) (stripe i : ℕ) :
    regionNumel (stripeRegion dim0 rest stripe i) = blockLength rest stripe := by
  simp [regionNumel, sizes, stripeRegion, blockLength]

theorem size_pos {b : Box} (hpos : 0 < regionNumel b) : ∀ size ∈ sizes b, 0 < size := by
  intro size hsize
  by_contra hzero
  obtain rfl : size = 0 := by omega
  rw [regionNumel, List.prod_eq_zero hsize] at hpos
  exact lt_irrefl 0 hpos

theorem stripeRegion_within (hpos : 0 < regionNumel (dim0 :: rest))
    (hcut : dim0.2 - dim0.1 = n * stripe) (hi : i < n) :
    Within (stripeRegion dim0 rest stripe i) (dim0 :: rest) := by
  have hle : (i + 1) * stripe ≤ n * stripe := Nat.mul_le_mul_right stripe hi
  have hdim0 : 0 < dim0.2 - dim0.1 := size_pos hpos _ List.mem_cons_self
  rw [Nat.succ_mul] at hle
  have hstop : dim0.1 + i * stripe + stripe ≤ dim0.2 := by omega
  exact .cons ⟨Nat.le_add_right _ _, hstop⟩ (Within.refl rest)

/-- The stripes of a region are the equal blocks of its memory, in order, and an
entry lies in its block where it lies in its stripe. -/
theorem inBox_stripeRegion (hcut : dim0.2 - dim0.1 = n * stripe) (hx : InBox (dim0 :: rest) x) :
    ravel (sizes (dim0 :: rest)) (toLocal (dim0 :: rest) x) / blockLength rest stripe < n ∧
      (InBox (stripeRegion dim0 rest stripe i) x ↔
        ravel (sizes (dim0 :: rest)) (toLocal (dim0 :: rest) x) / blockLength rest stripe = i) ∧
      (InBox (stripeRegion dim0 rest stripe i) x →
        ravel (sizes (dim0 :: rest)) (toLocal (dim0 :: rest) x) % blockLength rest stripe =
          ravel (sizes (stripeRegion dim0 rest stripe i))
            (toLocal (stripeRegion dim0 rest stripe i) x)) := by
  cases hx with
  | @cons _ i₀ _ x hi hx =>
    have hlt := ravel_lt (toLocal_lt hx)
    set size := (sizes rest).prod with hsize
    set k := ravel (sizes rest) (toLocal rest x) with hk
    have hrow : ravel (sizes (dim0 :: rest)) (toLocal (dim0 :: rest) (i₀ :: x)) =
        (i₀ - dim0.1) * size + k := rfl
    have hrow' : ravel (sizes (stripeRegion dim0 rest stripe i))
        (toLocal (stripeRegion dim0 rest stripe i) (i₀ :: x)) =
        (i₀ - (dim0.1 + i * stripe)) * size + k := rfl
    have hstripe : 0 < stripe := by
      by_contra hzero
      obtain rfl : stripe = 0 := by omega
      omega
    have hdiv : ((i₀ - dim0.1) * size + k) / blockLength rest stripe = (i₀ - dim0.1) / stripe := by
      rw [blockLength, Nat.mul_comm stripe, ← Nat.div_div_eq_div_mul, Nat.add_comm,
        Nat.add_mul_div_right _ _ (by omega), Nat.div_eq_of_lt hlt, Nat.zero_add]
    have hbox : InBox (stripeRegion dim0 rest stripe i) (i₀ :: x) ↔
        dim0.1 + i * stripe ≤ i₀ ∧ i₀ < dim0.1 + i * stripe + stripe :=
      List.forall₂_cons.trans (and_iff_left hx)
    rw [hrow, hrow', hdiv, hbox]
    refine ⟨?_, ?_, fun hin ↦ ?_⟩
    · rw [Nat.div_lt_iff_lt_mul hstripe]
      omega
    · rw [Nat.div_eq_iff hstripe]
      omega
    · obtain ⟨y, hy, rfl⟩ : ∃ y < stripe, i₀ = dim0.1 + i * stripe + y :=
        ⟨i₀ - (dim0.1 + i * stripe), by omega, by omega⟩
      have hsplit : dim0.1 + i * stripe + y - dim0.1 = i * stripe + y := by omega
      have hoffset : dim0.1 + i * stripe + y - (dim0.1 + i * stripe) = y := by omega
      have hbound : y * size + k < stripe * size := by
        calc y * size + k < (y + 1) * size := by
              rw [Nat.succ_mul]
              omega
          _ ≤ stripe * size := Nat.mul_le_mul_right size hy
      rw [hsplit, hoffset, Nat.add_mul, Nat.mul_assoc, Nat.add_assoc, blockLength, ← hsize,
        Nat.mul_add_mod', Nat.mod_eq_of_lt hbound]

theorem stridesAgree_append {l : List ℕ} (hpos : ∀ size ∈ l, 0 < size) (p : ℕ × ℕ) (k : ℕ) :
    stridesAgree (l.map (fun size ↦ (size, size)) ++ [p]) k k = true := by
  induction l generalizing k with
  | nil => simp [stridesAgree]
  | cons size l ih =>
    obtain ⟨hsize, hrest⟩ := List.forall_mem_cons.mp hpos
    rw [List.map_cons, List.cons_append, stridesAgree]
    split_ifs with h
    · simpa using ih hrest (k * size)
    · obtain rfl : size = 1 := by omega
      simpa using ih hrest k

theorem contiguous_stripeRegion (hpos : 0 < regionNumel (dim0 :: rest)) (stripe i : ℕ) :
    regionViewIsContiguous (stripeRegion dim0 rest stripe i) (dim0 :: rest) = true := by
  have hsizes : ∀ size ∈ (sizes rest).reverse, 0 < size := fun size hsize ↦
    size_pos hpos size (List.mem_cons_of_mem _ (List.mem_reverse.mp hsize))
  have hzip : (sizes (dim0 :: rest)).reverse.zip
      (sizes (stripeRegion dim0 rest stripe i)).reverse =
      (sizes rest).reverse.map (fun size ↦ (size, size)) ++
        [(dim0.2 - dim0.1, dim0.1 + i * stripe + stripe - (dim0.1 + i * stripe))] := by
    have hleft : (sizes (dim0 :: rest)).reverse = (sizes rest).reverse ++ [dim0.2 - dim0.1] := by
      simp [sizes]
    have hright : (sizes (stripeRegion dim0 rest stripe i)).reverse = (sizes rest).reverse ++
        [dim0.1 + i * stripe + stripe - (dim0.1 + i * stripe)] := by
      simp [sizes, stripeRegion]
    have hself : (sizes rest).reverse.zip (sizes rest).reverse =
        (sizes rest).reverse.map fun size ↦ (size, size) := List.zipWith_self
    rw [hleft, hright, List.zip_append rfl, hself]
    rfl
  rw [regionViewIsContiguous, hzip]
  exact stridesAgree_append hsizes _ 1

end Memory

section Plan

variable {src dst : Mesh} {srcPlacements dstPlacements : List Placement} {globalShape : List ℕ}
  {regions : ℕ → Box} {g : DestinationGroup}

theorem ne_nil_of_group (hg : g ∈ destinationGroups dst dstPlacements regions) : g.members ≠ [] :=
  List.ne_nil_of_mem (destinationGroup_spec hg).2

theorem targets_of_active (h : g.Active) : g.targets = g.stripes := by
  have hone : g.members.length ≠ 1 := h.1.ne'
  rw [DestinationGroup.targets, if_neg h.2.ne', if_neg hone]

theorem targets_of_not_active (hg : g ∈ destinationGroups dst dstPlacements regions)
    (h : ¬ g.Active) : regionNumel g.region = 0 ∧ g.targets = [] ∨
      (∀ r ∈ g.members, r = g.representative) ∧ g.targets = [(g.region, g.representative)] := by
  by_cases hzero : regionNumel g.region = 0
  · exact .inl ⟨hzero, if_pos hzero⟩
  · have hlen : ¬ 1 < g.members.length := fun hlt ↦ h ⟨hlt, Nat.pos_of_ne_zero hzero⟩
    have hone : g.members.length = 1 := by
      have := List.length_pos_iff.mpr (ne_nil_of_group hg)
      omega
    refine .inr ⟨fun r hr ↦ eq_representative hg hlen hr, ?_⟩
    rw [DestinationGroup.targets, if_neg hzero, if_pos hone]

variable {dim0 : ℕ × ℕ} {rest : Box} {stripe : ℕ}

theorem mem_stripes (hcut : g.Cut dim0 rest stripe) {target : Box × ℕ} :
    target ∈ g.stripes ↔ ∃ i, (orderedReplicaMembers g.representative g.members)[i]? =
      some target.2 ∧ target.1 = stripeRegion dim0 rest stripe i := by
  rw [hcut.2.2, List.mem_map]
  constructor
  · rintro ⟨⟨r, i⟩, hmem, rfl⟩
    exact ⟨i, List.mem_zipIdx_iff_getElem?.mp hmem, rfl⟩
  · rintro ⟨i, hi, htarget⟩
    exact ⟨(target.2, i), List.mem_zipIdx_iff_getElem?.mpr hi, Prod.ext htarget.symm rfl⟩

theorem map_snd_stripes (hcut : g.Cut dim0 rest stripe) :
    g.stripes.map Prod.snd = orderedReplicaMembers g.representative g.members := by
  rw [hcut.2.2, List.map_map]
  exact List.zipIdx_map_fst 0 _

theorem length_ordered (hg : g ∈ destinationGroups dst dstPlacements regions) :
    (orderedReplicaMembers g.representative g.members).length = g.members.length :=
  length_orderedReplicaMembers (nodup_members hg) (destinationGroup_spec hg).2

theorem mem_targets (hg : g ∈ destinationGroups dst dstPlacements regions)
    (hcut : g.Active → ∃ dim0 rest stripe, g.Cut dim0 rest stripe) {target : Box × ℕ}
    (h : target ∈ g.targets) : target.2 ∈ g.members ∧ Within target.1 g.region := by
  have hrep := (destinationGroup_spec hg).2
  by_cases hactive : g.Active
  · obtain ⟨dim0, rest, stripe, hcut⟩ := hcut hactive
    rw [targets_of_active hactive, mem_stripes hcut] at h
    obtain ⟨i, hi, htarget⟩ := h
    obtain ⟨hlt, _⟩ := List.getElem?_eq_some_iff.mp hi
    rw [length_ordered hg] at hlt
    refine ⟨(mem_orderedReplicaMembers hrep).mp (List.mem_of_getElem? hi), ?_⟩
    have hpos := hactive.2
    rw [hcut.1] at hpos
    rw [htarget, hcut.1]
    exact stripeRegion_within hpos hcut.2.1 hlt
  · rcases targets_of_not_active hg hactive with ⟨_, htargets⟩ | ⟨_, htargets⟩
    · simp [htargets] at h
    · rw [htargets, List.mem_singleton] at h
      subst h
      exact ⟨hrep, Within.refl _⟩

theorem nodup_receivers
    (hcut : ∀ g ∈ destinationGroups dst dstPlacements regions, g.Active →
      ∃ dim0 rest stripe, g.Cut dim0 rest stripe) :
    (((destinationGroups dst dstPlacements regions).flatMap DestinationGroup.targets).map
      Prod.snd).Nodup := by
  rw [List.map_flatMap, List.nodup_flatMap]
  refine ⟨fun g hg ↦ ?_, ?_⟩
  · by_cases hactive : g.Active
    · obtain ⟨dim0, rest, stripe, h⟩ := hcut g hg hactive
      rw [targets_of_active hactive, map_snd_stripes h]
      exact nodup_orderedReplicaMembers _ (nodup_members hg)
    · rcases targets_of_not_active hg hactive with ⟨_, htargets⟩ | ⟨_, htargets⟩
      · simp [htargets]
      · simp [htargets]
  · refine pairwise_destinationGroups.imp_of_mem fun {a b} ha hb hne ↦ ?_
    refine List.disjoint_left.mpr fun r hra hrb ↦ hne ?_
    obtain ⟨ta, hta, rfl⟩ := List.mem_map.mp hra
    obtain ⟨tb, htb, heq⟩ := List.mem_map.mp hrb
    have hmem := (mem_targets hb (hcut b hb) htb).1
    rw [heq] at hmem
    rw [group_unique ha hb (mem_targets ha (hcut a ha) hta).1 hmem]

end Plan

section Gather

variable {α : Type*} {dim0 : ℕ × ℕ} {rest : Box} {stripe : ℕ} {ranks : List ℕ}
  {whole : List ℕ → α} {own : Block α} {sendBuffer : ℕ → Option (Block α)}

theorem allgather_spec (hpos : 0 < regionNumel (dim0 :: rest))
    (hcut : dim0.2 - dim0.1 = ranks.length * stripe) (hown : own.shape = sizes (dim0 :: rest))
    (hsend : ∀ i r, ranks[i]? = some r → ∃ block, sendBuffer r = some block ∧
      Holds whole (stripeRegion dim0 rest stripe i) block) :
    ∃ out, allgather ranks sendBuffer own = some out ∧ Holds whole (dim0 :: rest) out := by
  have hfound : ∀ r ∈ ranks, ∃ block, sendBuffer r = some block := by
    intro r hr
    obtain ⟨i, hi⟩ := List.mem_iff_getElem?.mp hr
    obtain ⟨block, hblock, _⟩ := hsend i r hi
    exact ⟨block, hblock⟩
  obtain ⟨blocks, hblocks, _⟩ := exists_forall₂ hfound
  have hlen : ranks.length = blocks.length := hblocks.length_eq
  have hholds : ∀ i block, blocks[i]? = some block →
      Holds whole (stripeRegion dim0 rest stripe i) block := by
    intro i block hi
    obtain ⟨hlt, hget⟩ := List.getElem?_eq_some_iff.mp hi
    have hlt' : i < ranks.length := hlen ▸ hlt
    obtain ⟨block', hblock', hholds⟩ := hsend i _ (List.getElem?_eq_getElem hlt')
    have hpair := (List.forall₂_iff_get.mp hblocks).2 i hlt' hlt
    simp only [List.get_eq_getElem, hget] at hpair
    rwa [← Option.some.inj (hpair.symm.trans hblock')] at hholds
  have hprod : own.shape.prod = blocks.length * blockLength rest stripe := by
    rw [hown, sizes, List.map_cons, List.prod_cons, hcut, hlen, Nat.mul_assoc]
    rfl
  have hequal : ∀ block ∈ blocks, block.shape.prod * blocks.length = own.shape.prod := by
    intro block hmem
    obtain ⟨i, hi⟩ := List.mem_iff_getElem?.mp hmem
    rw [hprod, Nat.mul_comm, (hholds i block hi).1]
    exact congrArg _ (regionNumel_stripeRegion dim0 rest stripe i)
  have hnonempty : 0 < blocks.length := by
    by_contra hzero
    have hprod₀ : own.shape.prod = 0 := by
      rw [hprod, Nat.eq_zero_of_not_pos hzero, Nat.zero_mul]
    rw [hown] at hprod₀
    exact hpos.ne' hprod₀
  have hcount : own.shape.prod / blocks.length = blockLength rest stripe := by
    rw [hprod, Nat.mul_div_cancel_left _ hnonempty]
  rw [allgather, mapM_eq_some hblocks, Option.bind_eq_bind, Option.bind_some, if_pos hequal]
  refine ⟨_, rfl, hown, fun x hx ↦ ?_⟩
  obtain ⟨i, hi⟩ : ∃ i, ravel (sizes (dim0 :: rest)) (toLocal (dim0 :: rest) x) /
      blockLength rest stripe = i := ⟨_, rfl⟩
  obtain ⟨hlt, hin, hmod⟩ := inBox_stripeRegion (i := i) hcut hx
  rw [hi, hlen] at hlt
  have hbox := hin.mpr hi
  have hget : blocks[i]? = some blocks[i] := List.getElem?_eq_getElem hlt
  obtain ⟨hshape, hdata⟩ := hholds i _ hget
  simp only [hcount]
  simp only [hown, hi, hget]
  rw [hmod hbox, hshape, unravel_ravel (toLocal_lt hbox), hdata x hbox]

end Gather

section Striped

variable {src dst : Mesh} {srcPlacements dstPlacements : List Placement} {globalShape : List ℕ}

def stripedPlan (src : Mesh) (srcPlacements : List Placement) (dst : Mesh)
    (dstPlacements : List Placement) (globalShape : List ℕ) : StripedPlan :=
  let groups := destinationGroups dst dstPlacements (rankRegion dst dstPlacements globalShape)
  ⟨rankRegion src srcPlacements globalShape, rankRegion dst dstPlacements globalShape, groups,
    buildStripedTransfers (rankRegion src srcPlacements globalShape) src.ranks
      (groups.flatMap DestinationGroup.targets),
    groups.flatMap fun g ↦ if g.Active then g.stripes.map Prod.swap else []⟩

/-- A plan the striped geometry returns: every active group can be cut. -/
def Planned (src : Mesh) (srcPlacements : List Placement) (dst : Mesh)
    (dstPlacements : List Placement) (globalShape : List ℕ) (plan : StripedPlan) : Prop :=
  srcPlacements.length = src.shape.length ∧
    plan = stripedPlan src srcPlacements dst dstPlacements globalShape ∧
    ∀ g ∈ plan.groups, g.Active → ∃ dim0 rest stripe, g.Cut dim0 rest stripe

variable {plan : StripedPlan}

theorem Planned.mem_groups (h : Planned src srcPlacements dst dstPlacements globalShape plan)
    {g : DestinationGroup} (hg : g ∈ plan.groups) :
    g ∈ destinationGroups dst dstPlacements (rankRegion dst dstPlacements globalShape) := by
  obtain ⟨_, rfl, _⟩ := h
  exact hg

theorem Planned.regions (h : Planned src srcPlacements dst dstPlacements globalShape plan) :
    plan.srcRegions = rankRegion src srcPlacements globalShape ∧
      plan.dstRegions = rankRegion dst dstPlacements globalShape := by
  obtain ⟨_, rfl, _⟩ := h
  exact ⟨rfl, rfl⟩

theorem Planned.transfers (h : Planned src srcPlacements dst dstPlacements globalShape plan) :
    plan.transfers = buildStripedTransfers (rankRegion src srcPlacements globalShape) src.ranks
      (plan.groups.flatMap DestinationGroup.targets) := by
  obtain ⟨_, rfl, _⟩ := h
  rfl

theorem layouts_of_stripedGeometry
    (h : stripedGeometry src srcPlacements dst dstPlacements globalShape = .ok (some plan)) :
    validateLayout src srcPlacements globalShape.length "src" = .ok () ∧
      validateLayout dst dstPlacements globalShape.length "dst" = .ok () := by
  cases hsrc : validateLayout src srcPlacements globalShape.length "src" with
  | error e =>
    rw [stripedGeometry, planGeometry, hsrc] at h
    cases h
  | ok _ =>
    cases hdst : validateLayout dst dstPlacements globalShape.length "dst" with
    | error e =>
      rw [stripedGeometry, planGeometry, hsrc, hdst] at h
      cases h
    | ok _ => exact ⟨rfl, rfl⟩

theorem planned_of_stripedGeometry
    (h : stripedGeometry src srcPlacements dst dstPlacements globalShape = .ok (some plan)) :
    Planned src srcPlacements dst dstPlacements globalShape plan := by
  obtain ⟨hsrc, hdst⟩ := layouts_of_stripedGeometry h
  rw [stripedGeometry, planGeometry_eq hsrc hdst] at h
  simp only [bind, Except.bind] at h
  cases hbuild : buildStripedTargets
      (exactPlan src srcPlacements dst dstPlacements globalShape).groups with
  | none =>
    rw [hbuild] at h
    cases h
  | some built =>
    obtain ⟨targets, stripes⟩ := built
    simp only [hbuild] at h
    split_ifs at h with havoid
    · obtain rfl := Option.some.inj (Except.ok.inj h)
      obtain ⟨rfl, rfl, hcut⟩ := buildStripedTargets_spec (fun g hg ↦ ne_nil_of_group hg) hbuild
      exact ⟨length_of_validateLayout hsrc, rfl, hcut⟩
    · cases h

def StripedPlan.targets (plan : StripedPlan) : List (Box × ℕ) :=
  plan.groups.flatMap DestinationGroup.targets

theorem targets_within (hplan : Planned src srcPlacements dst dstPlacements globalShape plan)
    {target : Box × ℕ} (h : target ∈ plan.targets) :
    target.2 ∈ dst.ranks ∧ Within target.1 (rankRegion dst dstPlacements globalShape target.2) := by
  obtain ⟨g, hg, htarget⟩ := List.mem_flatMap.mp h
  have hgroup := hplan.mem_groups hg
  obtain ⟨hmem, hwithin⟩ := mem_targets hgroup (hplan.2.2 g hg) htarget
  obtain ⟨hrank, hregion⟩ := (mem_members hgroup).mp hmem
  exact ⟨hrank, hregion ▸ hwithin⟩

theorem routes_stripedPlan (hplan : Planned src srcPlacements dst dstPlacements globalShape plan) :
    Routes src.ranks dst.ranks plan.srcRegions plan.dstRegions plan.transfers := by
  intro t ht
  rw [hplan.transfers] at ht
  obtain ⟨target, htarget, hrec, s, hs, hsource, ho⟩ := (buildStripedTransfers_spec _ _ _).2 t ht
  obtain ⟨hrank, hwithin⟩ := targets_within hplan htarget
  obtain ⟨hsrc, hregion⟩ := (mem_holders hs).mp hsource
  have hlen : s.1.length = target.1.length := by
    rw [length_sourceGroup hs, hwithin.length_eq, length_rankRegion]
  obtain ⟨hleft, hright⟩ := intersect_within hlen ho
  rw [hplan.regions.1, hplan.regions.2, hrec, hregion]
  exact ⟨hsrc, hrank, hleft, hright.trans hwithin⟩

theorem stripedPlan_once (hplan : Planned src srcPlacements dst dstPlacements globalShape plan)
    {target : Box × ℕ} (h : target ∈ plan.targets) {x : List ℕ} (hx : InBox target.1 x) :
    plan.transfers.countP (fun t ↦ t.receiver = target.2 ∧ InBox t.overlap x) = 1 := by
  have hboxes : ∀ target ∈ plan.targets, target.1.length = globalShape.length := by
    intro target ht
    rw [(targets_within hplan ht).2.length_eq, length_rankRegion]
  have hbound := lt_of_inBox_rankRegion ((targets_within hplan h).2.inBox hx)
  obtain ⟨hlen, rfl, hcut⟩ := hplan
  have hcount := countP_targetOverlaps hlen (nodup_receivers hcut) hboxes h hx hbound
  rw [← hcount, ← (buildStripedTransfers_spec _ _ _).1.countP_eq, List.countP_map]
  rfl

theorem stripeOf_of_active (hplan : Planned src srcPlacements dst dstPlacements globalShape plan)
    {g : DestinationGroup} (hg : g ∈ plan.groups) (hactive : g.Active) {dim0 : ℕ × ℕ} {rest : Box}
    {stripe : ℕ} (h : g.Cut dim0 rest stripe) {i r : ℕ}
    (hi : (orderedReplicaMembers g.representative g.members)[i]? = some r) :
    plan.stripeOf r = some (stripeRegion dim0 rest stripe i) := by
  obtain ⟨_, rfl, hcut⟩ := hplan
  set plan := stripedPlan src srcPlacements dst dstPlacements globalShape
  have hmem : (r, stripeRegion dim0 rest stripe i) ∈ plan.stripesByRank := by
    refine List.mem_flatMap.mpr ⟨g, hg, ?_⟩
    rw [if_pos hactive, List.mem_map]
    exact ⟨(stripeRegion dim0 rest stripe i, r), (mem_stripes h).mpr ⟨i, hi, rfl⟩, rfl⟩
  cases hfind : plan.stripesByRank.find? (·.1 = r) with
  | none =>
    have hnone := List.find?_eq_none.mp hfind _ hmem
    simp at hnone
  | some found =>
    obtain ⟨g', hg', hfound⟩ := List.mem_flatMap.mp (List.mem_of_find?_eq_some hfind)
    have hr : found.1 = r := by simpa using List.find?_some hfind
    split_ifs at hfound with hactive'
    · obtain ⟨target, htarget, rfl⟩ := List.mem_map.mp hfound
      have hrec : target.2 = r := hr
      have hmem' := (mem_targets hg' (hcut g' hg') (targets_of_active hactive' ▸ htarget)).1
      have hmemg := (mem_orderedReplicaMembers (destinationGroup_spec hg).2).mp
        (List.mem_of_getElem? hi)
      obtain rfl := group_unique hg hg' hmemg (hrec ▸ hmem')
      obtain ⟨j, hj, hbox⟩ := (mem_stripes h).mp htarget
      have hnd := nodup_orderedReplicaMembers g.representative (nodup_members hg)
      rw [hrec, ← hi] at hj
      obtain rfl := (List.getElem?_inj (List.getElem?_eq_some_iff.mp hi).1 hnd).mp hj.symm
      rw [StripedPlan.stripeOf, hfind, Option.map_some, ← hbox]
      rfl
    · simp at hfound

/-- A rank with a stripe is the receiver of that stripe, a member of an active group. -/
theorem stripeOf_eq_some (hplan : Planned src srcPlacements dst dstPlacements globalShape plan)
    {r : ℕ} {stripe : Box} (h : plan.stripeOf r = some stripe) :
    ∃ g ∈ plan.groups, g.Active ∧ r ∈ g.members ∧ (stripe, r) ∈ g.targets := by
  obtain ⟨_, rfl, hcut⟩ := hplan
  obtain ⟨found, hfind, rfl⟩ := Option.map_eq_some_iff.mp h
  obtain ⟨g, hg, hmem⟩ := List.mem_flatMap.mp (List.mem_of_find?_eq_some hfind)
  have hr : found.1 = r := by simpa using List.find?_some hfind
  split_ifs at hmem with hactive
  · obtain ⟨target, htarget, rfl⟩ := List.mem_map.mp hmem
    have hrec : target.2 = r := hr
    subst hrec
    rw [← targets_of_active hactive] at htarget
    exact ⟨g, hg, hactive, (mem_targets hg (hcut g hg) htarget).1, htarget⟩
  · simp at hmem

variable {α : Type*} {whole : List ℕ → α} {srcLocal dstLocal : ℕ → Block α} {world : List ℕ}
  {contiguous : ℕ → Bool} {fresh : ℕ → List ℕ → α} {g : DestinationGroup}

theorem shape_destinationBuffer (r : ℕ) :
    (destinationBuffer contiguous fresh dstLocal r).shape = (dstLocal r).shape := by
  unfold destinationBuffer
  split_ifs
  · rfl
  · rfl

theorem holds_target (hplan : Planned src srcPlacements dst dstPlacements globalShape plan)
    (hheld : ∀ r ∈ src.ranks, Holds whole (rankRegion src srcPlacements globalShape r) (srcLocal r))
    (contiguous : ℕ → Bool) (fresh : ℕ → List ℕ → α) (dstLocal : ℕ → Block α) (r : ℕ) :
    ∃ out, plan.buffers contiguous fresh srcLocal dstLocal r = some out ∧
      out.shape = (dstLocal r).shape ∧
      ∀ target ∈ plan.targets, target.2 = r → ∀ x, InBox target.1 x →
        out.data (toLocal (rankRegion dst dstPlacements globalShape r) x) = whole x := by
  have hheld' : ∀ r ∈ src.ranks, Holds whole (plan.srcRegions r) (srcLocal r) := by
    rw [hplan.regions.1]
    exact hheld
  obtain ⟨out, hout, hshape, hdata⟩ := exchange_spec
    (destinationBuffer contiguous fresh dstLocal) (routes_stripedPlan hplan) hheld' r
  rw [hplan.regions.2] at hdata
  refine ⟨out, by rw [StripedPlan.buffers, hout]; rfl, hshape.trans (shape_destinationBuffer r),
    fun target htarget hr x hx ↦ ?_⟩
  have honce := stripedPlan_once hplan htarget hx
  obtain ⟨t, ht, htx⟩ := List.countP_pos_iff.mp (honce ▸ Nat.one_pos)
  rw [decide_eq_true_eq, hr] at htx
  have hwithin := (targets_within hplan htarget).2
  rw [hr] at hwithin
  exact hdata x (hwithin.inBox hx) ⟨t, ht, htx⟩

theorem gathers_of_active (hplan : Planned src srcPlacements dst dstPlacements globalShape plan)
    (hworld : world.Nodup) (hranks : ∀ r ∈ dst.ranks, r ∈ world)
    (hg : g ∈ plan.groups) (hactive : g.Active) {r : ℕ} (hr : r ∈ g.members) {own : Block α}
    (hown : own.shape = sizes g.region) :
    plan.gathers world own r = some (orderedReplicaMembers g.representative g.members) := by
  have hgroup := hplan.mem_groups hg
  obtain ⟨dim0, rest, stripe, h⟩ := hplan.2.2 g hg hactive
  obtain ⟨i, hi⟩ := List.mem_iff_getElem?.mp
    ((mem_orderedReplicaMembers (destinationGroup_spec hgroup).2).mpr hr)
  have hcomm : replicaSubcommunicator world plan.groups r =
      some (orderedReplicaMembers g.representative g.members) := by
    rw [hplan.2.1]
    exact replicaSubcommunicator_of_mem hworld hranks hgroup hactive hr
  have hnumel : own.shape.prod ≠ 0 := by
    rw [hown]
    exact hactive.2.ne'
  rw [StripedPlan.gathers, stripeOf_of_active hplan hg hactive h hi, hcomm]
  simp only [Option.bind_eq_bind, Option.bind_some, if_neg hnumel]

theorem gathers_of_not_active
    (hplan : Planned src srcPlacements dst dstPlacements globalShape plan) {r : ℕ}
    (h : ∀ g ∈ plan.groups, g.Active → r ∉ g.members) (own : Block α) :
    plan.gathers world own r = none := by
  have hstripe : plan.stripeOf r = none := by
    rw [Option.eq_none_iff_forall_not_mem]
    intro stripe hstripe
    obtain ⟨g, hg, hactive, hmem, _⟩ := stripeOf_eq_some hplan hstripe
    exact h g hg hactive hmem
  rw [StripedPlan.gathers, hstripe]
  rfl

theorem sendBuffer_spec (hplan : Planned src srcPlacements dst dstPlacements globalShape plan)
    (hheld : ∀ r ∈ src.ranks, Holds whole (rankRegion src srcPlacements globalShape r) (srcLocal r))
    (hg : g ∈ plan.groups) (hactive : g.Active) {dim0 : ℕ × ℕ} {rest : Box} {stripe : ℕ}
    (h : g.Cut dim0 rest stripe) {i r : ℕ}
    (hi : (orderedReplicaMembers g.representative g.members)[i]? = some r) :
    ∃ block, plan.sendBuffer (plan.buffers contiguous fresh srcLocal dstLocal) r = some block ∧
      Holds whole (stripeRegion dim0 rest stripe i) block := by
  have hgroup := hplan.mem_groups hg
  have hmem := (mem_orderedReplicaMembers (destinationGroup_spec hgroup).2).mp
    (List.mem_of_getElem? hi)
  have hregion := ((mem_members hgroup).mp hmem).2
  obtain ⟨buffer, hbuffer, _, hdata⟩ := holds_target hplan hheld contiguous fresh dstLocal r
  have htarget : (stripeRegion dim0 rest stripe i, r) ∈ g.targets := by
    rw [targets_of_active hactive]
    exact (mem_stripes h).mpr ⟨i, hi, rfl⟩
  have hwithin : Within (stripeRegion dim0 rest stripe i) g.region :=
    (mem_targets hgroup (hplan.2.2 g hg) htarget).2
  have hpos : 0 < regionNumel (dim0 :: rest) := h.1 ▸ hactive.2
  have hcontiguous : regionViewIsContiguous (stripeRegion dim0 rest stripe i) g.region = true := by
    rw [h.1]
    exact contiguous_stripeRegion hpos stripe i
  refine ⟨readView buffer (stripeRegion dim0 rest stripe i) g.region, ?_, rfl, fun x hx ↦ ?_⟩
  · simp only [StripedPlan.sendBuffer, stripeOf_of_active hplan hg hactive h hi, hplan.regions.2,
      hregion, hcontiguous, if_true, hbuffer, Option.map_some]
  · rw [data_readView buffer hwithin hx, ← hregion]
    exact hdata _ (List.mem_flatMap.mpr ⟨g, hg, htarget⟩) rfl x hx

theorem holds_xferdtensorStriped (contiguous : ℕ → Bool) (fresh : ℕ → List ℕ → α)
    (hplan : Planned src srcPlacements dst dstPlacements globalShape plan)
    (hworld : world.Nodup) (hranks : ∀ r ∈ dst.ranks, r ∈ world)
    (hheld : ∀ r ∈ src.ranks, Holds whole (rankRegion src srcPlacements globalShape r) (srcLocal r))
    (hshape : ∀ r ∈ dst.ranks,
      (dstLocal r).shape = sizes (rankRegion dst dstPlacements globalShape r))
    {r : ℕ} (hr : r ∈ dst.ranks) :
    ∃ out, xferdtensorStriped world plan contiguous fresh srcLocal dstLocal r = some out ∧
      Holds whole (rankRegion dst dstPlacements globalShape r) out := by
  obtain ⟨g, hg, hmem⟩ : ∃ g ∈ plan.groups, r ∈ g.members := by
    rw [hplan.2.1]
    exact exists_destinationGroup dstPlacements _ hr
  have hgroup := hplan.mem_groups hg
  obtain ⟨_, hregion⟩ := (mem_members hgroup).mp hmem
  obtain ⟨own, hown, hownShape, hdata⟩ :=
    holds_target hplan hheld contiguous fresh dstLocal r
  have hsizes : own.shape = sizes g.region := by rw [hownShape, hshape r hr, hregion]
  rw [hregion] at hdata ⊢
  simp only [xferdtensorStriped]
  rw [hown, Option.bind_eq_bind, Option.bind_some]
  by_cases hactive : g.Active
  · obtain ⟨dim0, rest, stripe, h⟩ := hplan.2.2 g hg hactive
    have hpos : 0 < regionNumel (dim0 :: rest) := h.1 ▸ hactive.2
    have hlength : dim0.2 - dim0.1 =
        (orderedReplicaMembers g.representative g.members).length * stripe := by
      rw [length_ordered hgroup]
      exact h.2.1
    rw [gathers_of_active hplan hworld hranks hg hactive hmem hsizes, h.1]
    exact allgather_spec hpos hlength (h.1 ▸ hsizes) fun i r hi ↦
      sendBuffer_spec hplan hheld hg hactive h hi
  · have hnot : ∀ g' ∈ plan.groups, g'.Active → r ∉ g'.members := fun g' hg' hactive' hmem' ↦
      hactive (group_unique hgroup (hplan.mem_groups hg') hmem hmem' ▸ hactive')
    rw [gathers_of_not_active hplan hnot own]
    refine ⟨own, rfl, hsizes, fun x hx ↦ ?_⟩
    rcases targets_of_not_active hgroup hactive with ⟨hzero, _⟩ | ⟨hrep, htargets⟩
    · exact absurd hzero (prod_ne_zero_of_inBox hx).ne'
    · have htarget : (g.region, g.representative) ∈ g.targets := by simp [htargets]
      exact hdata _ (List.mem_flatMap.mpr ⟨g, hg, htarget⟩) (hrep r hmem).symm x hx

/-- Where the striped path is taken it leaves every destination rank with the
tensor of the generic path, the global tensor restricted to its region. The
stripes of an active group are the equal blocks of its memory in the order of
its communicator, their elements are received once each, and exactly the
members of the active groups gather. -/
theorem xferdtensorStriped_refines (src dst : Mesh) (srcPlacements dstPlacements : List Placement)
    (globalShape world : List ℕ) (whole : List ℕ → α) (srcLocal dstLocal : ℕ → Block α)
    (contiguous : ℕ → Bool) (fresh : ℕ → List ℕ → α) (plan : StripedPlan)
    (hstriped : stripedGeometry src srcPlacements dst dstPlacements globalShape = .ok (some plan))
    (hworld : world.Nodup) (hranks : ∀ r ∈ dst.ranks, r ∈ world)
    (hheld : ∀ r ∈ src.ranks, Holds whole (rankRegion src srcPlacements globalShape r) (srcLocal r))
    (hshape : ∀ r ∈ dst.ranks,
      (dstLocal r).shape = sizes (rankRegion dst dstPlacements globalShape r)) :
    (∃ generic, planGeometry src srcPlacements dst dstPlacements globalShape = .ok generic ∧
      ∀ r ∈ dst.ranks, ∃ out out',
        xferdtensorStriped world plan contiguous fresh srcLocal dstLocal r = some out ∧
        xferdtensorV1 world generic srcLocal dstLocal r = some out' ∧
        out.shape = out'.shape ∧
        (∀ v, List.Forall₂ (· < ·) v out.shape → out.data v = out'.data v) ∧
        Holds whole (rankRegion dst dstPlacements globalShape r) out) ∧
    (∀ g ∈ plan.groups, g.Active → ∀ i r,
      (orderedReplicaMembers g.representative g.members)[i]? = some r →
        ∃ stripe, plan.stripeOf r = some stripe ∧ Within stripe g.region ∧
          regionNumel stripe * g.members.length = regionNumel g.region ∧
          ∀ x, InBox g.region x → (InBox stripe x ↔
            ravel (sizes g.region) (toLocal g.region x) / regionNumel stripe = i)) ∧
    (∀ r stripe, plan.stripeOf r = some stripe → ∀ x, InBox stripe x →
      plan.transfers.countP (fun t ↦ t.receiver = r ∧ InBox t.overlap x) = 1) ∧
    (∀ g ∈ plan.groups, g.Active → ∀ r ∈ g.members, ∀ own : Block α, own.shape = sizes g.region →
      plan.gathers world own r = some (orderedReplicaMembers g.representative g.members)) ∧
    ∀ r, (∀ g ∈ plan.groups, g.Active → r ∉ g.members) → ∀ own : Block α,
      plan.gathers world own r = none := by
  have hplan := planned_of_stripedGeometry hstriped
  refine ⟨⟨exactPlan src srcPlacements dst dstPlacements globalShape, ?_, fun r hr ↦ ?_⟩, ?_, ?_,
    fun g hg hactive r hr own hown ↦ gathers_of_active hplan hworld hranks hg hactive hr hown,
    fun r hr own ↦ gathers_of_not_active hplan hr own⟩
  · obtain ⟨hsrc, hdst⟩ := layouts_of_stripedGeometry hstriped
    exact planGeometry_eq hsrc hdst
  · obtain ⟨out, hout, hholds⟩ := holds_xferdtensorStriped contiguous fresh hplan hworld
      hranks hheld hshape hr
    obtain ⟨out', hout', hholds'⟩ := holds_xferdtensorV1 hplan.1 hworld hranks hheld hshape hr
    obtain ⟨hsame, hdata⟩ := hholds.agree hholds'
    exact ⟨out, out', hout, hout', hsame, hdata, hholds⟩
  · intro g hg hactive i r hi
    obtain ⟨dim0, rest, stripe, h⟩ := hplan.2.2 g hg hactive
    have hgroup := hplan.mem_groups hg
    have htarget : (stripeRegion dim0 rest stripe i, r) ∈ g.targets := by
      rw [targets_of_active hactive]
      exact (mem_stripes h).mpr ⟨i, hi, rfl⟩
    refine ⟨stripeRegion dim0 rest stripe i, stripeOf_of_active hplan hg hactive h hi,
      (mem_targets hgroup (hplan.2.2 g hg) htarget).2, ?_, fun x hx ↦ ?_⟩
    · rw [regionNumel_stripeRegion, h.1, regionNumel, sizes, List.map_cons, List.prod_cons, h.2.1,
        Nat.mul_comm, Nat.mul_assoc]
      rfl
    · rw [h.1] at hx ⊢
      rw [regionNumel_stripeRegion]
      exact (inBox_stripeRegion h.2.1 hx).2.1
  · intro r stripe hstripe x hx
    obtain ⟨g, hg, _, _, htarget⟩ := stripeOf_eq_some hplan hstripe
    exact stripedPlan_once hplan (List.mem_flatMap.mpr ⟨g, hg, htarget⟩) hx

end Striped

/-- Six rows on two ranks, replicated on two, one of them shared: three rows a stripe. -/
theorem xferdtensorStriped_refines_replicated :
    ∃ plan, stripedGeometry splitMesh [.shard 0] replicaMesh [.replicate] [6, 2] = .ok (some plan) ∧
      ∀ r ∈ replicaMesh.ranks, ∃ out, xferdtensorStriped [0, 1, 2] plan (fun r ↦ r = 1)
        (fun _ _ ↦ 7)
        (fun r ↦ restrict (fun x ↦ x.sum) (rankRegion splitMesh [.shard 0] [6, 2] r))
        (fun r ↦ restrict (fun _ ↦ 0) (rankRegion replicaMesh [.replicate] [6, 2] r)) r =
          some out ∧
        Holds (fun x ↦ x.sum) (rankRegion replicaMesh [.replicate] [6, 2] r) out := by
  have hplan : stripedGeometry splitMesh [.shard 0] replicaMesh [.replicate] [6, 2] =
      .ok (some (stripedPlan splitMesh [.shard 0] replicaMesh [.replicate] [6, 2])) := by
    rfl
  obtain ⟨⟨_, _, h⟩, _⟩ := xferdtensorStriped_refines splitMesh replicaMesh [.shard 0]
    [.replicate] [6, 2] [0, 1, 2] (fun x ↦ x.sum)
    (fun r ↦ restrict (fun x ↦ x.sum) (rankRegion splitMesh [.shard 0] [6, 2] r))
    (fun r ↦ restrict (fun _ ↦ 0) (rankRegion replicaMesh [.replicate] [6, 2] r))
    (fun r ↦ r = 1) (fun _ _ ↦ 7) _ hplan (by decide) (by decide) (fun r _ ↦ holds_restrict _ _)
    (fun r _ ↦ rfl)
  refine ⟨_, hplan, fun r hr ↦ ?_⟩
  obtain ⟨out, _, hout, _, _, _, hholds⟩ := h r hr
  exact ⟨out, hout, hholds⟩

end NemoRL.WeightSync
