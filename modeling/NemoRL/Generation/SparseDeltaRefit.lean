import Mathlib
import NemoRL.Foundations.Positions
import NemoRL.Generation.SparseDeltaExact

namespace NemoRL.Generation.SparseDelta

open Foundations Foundations.Patches Foundations.Positions Utils Utils.SparseCodec
  Utils.DeltaTracker

variable {cfg : TrackerConfig} {baseline : KeyedStore String (List ℕ)}

/-- A tensor that differs from its baseline, with the delta made of it. -/
structure Sent (cfg : TrackerConfig) where
  tensor : NamedTensor
  baseline : List ℕ
  info : SparseInfo ℕ
  update : PendingUpdate
  made : delta cfg baseline tensor = some (info, update)
  size : baseline.length = tensor.bits.length
  changes : info.locations ≠ []

theorem Sent.valid (s : Sent cfg) : s.info.Valid := delta_valid s.made s.changes

theorem Sent.name_eq (s : Sent cfg) : s.info.name = s.tensor.name := (delta_spec s.made).1

/-- What is sent for some tensors: the others are as in their baselines. -/
structure Accounts (baseline : KeyedStore String (List ℕ)) (tensors : List NamedTensor)
    (sent : List (Sent cfg)) : Prop where
  sublist : (sent.map Sent.tensor).Sublist tensors
  based : ∀ s ∈ sent, baseline s.tensor.name = some s.baseline
  rest : ∀ tensor ∈ tensors,
    tensor ∈ sent.map Sent.tensor ∨ baseline tensor.name = some tensor.bits

theorem Accounts.append {tensors tensors' : List NamedTensor} {sent sent' : List (Sent cfg)}
    (h : Accounts baseline tensors sent) (h' : Accounts baseline tensors' sent') :
    Accounts baseline (tensors ++ tensors') (sent ++ sent') where
  sublist := by
    rw [List.map_append]
    exact h.sublist.append h'.sublist
  based s hs := by
    rcases List.mem_append.mp hs with hs | hs
    · exact h.based s hs
    · exact h'.based s hs
  rest tensor ht := by
    rw [List.map_append, List.mem_append]
    rcases List.mem_append.mp ht with ht | ht
    · exact (h.rest tensor ht).imp_left .inl
    · exact (h'.rest tensor ht).imp_left .inr

section Sending

variable {t : DeltaCompressionTracker}

theorem deltas_cons {tensor : NamedTensor} {tensors : List NamedTensor}
    {ds : List (SparseInfo ℕ × PendingUpdate)} (h : deltas cfg t (tensor :: tensors) = some ds) :
    ∃ old d ds', t.baseline tensor.name = some old ∧ old.length = tensor.bits.length ∧
      delta cfg old tensor = some d ∧ deltas cfg t tensors = some ds' ∧
        ds = if d.1.locations ≠ [] then d :: ds' else ds' := by
  obtain ⟨all, hall, hds⟩ := Option.bind_eq_some_iff.mp h
  rw [List.mapM_cons] at hall
  obtain ⟨d, hd, hall⟩ := Option.bind_eq_some_iff.mp hall
  obtain ⟨rest, hrest, hall⟩ := Option.bind_eq_some_iff.mp hall
  obtain rfl := Option.some.inj hall
  obtain ⟨old, hold, hd⟩ := Option.bind_eq_some_iff.mp hd
  by_cases hsize : old.length = tensor.bits.length
  swap
  · rw [if_neg hsize] at hd
    cases hd
  rw [if_pos hsize] at hd
  refine ⟨old, d, rest.filter fun d ↦ d.1.locations ≠ [], hold, hsize, hd, ?_, ?_⟩
  · exact Option.bind_eq_some_iff.mpr ⟨rest, hrest, rfl⟩
  · rw [← Option.some.inj hds, List.filter_cons]
    simp only [decide_eq_true_eq]

theorem deltas_accounts {tensors : List NamedTensor} {ds : List (SparseInfo ℕ × PendingUpdate)}
    (h : deltas cfg t tensors = some ds) :
    ∃ sent : List (Sent cfg), ds.map Prod.fst = sent.map Sent.info ∧
      Accounts t.baseline tensors sent := by
  induction tensors generalizing ds with
  | nil =>
    obtain rfl := Option.some.inj h
    exact ⟨[], rfl, .slnil, by simp, by simp⟩
  | cons tensor tensors ih =>
    obtain ⟨old, ⟨info, update⟩, ds', hold, hsize, hmade, hrest, rfl⟩ := deltas_cons h
    obtain ⟨sent, hinfos, haccounts⟩ := ih hrest
    by_cases hchanges : info.locations ≠ []
    · let s : Sent cfg := ⟨tensor, old, info, update, hmade, hsize, hchanges⟩
      have hone : Accounts t.baseline [tensor] [s] :=
        ⟨List.Sublist.refl _, by simpa using hold, by simp [s]⟩
      refine ⟨s :: sent, ?_, hone.append haccounts⟩
      rw [if_pos hchanges, List.map_cons, List.map_cons, hinfos]
    · refine ⟨sent, by rw [if_neg hchanges, hinfos], haccounts.sublist.cons _, haccounts.based, ?_⟩
      refine List.forall_mem_cons.mpr ⟨.inr ?_, haccounts.rest⟩
      have hnone : changed old tensor.bits = [] := by
        rw [← (delta_spec hmade).2.2.2.1]
        exact not_not.mp hchanges
      rw [hold, (changed_eq_nil hsize).mp hnone]

/-- The payloads of one round: prepared from some tensors against the baselines, or
merged from others. -/
inductive Shipped (cfg : TrackerConfig) (baseline : KeyedStore String (List ℕ)) :
    List NamedTensor → TensorPayload ℕ → Prop
  | prepare (t t' : DeltaCompressionTracker) (tensors : List NamedTensor) (p : TensorPayload ℕ)
      (nnz total : ℕ) (hb : t.baseline = baseline)
      (h : prepareSparseDeltaPayload cfg t tensors = some (t', p, nnz, total)) :
      Shipped cfg baseline tensors p
  | merge (parts : List (List NamedTensor × TensorPayload ℕ)) (p : TensorPayload ℕ)
      (h : ∀ part ∈ parts, Shipped cfg baseline part.1 part.2)
      (hp : mergeSparsePayloads (parts.map Prod.snd) = some p) :
      Shipped cfg baseline (parts.flatMap Prod.fst) p

def Lists (p : TensorPayload ℕ) (sent : List (Sent cfg)) : Prop :=
  List.Forall₂ (Describes p) p.metadata (sent.map Sent.info)

theorem forall₂_map_zip {α β γ : Type*} {R S : α → β → Prop} {f : α × γ → α} {l : List α}
    {r : List β} {cs : List γ} (h : List.Forall₂ R l r) (hlen : l.length ≤ cs.length)
    (hf : ∀ a b c, R a b → S (f (a, c)) b) : List.Forall₂ S ((l.zip cs).map f) r := by
  induction h generalizing cs with
  | nil => exact .nil
  | @cons a b l r hab _ ih =>
    cases cs with
    | nil => cases hlen
    | cons c cs => exact .cons (hf a b c hab) (ih (Nat.le_of_succ_le_succ hlen))

theorem describes_verificationSamples {p : TensorPayload ℕ} {infos : List (SparseInfo ℕ)}
    (h : List.Forall₂ (Describes p) p.metadata infos) (samples : ℕ) :
    List.Forall₂ (Describes { p with metadata := verificationSamples samples p.metadata })
      (verificationSamples samples p.metadata) infos := by
  refine forall₂_map_zip h ?_ fun item info offset hd ↦ ?_
  · rw [List.length_scanl, List.length_map]
    exact Nat.le_succ _
  · dsimp only
    split
    · exact ⟨hd.name, hd.shape, hd.dtype, hd.operation, hd.values, hd.located⟩
    · exact ⟨hd.name, hd.shape, hd.dtype, hd.operation, hd.values, hd.located⟩

theorem prepare_lists {t t' : DeltaCompressionTracker} {tensors : List NamedTensor}
    {p : TensorPayload ℕ} {nnz total : ℕ}
    (h : prepareSparseDeltaPayload cfg t tensors = some (t', p, nnz, total)) :
    ∃ sent : List (Sent cfg), Lists p sent ∧ Accounts t.baseline tensors sent := by
  unfold prepareSparseDeltaPayload at h
  by_cases hwait : t.executor ≠ []
  · rw [if_pos hwait] at h
    cases h
  rw [if_neg hwait] at h
  obtain ⟨ds, hds, h⟩ := Option.bind_eq_some_iff.mp h
  obtain ⟨plain, hplain, h⟩ := Option.bind_eq_some_iff.mp h
  obtain ⟨sent, hinfos, haccounts⟩ := deltas_accounts hds
  refine ⟨sent, ?_, haccounts⟩
  obtain ⟨p', hp', hdescribes⟩ := (Merging.encode (sent.map Sent.info)).describes
    (List.forall_mem_map.mpr fun s _ ↦ s.valid)
  rw [hinfos, hp'] at hplain
  obtain rfl := Option.some.inj hplain
  obtain ⟨-, hp, -⟩ : _ ∧ _ ∧ _ := by simpa only [Prod.mk.injEq] using Option.some.inj h
  rw [← hp]
  split_ifs
  · exact describes_verificationSamples hdescribes _
  · exact hdescribes

theorem lists_merge {parts : List (List NamedTensor × TensorPayload ℕ)}
    {sents : List (List (Sent cfg))} {p : TensorPayload ℕ}
    (h : List.Forall₂ (fun part sent ↦ Lists part.2 sent) parts sents)
    (hp : mergeSparsePayloads (parts.map Prod.snd) = some p) : Lists p sents.flatten := by
  obtain ⟨infoParts, hsnd, hfst, hall⟩ : ∃ infoParts : List (List (SparseInfo ℕ) × TensorPayload ℕ),
      infoParts.map Prod.snd = parts.map Prod.snd ∧
        infoParts.flatMap Prod.fst = sents.flatten.map Sent.info ∧
          ∀ part ∈ infoParts, List.Forall₂ (Describes part.2) part.2.metadata part.1 := by
    clear hp
    induction h with
    | nil => exact ⟨[], rfl, rfl, by simp⟩
    | @cons part sent parts sents hlists _ ih =>
      obtain ⟨infoParts, hsnd, hfst, hall⟩ := ih
      refine ⟨(sent.map Sent.info, part.2) :: infoParts, ?_, ?_,
        List.forall_mem_cons.mpr ⟨hlists, hall⟩⟩
      · rw [List.map_cons, List.map_cons, hsnd]
      · rw [List.flatMap_cons, hfst, List.flatten_cons, List.map_append]
  obtain ⟨b, items, hrun, -, -, hmeta, hitems⟩ := foldlM_merge wellBuilt_empty hall
  rw [mergeSparsePayloads, ← hsnd, hrun] at hp
  obtain rfl := Option.some.inj hp
  rw [hfst] at hitems
  have hmetadata : b.finish.metadata = items := hmeta
  rw [Lists, hmetadata]
  exact hitems

theorem exists_sent {parts : List (List NamedTensor × TensorPayload ℕ)}
    (h : ∀ part ∈ parts, ∃ sent : List (Sent cfg), Lists part.2 sent ∧
      Accounts baseline part.1 sent) :
    ∃ sents : List (List (Sent cfg)),
      List.Forall₂ (fun part sent ↦ Lists part.2 sent) parts sents ∧
        Accounts baseline (parts.flatMap Prod.fst) sents.flatten := by
  induction parts with
  | nil => exact ⟨[], .nil, .slnil, by simp, by simp⟩
  | cons part parts ih =>
    obtain ⟨⟨sent, hlists, haccounts⟩, hrest⟩ := List.forall_mem_cons.mp h
    obtain ⟨sents, hall, haccounts'⟩ := ih hrest
    exact ⟨sent :: sents, .cons hlists hall, haccounts.append haccounts'⟩

theorem Shipped.lists {tensors : List NamedTensor} {p : TensorPayload ℕ}
    (h : Shipped cfg baseline tensors p) :
    ∃ sent : List (Sent cfg), Lists p sent ∧ Accounts baseline tensors sent := by
  induction h with
  | prepare t t' tensors p nnz total hb h => exact hb ▸ prepare_lists h
  | merge parts p h hp ih =>
    obtain ⟨sents, hall, haccounts⟩ := exists_sent ih
    exact ⟨sents.flatten, lists_merge hall hp, haccounts⟩

end Sending

section Receiving

variable {loader : NativeLoader} {memory memory' : Memory}

/-- A decoded item with the locations and the values that were sent. -/
def Arrives (x : SparseItem × List ℤ × Values ℕ) (s : Sent cfg) : Prop :=
  ∃ p, Describes p x.1 s.info ∧
    x.2 = (s.info.locations.map fun l : ℕ ↦ (l : ℤ), s.info.values)

theorem iterSparsePayload_arrives {p : TensorPayload ℕ} {sent : List (Sent cfg)} (h : Lists p sent)
    (skipped : List String) :
    ∃ items, iterSparsePayload skipped p = some items ∧
      List.Forall₂ Arrives items (sent.filter fun s ↦ s.tensor.name ∉ skipped) := by
  unfold iterSparsePayload
  rw [Lists, List.forall₂_map_right_iff] at h
  generalize p.metadata = metadata at h ⊢
  induction h with
  | nil => exact ⟨[], rfl, .nil⟩
  | @cons item s metadata sent hitem _ ih =>
    obtain ⟨items, hitems, harrive⟩ := ih
    have hname : item.name = s.tensor.name := hitem.name.trans s.name_eq
    by_cases hskip : s.tensor.name ∈ skipped
    · rw [List.filter_cons_of_neg (by simpa [hname] using hskip),
        List.filter_cons_of_neg (by simpa using hskip)]
      exact ⟨items, hitems, harrive⟩
    · rw [List.filter_cons_of_pos (by simpa [hname] using hskip),
        List.filter_cons_of_pos (by simpa using hskip)]
      refine ⟨(item, s.info.locations.map fun l : ℕ ↦ (l : ℤ), s.info.values) :: items, ?_,
        .cons ⟨p, hitem, rfl⟩ harrive⟩
      rw [List.mapM_cons, hitem.shape,
        sparseLocations_of_describes hitem s.valid (locationDtype_fits s.valid),
        (valueSlice_of_describes hitem).1, hitems]
      rfl

theorem mapM_iterSparsePayload {parts : List (List NamedTensor × TensorPayload ℕ)}
    {sents : List (List (Sent cfg))}
    (h : List.Forall₂ (fun part sent ↦ Lists part.2 sent) parts sents) (skipped : List String) :
    ∃ items, (parts.map Prod.snd).mapM (iterSparsePayload skipped) = some items ∧
      List.Forall₂ Arrives items.flatten
        (sents.flatten.filter fun s ↦ s.tensor.name ∉ skipped) := by
  induction h with
  | nil => exact ⟨[], rfl, .nil⟩
  | @cons part sent parts sents hlists _ ih =>
    obtain ⟨items, hitems, harrive⟩ := iterSparsePayload_arrives hlists skipped
    obtain ⟨rest, hrest, harrives⟩ := ih
    refine ⟨items :: rest, ?_, ?_⟩
    · rw [List.map_cons, List.mapM_cons, hitems, hrest]
      rfl
    · rw [List.flatten_cons, List.flatten_cons, List.filter_append]
      exact List.rel_append harrive harrives

/-- Item by item the weights take over the new bits, and no item disturbs another
weight. -/
theorem foldlM_applyDecodedItem {items : List (SparseItem × List ℤ × Values ℕ)}
    {sent : List (Sent cfg)} (harrive : List.Forall₂ Arrives items sent)
    (hnames : (sent.map fun s ↦ s.tensor.name).Nodup)
    (hsend : ∀ s ∈ sent, Sendable cfg s.baseline s.tensor)
    (hm : ∀ s ∈ sent, Mirrors loader memory s.tensor.name s.baseline)
    (happ : items.foldlM (fun m x ↦ applyDecodedItem loader m x.1 x.2.1 x.2.2) memory =
      some memory') :
    (∀ s ∈ sent, Mirrors loader memory' s.tensor.name s.tensor.bits) ∧
      ∀ name bits, name ∉ sent.map (fun s ↦ s.tensor.name) → Mirrors loader memory name bits →
        Mirrors loader memory' name bits := by
  induction harrive generalizing memory with
  | nil =>
    obtain rfl := Option.some.inj happ
    exact ⟨by simp, fun _ _ _ h ↦ h⟩
  | @cons x s items sent hx _ ih =>
    obtain ⟨p, hdescribes, hdecoded⟩ := hx
    obtain ⟨hs, hrest⟩ := List.forall_mem_cons.mp hsend
    obtain ⟨hms, hmrest⟩ := List.forall_mem_cons.mp hm
    obtain ⟨hfresh, hnames⟩ := List.nodup_cons.mp hnames
    rw [List.foldlM_cons] at happ
    obtain ⟨mid, hmid, happ⟩ := Option.bind_eq_some_iff.mp happ
    rw [hdecoded] at hmid
    obtain ⟨hnew, hframe⟩ := applyDecodedItem_spec hdescribes s.made s.changes s.size hs hms hmid
    obtain ⟨hlater, hothers⟩ := ih hnames hrest (fun s' hs' ↦ by
      refine hframe _ _ (fun he ↦ hfresh ?_) (hmrest s' hs')
      exact List.mem_map.mpr ⟨s', hs', he⟩) happ
    refine ⟨List.forall_mem_cons.mpr ⟨hothers _ _ hfresh hnew, hlater⟩, fun name bits hname hb ↦ ?_⟩
    obtain ⟨hne, hname⟩ : name ≠ s.tensor.name ∧ name ∉ sent.map fun s ↦ s.tensor.name := by
      simpa using hname
    exact hothers name bits hname (hframe name bits hne hb)

theorem copies_of_skipped {reports : Bool} {stateDictInfo : List (String × Dtype)} {name : String}
    (h : name ∈ discoverNativeSkips loader reports stateDictInfo) : loader.copies name = [] := by
  unfold discoverNativeSkips at h
  cases reports with
  | false => cases h
  | true =>
    obtain ⟨x, hx, rfl⟩ := List.mem_map.mp h
    exact (decide_eq_true_eq.mp (List.mem_filter.mp hx).2).2

end Receiving

/-- After a round in which the payloads arrive in any order, cut and merged in any
way, a loader that mirrored the baselines mirrors the tensors. -/
theorem round_mirrors {loader : NativeLoader} {report : List String → Option ℕ} {reports : Bool}
    {stateDictInfo : List (String × Dtype)} {memory memory' : Memory}
    {parts : List (List NamedTensor × TensorPayload ℕ)}
    (hnames : ((parts.flatMap Prod.fst).map NamedTensor.name).Nodup)
    (hparts : ∀ part ∈ parts, Shipped cfg baseline part.1 part.2)
    (hsend : ∀ tensor ∈ parts.flatMap Prod.fst, ∀ old, baseline tensor.name = some old →
      Sendable cfg old tensor)
    (hm : ∀ name old, baseline name = some old → Mirrors loader memory name old)
    (hload : loadSparsePayloads loader report (discoverNativeSkips loader reports stateDictInfo)
      memory (parts.map Prod.snd) = some memory') :
    (∀ tensor ∈ parts.flatMap Prod.fst, Mirrors loader memory' tensor.name tensor.bits) ∧
      ∀ name bits, name ∉ (parts.flatMap Prod.fst).map NamedTensor.name →
        Mirrors loader memory name bits → Mirrors loader memory' name bits := by
  obtain ⟨sents, hall, haccounts⟩ := exists_sent fun part hpart ↦ (hparts part hpart).lists
  obtain ⟨items, hitems, harrive⟩ :=
    mapM_iterSparsePayload hall (discoverNativeSkips loader reports stateDictInfo)
  obtain ⟨items', hitems', happly⟩ := Option.bind_eq_some_iff.mp hload
  obtain rfl := Option.some.inj (hitems.symm.trans hitems')
  obtain ⟨memory₁, hrun, hreport⟩ := Option.bind_eq_some_iff.mp happly
  obtain rfl : memory₁ = memory' := by
    dsimp only at hreport
    split_ifs at hreport
    exact Option.some.inj hreport
  set skipped := discoverNativeSkips loader reports stateDictInfo
  set sent := sents.flatten.filter fun s ↦ s.tensor.name ∉ skipped
  have hmem : ∀ s ∈ sent, s ∈ sents.flatten := fun s hs ↦ (List.mem_filter.mp hs).1
  have hsublist : (sent.map fun s ↦ s.tensor.name).Sublist
      ((parts.flatMap Prod.fst).map NamedTensor.name) := by
    have hsub : (sent.map Sent.tensor).Sublist (sents.flatten.map Sent.tensor) :=
      List.filter_sublist.map Sent.tensor
    simpa [Function.comp_def] using (hsub.trans haccounts.sublist).map NamedTensor.name
  have htensor : ∀ s ∈ sent, s.tensor ∈ parts.flatMap Prod.fst := fun s hs ↦
    haccounts.sublist.subset (List.mem_map_of_mem (hmem s hs))
  obtain ⟨hnew, hothers⟩ := foldlM_applyDecodedItem harrive (hnames.sublist hsublist)
    (fun s hs ↦ hsend _ (htensor s hs) _ (haccounts.based s (hmem s hs)))
    (fun s hs ↦ hm _ _ (haccounts.based s (hmem s hs))) hrun
  refine ⟨fun tensor ht ↦ ?_, fun name bits hname ↦
    hothers name bits fun hin ↦ hname (hsublist.subset hin)⟩
  by_cases hin : tensor.name ∈ sent.map fun s ↦ s.tensor.name
  · obtain ⟨s, hs, he⟩ := List.mem_map.mp hin
    obtain rfl := List.inj_on_of_nodup_map hnames (htensor s hs) ht he
    exact hnew s hs
  rcases haccounts.rest tensor ht with hsent | hsame
  · -- What was sent for it but not decoded has been skipped.
    obtain ⟨s, hs, rfl⟩ := List.mem_map.mp hsent
    have hskip : s.tensor.name ∈ skipped := by
      by_contra hnot
      exact hin (List.mem_map.mpr ⟨s, List.mem_filter.mpr ⟨hs, by simpa using hnot⟩, rfl⟩)
    intro c hc
    rw [copies_of_skipped hskip] at hc
    cases hc
  · exact hothers _ _ hin (hm _ _ hsame)

/-- A loader that swaps the halves of one weight and leaves out every other one. -/
def swapped : TargetCopy := ⟨0, [(0, 1), (1, 0)], List.cons_ne_nil _ _, by decide⟩

def swappedCopies (name : String) : List TargetCopy := if name = "w" then [swapped] else []

theorem mem_swappedCopies {name : String} {c : TargetCopy} (h : c ∈ swappedCopies name) :
    name = "w" ∧ c = swapped := by
  unfold swappedCopies at h
  split_ifs at h with hname
  · exact ⟨hname, List.mem_singleton.mp h⟩
  · cases h

theorem swappedCopies_functional : ∀ name name', ∀ c ∈ swappedCopies name,
    ∀ c' ∈ swappedCopies name', c.storage = c'.storage → ∀ x ∈ c.places, ∀ x' ∈ c'.places,
      x.1 = x'.1 → name = name' ∧ x.2 = x'.2 := by
  intro name name' c hc c' hc' _ x hx x' hx' he
  obtain ⟨rfl, rfl⟩ := mem_swappedCopies hc
  obtain ⟨rfl, rfl⟩ := mem_swappedCopies hc'
  refine ⟨rfl, ?_⟩
  rcases List.mem_pair.mp hx with rfl | rfl <;> rcases List.mem_pair.mp hx' with rfl | rfl <;>
    first | rfl | cases he

def swappedLoader : NativeLoader := ⟨swappedCopies, swappedCopies_functional⟩

def mixedConfig : TrackerConfig := ⟨.xor, ["b"], 0⟩

def wTensor : NamedTensor := ⟨"w", .bfloat16, [2], [4, 9], rfl, by decide⟩

def bTensor : NamedTensor := ⟨"b", .bfloat16, [1], [3], rfl, by decide⟩

def earlier : DeltaCompressionTracker :=
  { DeltaCompressionTracker.empty with
    baseline := KeyedStore.empty.put [("w", [4, 5]), ("b", [7])] }

def wPayload : TensorPayload ℕ :=
  ⟨[], [⟨.int16, [12]⟩], [⟨"w", [2], "bfloat16", .xor, 0, 0, 0, 0, 1, .range 1, none⟩]⟩

def bPayload : TensorPayload ℕ :=
  ⟨[], [⟨.int16, [3]⟩], [⟨"b", [1], "bfloat16", .overwrite, 0, 0, 0, 0, 1, .range 0, none⟩]⟩

def earlierMemory : Memory := fun cell ↦ if cell = (0, 0) then 5 else 4

theorem round_mirrors_swapped : ∃ memory', loadSparsePayloads swappedLoader (fun _ ↦ some 1)
    (discoverNativeSkips swappedLoader true [("w", .bfloat16), ("b", .bfloat16)]) earlierMemory
      [bPayload, wPayload] = some memory' ∧ memory' (0, 0) = 9 ∧ memory' (0, 1) = 4 := by
  obtain ⟨memory', hload⟩ : ∃ memory', loadSparsePayloads swappedLoader (fun _ ↦ some 1)
      (discoverNativeSkips swappedLoader true [("w", .bfloat16), ("b", .bfloat16)]) earlierMemory
        [bPayload, wPayload] = some memory' := Option.isSome_iff_exists.mp (by decide)
  have hold : ∀ name old, earlier.baseline name = some old →
      Mirrors swappedLoader earlierMemory name old := by
    intro name old hname c hc x hx
    obtain ⟨rfl, rfl⟩ := mem_swappedCopies hc
    obtain rfl : [4, 5] = old := Option.some.inj hname
    rcases List.mem_pair.mp hx with rfl | rfl <;> rfl
  have hparts : ∀ part ∈ [([bTensor], bPayload), ([wTensor], wPayload)],
      Shipped mixedConfig earlier.baseline part.1 part.2 := by
    intro part hpart
    rcases List.mem_pair.mp hpart with rfl | rfl
    · exact .prepare earlier _ [bTensor] bPayload _ _ rfl rfl
    · exact .prepare earlier _ [wTensor] wPayload _ _ rfl rfl
  have hsend : ∀ tensor ∈ [bTensor, wTensor], ∀ old, earlier.baseline tensor.name = some old →
      Sendable mixedConfig old tensor := by
    intro tensor ht old hname hop _ i hi
    rcases List.mem_pair.mp ht with rfl | rfl
    · obtain rfl : [7] = old := Option.some.inj hname
      obtain rfl := List.mem_singleton.mp hi
      rfl
    · cases hop
  obtain ⟨hnew, -⟩ := round_mirrors (by decide) hparts hsend hold hload
  have hw := hnew wTensor (by decide) swapped (List.mem_singleton_self _)
  exact ⟨memory', hload, hw (0, 1) List.mem_cons_self, hw (1, 0) (by decide)⟩

end NemoRL.Generation.SparseDelta
