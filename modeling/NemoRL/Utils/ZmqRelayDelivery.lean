import Mathlib
import NemoRL.Utils.ZmqRelayExact

namespace NemoRL.Utils.ZmqRelay

open Foundations Foundations.Positions Foundations.Transition

variable {β : Type}

section Tree

variable {addresses : List String} {root p c : String}

theorem mem_children (hnd : addresses.Nodup) : c ∈ children addresses root p ↔
    c ∈ addresses ∧ addresses.idxOf c ∈
      HeapTree.childPlaces addresses.length (addresses.idxOf root) (addresses.idxOf p) := by
  unfold children
  rw [List.mem_filterMap]
  constructor
  · rintro ⟨k, hk, hc⟩
    obtain ⟨hlt, rfl⟩ := List.getElem?_eq_some_iff.mp hc
    rw [hnd.idxOf_getElem]
    exact ⟨List.getElem_mem hlt, hk⟩
  · rintro ⟨hc, hk⟩
    exact ⟨_, hk, List.getElem?_idxOf hc⟩

theorem nodup_children (hnd : addresses.Nodup) (root p : String) :
    (children addresses root p).Nodup := by
  apply (HeapTree.nodup_childPlaces _ _ _).filterMap
  intro i j c hi hj
  obtain ⟨hi', rfl⟩ := List.getElem?_eq_some_iff.mp hi
  obtain ⟨hj', he⟩ := List.getElem?_eq_some_iff.mp hj
  exact ((List.Nodup.getElem_inj_iff hnd).mp he).symm

theorem idxOf_inj (hp : p ∈ addresses) (h : addresses.idxOf p = addresses.idxOf c) : p = c :=
  (List.idxOf_inj hp).mp h

/-- The relays and their forwards for one root. -/
structure IsTree (addresses : List String) (root : String) : Prop where
  orphan : ∀ p, root ∉ children addresses root p
  parent : ∀ c ∈ addresses, c ≠ root → ∃! p, p ∈ addresses ∧ c ∈ children addresses root p
  reached : ∀ c ∈ addresses,
    Relation.ReflTransGen (fun p c ↦ p ∈ addresses ∧ c ∈ children addresses root p) root c

theorem isTree (hnd : addresses.Nodup) (hr : root ∈ addresses) : IsTree addresses root where
  orphan := fun p h ↦ HeapTree.root_not_child ((mem_children hnd).mp h).2
  parent := fun c hc hne ↦ by
    have hlt := List.idxOf_lt_length_of_mem hc
    obtain ⟨k, hk, hm, -⟩ := HeapTree.exists_parent hlt
      (fun h ↦ hne (idxOf_inj hc h)) (List.idxOf_lt_length_of_mem hr)
    refine ⟨addresses[k], ⟨List.getElem_mem hk, ?_⟩, fun q ⟨hq, hcq⟩ ↦ ?_⟩
    · rw [mem_children hnd, hnd.idxOf_getElem]
      exact ⟨hc, hm⟩
    · have he := HeapTree.parent_unique (List.idxOf_lt_length_of_mem hq) hk
        ((mem_children hnd).mp hcq).2 hm
      subst he
      exact (List.getElem_idxOf (List.idxOf_lt_length_of_mem hq)).symm
  reached := fun c hc ↦ by
    have h := HeapTree.reaches (List.idxOf_lt_length_of_mem hc) (List.idxOf_lt_length_of_mem hr)
    have hget {a : String} (ha : a ∈ addresses) : addresses.getD (addresses.idxOf a) "" = a := by
      simp [List.getD, List.getElem?_idxOf ha]
    have hlift : Relation.ReflTransGen (fun p c ↦ p ∈ addresses ∧ c ∈ children addresses root p)
        (addresses.getD (addresses.idxOf root) "") (addresses.getD (addresses.idxOf c) "") := by
      refine h.lift (addresses.getD · "") fun i j ⟨hi, hj⟩ ↦ ?_
      have hj' := HeapTree.lt_of_mem_childPlaces hj
      show addresses.getD i "" ∈ addresses ∧ addresses.getD j "" ∈
        children addresses root (addresses.getD i "")
      rw [List.getD_eq_getElem _ _ hi, List.getD_eq_getElem _ _ hj', mem_children hnd,
        hnd.idxOf_getElem, hnd.idxOf_getElem]
      exact ⟨List.getElem_mem hi, List.getElem_mem hj', hj⟩
    rwa [hget hr, hget hc] at hlift

end Tree

/-- Keys are distinct across producers, and a producer sends a payload again
only as it was, to the same relay. -/
def Distinct (s : Cluster β) : Event β → Prop
  | .produce _ address _ p => ∀ x ∈ s.produced, x.2.key = p.key → x = (address, p)
  | _ => True

instance (s : Cluster β) [DecidableEq β] : ∀ e, Decidable (Distinct s e)
  | .produce _ _ _ _ => inferInstanceAs (Decidable (∀ x ∈ s.produced, _ → _))
  | .client _ _ | .deliver _ | .apply _ _ | .applied _ _ _ | .forward _ _ _ | .flush _ _ =>
    inferInstanceAs (Decidable True)

def sent (s : Cluster β) (transferId : String) : Finset (String × ℤ × ℤ) :=
  ((s.produced.filter (·.2.transferId = transferId)).map (·.2.key)).toFinset

/-- A flush of the transfer for `n` payloads has returned `n` on the relay. -/
def Flushed (r : Relay β) (transferId : String) (n : ℕ) : Prop :=
  ∃ f ∈ r.flushes, f.transferId = transferId ∧ f.expectedPayloads = n ∧ f.phase = .returned n

structure Delivers (cfg : Config) (s : Cluster β) : Prop where
  once : ∀ own, ((s.relays own).handed.map Payload.key).Nodup
  accepts : ∀ own, ((accepted (s.relays own)).map (·.2.key)).Nodup ∧
    ∀ p ∈ (s.relays own).handed, ∃ root, (root, p) ∈ accepted (s.relays own)
  conflict : ∀ own, ∀ a ∈ accepted (s.relays own), ∀ d : Data β, d.payload.key = a.2.key →
    d.payload.checksum ≠ a.2.checksum →
      ∃ error, receive cfg own (s.relays own) d = (s.relays own, .nack error)
  tree : ∀ root ∈ cfg.addresses, IsTree cfg.addresses root
  edges : ∀ own, ∀ w ∈ submitted (s.relays own), ∀ c, w.child = some c → own ∈ cfg.addresses ∧
    c ∈ children cfg.addresses w.relayRoot own ∧ (w.relayRoot, w.payload) ∈ s.produced
  fanout : ∀ own, ∀ a ∈ accepted (s.relays own), ∀ c ∈ children cfg.addresses a.1 own,
    ⟨a.2, a.1, some c⟩ ∈ submitted (s.relays own)
  forwarded : ∀ own own' (j j' : ℕ) (w w' : Work β), (submitted (s.relays own))[j]? = some w →
    (submitted (s.relays own'))[j']? = some w' → w.payload.key = w'.payload.key →
      w.child ≠ none → w.child = w'.child → own = own' ∧ j = j'
  flushed : ∀ transferId,
    (∀ own ∈ cfg.addresses, Flushed (s.relays own) transferId (sent s transferId).card) →
    ∀ own ∈ cfg.addresses,
      (∀ x ∈ s.produced, x.2.transferId = transferId →
        x.2 ∈ (s.relays own).handed ∧ ((s.relays own).handed.map Payload.key).count x.2.key = 1 ∧
        ∃ job ∈ (s.relays own).jobs, job.work.payload = x.2 ∧ job.work.child = none ∧
          job.phase = .done true) ∧
      ∀ (es : List (Event β)) (t : Cluster β), exec (step cfg) s es = some t →
        (t.relays own).handed.filter (·.transferId = transferId) =
          (s.relays own).handed.filter (·.transferId = transferId)

section Relays

variable {cfg : Config} {own : String} {r : Relay β}

theorem mem_roots {ws : List (Work β)} {a : String × Payload β} :
    a ∈ roots ws ↔ ⟨a.2, a.1, none⟩ ∈ ws := by
  unfold roots
  rw [List.mem_filterMap]
  constructor
  · rintro ⟨⟨p, root, child⟩, hw, he⟩
    cases child with
    | none =>
      obtain rfl := Option.some.inj he
      exact hw
    | some c => cases he
  · exact fun h ↦ ⟨_, h, rfl⟩

theorem started_sublist (jobs : List (Job β)) :
    (jobs.filterMap startedPayload).Sublist ((roots (jobs.map Job.work)).map Prod.snd) := by
  induction jobs with
  | nil => exact List.Sublist.refl _
  | cons j jobs ih =>
    obtain ⟨⟨p, root, child⟩, phase⟩ := j
    cases child with
    | none =>
      by_cases hq : phase = .queued
      · simpa [roots, startedPayload, hq] using ih.cons p
      · simpa [roots, startedPayload, hq] using ih.cons_cons p
    | some c => simpa [roots, startedPayload] using ih

theorem Relay.Sound.nodup_handed (h : r.Sound cfg own) : (r.handed.map Payload.key).Nodup := by
  rw [(h.handed.map Payload.key).nodup_iff]
  refine List.Nodup.sublist ((started_sublist r.jobs).map Payload.key) ?_
  rw [List.map_map]
  exact h.distinct

theorem Relay.Sound.mem_handed (h : r.Sound cfg own) {p : Payload β} :
    p ∈ r.handed ↔ ∃ job ∈ r.jobs, job.work.child = none ∧ job.phase ≠ .queued ∧
      job.work.payload = p := by
  rw [h.handed.mem_iff, List.mem_filterMap]
  constructor
  · rintro ⟨job, hj, he⟩
    unfold startedPayload at he
    split_ifs at he with hc
    exact ⟨job, hj, Option.isNone_iff_eq_none.mp hc.1, hc.2, Option.some.inj he⟩
  · rintro ⟨job, hj, hc, hq, rfl⟩
    exact ⟨job, hj, by simp [startedPayload, hc, hq]⟩

theorem Relay.Sound.exists_root (h : r.Sound cfg own) {p : Payload β} (hp : p ∈ r.handed) :
    ∃ root, (root, p) ∈ accepted r := by
  obtain ⟨⟨⟨p, root, child⟩, phase⟩, hj, rfl, -, rfl⟩ := h.mem_handed.mp hp
  exact ⟨root, mem_roots.mpr (List.mem_map_of_mem hj)⟩

theorem Relay.Sound.refuses (h : r.Sound cfg own) {a : String × Payload β} (ha : a ∈ accepted r)
    {d : Data β} (hk : d.payload.key = a.2.key) (hc : d.payload.checksum ≠ a.2.checksum) :
    ∃ error, receive cfg own r d = (r, .nack error) := by
  unfold receive
  simp only
  split
  · exact ⟨_, rfl⟩
  · split_ifs with hs
    · exact ⟨_, rfl⟩
    · obtain ⟨ht, hp, hi⟩ : d.payload.transferId = a.2.transferId ∧
          d.payload.producerId = a.2.producerId ∧ d.payload.payloadId = a.2.payloadId := by
        simpa [Payload.key] using hk
      have hm : a ∈ rootsOf (submitted r) d.payload.transferId :=
        List.mem_filter.mpr ⟨ha, by simp [ht]⟩
      split
      next k previous hf =>
        obtain ⟨b, hb, he⟩ := List.mem_map.mp ((h.tracks hs).checksums ▸ List.mem_of_find?_eq_some hf)
        have hkey := List.find?_some hf
        obtain ⟨rfl, rfl⟩ := Prod.mk.inj he
        obtain ⟨hb, hbt⟩ := List.mem_filter.mp hb
        -- The entry found is that of the payload accepted under this key.
        have hba : b = a := by
          apply List.inj_on_of_nodup_map h.distinct hb ha
          simp only [decide_eq_true_eq, Prod.mk.injEq] at hkey hbt
          rw [← hk, Payload.key, Payload.key, hbt, hkey.1, hkey.2]
        rw [hba, if_pos (Ne.symm hc)]
        exact ⟨_, rfl⟩
      next hf =>
        rw [(h.tracks hs).checksums, List.find?_eq_none] at hf
        exact absurd (by simp [hp, hi]) (hf _ (List.mem_map_of_mem hm))

theorem Relay.Sound.child_mem (h : r.Sound cfg own) {w : Work β} (hw : w ∈ submitted r) {c : String}
    (hc : w.child = some c) : c ∈ children cfg.addresses w.relayRoot own := by
  rw [h.works] at hw
  obtain ⟨a, -, hw⟩ := List.mem_flatMap.mp hw
  rcases List.mem_cons.mp hw with rfl | hw
  · cases hc
  · obtain ⟨c', hc', rfl⟩ := List.mem_map.mp hw
    obtain rfl := Option.some.inj hc
    exact hc'

theorem nodup_works (cfg : Config) (own root : String) (p : Payload β) :
    (works cfg own root p).Nodup := by
  refine List.nodup_cons.mpr ⟨by simp, (nodup_children cfg.nodup root own).map fun c c' h ↦ ?_⟩
  simpa using h

theorem Relay.Sound.nodup_submitted (h : r.Sound cfg own) : (submitted r).Nodup := by
  rw [h.works, List.nodup_flatMap]
  refine ⟨fun a _ ↦ nodup_works cfg own a.1 a.2, ?_⟩
  refine (List.pairwise_map.mp h.distinct).imp fun hne w hw hw' ↦ hne ?_
  rw [← (payload_of_mem_works hw).1, ← (payload_of_mem_works hw').1]

end Relays

section Runs

variable {cfg : Config} {s t : Cluster β}

theorem init_sound (cfg : Config) : Sound cfg (init : Cluster β) where
  produced := fun x hx ↦ by cases hx
  data := fun d hd ↦ by cases hd
  calls := fun c hc ↦ by cases hc
  works := fun own w hw ↦ by cases hw
  relays := fun own ↦ {
    works := rfl
    distinct := List.nodup_nil
    handed := .nil
    unsealed := fun τ t ht ↦ by cases ht
    fresh := fun τ _ _ w hw ↦ by cases hw
    results := fun τ n hn ↦ by cases hn
    flushes := fun f hf ↦ by cases hf }
  forwards := fun x hx ↦ by cases hx
  nodup := List.nodup_nil

def OneRoot (s : Cluster β) : Prop :=
  ∀ x ∈ s.produced, ∀ y ∈ s.produced, x.2.key = y.2.key → x = y

theorem OneRoot.step {e : Event β} (h : OneRoot s) (hd : Distinct s e)
    (ht : t.produced = s.produced ++ e.sends) : OneRoot t := by
  rw [OneRoot, ht]
  cases e with
  | produce c address apiKey p =>
    intro x hx y hy hk
    rcases List.mem_append.mp hx with hx | hx <;> rcases List.mem_append.mp hy with hy | hy
    · exact h x hx y hy hk
    · obtain rfl := List.mem_singleton.mp hy
      exact hd x hx hk
    · obtain rfl := List.mem_singleton.mp hx
      exact (hd y hy hk.symm).symm
    · rw [List.mem_singleton.mp hx, List.mem_singleton.mp hy]
  | _ => simpa only [OneRoot, Event.sends, List.append_nil] using h

theorem settled_run (h : Sound cfg s) {own transferId : String} {n : ℕ}
    (hs : Settled (s.relays own).jobs (s.relays own).flushResults transferId n)
    (es : List (Event β)) (ht : exec (step cfg) s es = some t) :
    (t.relays own).handed.filter (·.transferId = transferId) =
      (s.relays own).handed.filter (·.transferId = transferId) := by
  induction es generalizing s with
  | nil =>
    obtain rfl := Option.some.inj ht
    rfl
  | cons e es ih =>
    obtain ⟨u, hu, ht⟩ := Option.bind_eq_some_iff.mp ht
    obtain ⟨hsu, hm, -⟩ := step_follows h hu
    rcases hm own with heq | hm
    · rw [← heq] at hs ⊢
      exact ih hsu hs ht
    · obtain ⟨hs', hh⟩ := hm.settled hs
      rw [← hh]
      exact ih hsu hs' ht

theorem forward_unique (h : Sound cfg s) (ho : OneRoot s) {own own' : String} {j j' : ℕ}
    {w w' : Work β} (hw : (submitted (s.relays own))[j]? = some w)
    (hw' : (submitted (s.relays own'))[j']? = some w') (hk : w.payload.key = w'.payload.key)
    (hf : w.child ≠ none) (hc : w.child = w'.child) : own = own' ∧ j = j' := by
  have hm := List.mem_of_getElem? hw
  have hm' := List.mem_of_getElem? hw'
  obtain ⟨ha, hp⟩ := h.works own w hm
  obtain ⟨ha', hp'⟩ := h.works own' w' hm'
  obtain ⟨hroot, hpay⟩ := Prod.mk.inj (ho _ hp _ hp' hk)
  obtain ⟨c, hwc⟩ := Option.ne_none_iff_exists'.mp hf
  have hcm := (h.relays own).child_mem hm hwc
  have hcm' := (h.relays own').child_mem hm' (hc ▸ hwc)
  rw [← hroot] at hcm'
  have hcr : c ≠ w.relayRoot := by
    rintro rfl
    exact (isTree cfg.nodup (h.produced _ hp)).orphan own hcm
  obtain rfl : own = own' :=
    ((isTree cfg.nodup (h.produced _ hp)).parent c ((mem_children cfg.nodup).mp hcm).1 hcr).unique
      ⟨ha, hcm⟩ ⟨ha', hcm'⟩
  refine ⟨rfl, ?_⟩
  obtain rfl : w = w' := by
    obtain ⟨p, root, child⟩ := w
    obtain ⟨p', root', child'⟩ := w'
    subst hroot hpay hc
    rfl
  obtain ⟨hj, he⟩ := List.getElem?_eq_some_iff.mp hw
  obtain ⟨hj', he'⟩ := List.getElem?_eq_some_iff.mp hw'
  exact (List.Nodup.getElem_inj_iff (h.relays own).nodup_submitted).mp (he.trans he'.symm)

/-- A settled transfer with as many payloads as were sent has all of them. -/
theorem settled_complete (h : Sound cfg s) (ho : OneRoot s) {own transferId : String}
    (hs : Settled (s.relays own).jobs (s.relays own).flushResults transferId
      (sent s transferId).card) {x : String × Payload β} (hx : x ∈ s.produced)
    (ht : x.2.transferId = transferId) : x ∈ accepted (s.relays own) := by
  have hsub : ((rootsOf (submitted (s.relays own)) transferId).map (·.2.key)).toFinset ⊆
      sent s transferId := by
    intro k hk
    obtain ⟨a, ha, rfl⟩ := List.mem_map.mp (List.mem_toFinset.mp hk)
    obtain ⟨ha, hat⟩ := List.mem_filter.mp ha
    refine List.mem_toFinset.mpr (List.mem_map_of_mem (List.mem_filter.mpr ⟨?_, hat⟩))
    exact (h.works own _ (mem_roots.mp ha)).2
  have hnd : ((rootsOf (submitted (s.relays own)) transferId).map (·.2.key)).Nodup :=
    (h.relays own).distinct.sublist (List.filter_sublist.map _)
  have heq := Finset.eq_of_subset_of_card_le hsub (by
    rw [List.toFinset_card_of_nodup hnd, List.length_map]
    exact hs.payloads.ge)
  have hxs : x.2.key ∈ sent s transferId :=
    List.mem_toFinset.mpr (List.mem_map_of_mem (List.mem_filter.mpr ⟨hx, by simpa using ht⟩))
  rw [← heq] at hxs
  obtain ⟨a, ha, hk⟩ := List.mem_map.mp (List.mem_toFinset.mp hxs)
  have ha := (List.mem_filter.mp ha).1
  obtain rfl := ho _ (h.works own _ (mem_roots.mp ha)).2 _ hx hk
  exact ha

theorem Sound.delivers (h : Sound cfg s) (ho : OneRoot s) : Delivers cfg s where
  once := fun own ↦ (h.relays own).nodup_handed
  accepts := fun own ↦ ⟨(h.relays own).distinct, fun p hp ↦ (h.relays own).exists_root hp⟩
  conflict := fun own a ha d hk hc ↦ (h.relays own).refuses ha hk hc
  tree := fun root hr ↦ isTree cfg.nodup hr
  edges := fun own w hw c hc ↦
    ⟨(h.works own w hw).1, (h.relays own).child_mem hw hc, (h.works own w hw).2⟩
  fanout := fun own a ha c hc ↦ by
    rw [(h.relays own).works]
    exact List.mem_flatMap.mpr ⟨a, ha, List.mem_cons_of_mem _ (List.mem_map_of_mem hc)⟩
  forwarded := fun own own' j j' w w' hw hw' hk hf hc ↦ forward_unique h ho hw hw' hk hf hc
  flushed := fun τ hflush own hown ↦ by
    obtain ⟨f, hf, rfl, -, hphase⟩ := hflush own hown
    have hs : Settled (s.relays own).jobs (s.relays own).flushResults f.transferId
        (sent s f.transferId).card := by
      have hfs := (h.relays own).flushes f hf
      rw [FlushSound, hphase] at hfs
      exact hfs
    refine ⟨fun x hx ht ↦ ?_, fun es t hexec ↦ settled_run h hs es hexec⟩
    have hacc := settled_complete h ho hs hx ht
    obtain ⟨job, hj, hw⟩ := List.mem_map.mp (mem_roots.mp hacc)
    have hdone : job.phase = .done true := hs.done job hj (by rw [hw]; exact ht)
    have hhanded : x.2 ∈ (s.relays own).handed :=
      (h.relays own).mem_handed.mpr ⟨job, hj, by rw [hw], by simp [hdone], by rw [hw]⟩
    refine ⟨hhanded, ?_, job, hj, by rw [hw], by rw [hw], hdone⟩
    exact List.count_eq_one_of_mem (h.relays own).nodup_handed (List.mem_map_of_mem hhanded)

/-- Whatever messages are lost, delayed, repeated or reordered, each relay hands
a payload over at most once, and what every relay has flushed is applied. -/
theorem relays_deliver (cfg : Config) (h : ReachableBy (step cfg) Initial Distinct s) :
    Delivers cfg s := by
  have hs : Sound cfg s ∧ OneRoot s := by
    apply h.invariant
    · rintro _ rfl
      exact ⟨init_sound cfg, fun x hx ↦ by cases hx⟩
    · intro s e t hs hd ht
      have hf := step_follows hs.1 ht
      exact ⟨hf.sound, hs.2.step hd hf.produced⟩
  exact hs.1.delivers hs.2

/-- Two relays: the root is sent a payload twice, the child gets it late and
twice, and both are flushed. -/
theorem relays_deliver_pair :
    ∃ s : Cluster ℕ, Delivers (.configureTree ["a", "b", "a"] 1 none) s ∧
      (s.relays "a").handed = [⟨"t", 0, 0, "c", 1, 7⟩] ∧
      (s.relays "b").handed = [⟨"t", 0, 0, "c", 1, 7⟩] ∧
      (s.relays "a").flushes.map FlushCall.phase = [.returned 1] ∧
      (s.relays "b").flushes.map FlushCall.phase = [.returned 1] :=
  ⟨_, relays_deliver (.configureTree ["a", "b", "a"] 1 none)
      (ReachableBy.run (show Initial init from rfl)
        [.produce 0 "b" none ⟨"t", 0, 0, "c", 1, 7⟩, .client 0 .send, .deliver 0,
          .client 0 .timeout, .client 0 .send, .deliver 1, .client 0 (.recv 0),
          .apply "b" 0, .forward "b" 1 1, .client 1 .send, .flush "a" (.call "t" 1), .deliver 2,
          .deliver 2, .flush "a" (.wake 0), .apply "a" 0, .client 1 (.recv 3),
          .applied "b" 0 true, .applied "a" 0 true, .flush "b" (.call "t" 1),
          .flush "a" (.finish 0), .flush "b" (.finish 0)] (by decide)),
    by decide, by decide, by decide, by decide⟩

end Runs

end NemoRL.Utils.ZmqRelay
