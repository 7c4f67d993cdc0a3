import Mathlib
import NemoRL.CheckpointEngines.NixlExact

namespace NemoRL.CheckpointEngines

open Utils Utils.PackedTensor Foundations Foundations.Transition

theorem Merged.emitted_isPrefix {δ : Type} [ElementType δ] {bucketSize : ℕ}
    {weights emitted : List (Weight δ)} {done : List (Chunk δ)} {merging : Option (Merging δ)}
    (h : Merged bucketSize weights done emitted merging) : emitted <+: nonempty weights := by
  cases h with
  | whole ws ws' hws =>
    rw [hws, nonempty_append]
    exact List.prefix_append ..
  | part ws ws' w j m hws =>
    rw [hws, nonempty_append]
    exact List.prefix_append ..

namespace Nixl

variable {δ : Type}

def ReceiverStage.bucket : ReceiverStage δ → Option (Message δ)
  | .reading m _ | .fetched m | .yielded m _ _ => some m
  | _ => none

theorem Handshake.remoteDescs {s : Stream δ} {m : Message δ} (h : Handshake s) (hm : m ∈ s.unread) :
    m.remoteDescs = !s.sender.bufferIndex := by
  suffices hannounced : s.sender.Announced m by
    rw [h.bufferIndex, hannounced.remoteDescs, ← hannounced.notifyKey, Nat.bodd_succ, Bool.not_not]
  have hhandles : ∀ m', s.receiver.stage.Handles m' → s.unread = s.messages := by
    intro m' hm'
    refine unread_of_not_reading fun m'' missing heq ↦ ?_
    rw [heq] at hm'
    exact hm'
  cases h.turn with
  | awaiting hstage hmessages =>
    rw [unread_of_not_reading (by rw [hstage]; rintro _ _ ⟨⟩), hmessages] at hm
    cases hm
  | announced m' hstage hmessages _ _ hannounced =>
    rw [unread_of_not_reading (by rw [hstage]; rintro _ _ ⟨⟩), hmessages] at hm
    rwa [List.mem_singleton.mp hm]
  | reading m' missing hstage hmessages _ _ hannounced =>
    rw [Stream.unread, hstage, hmessages] at hm
    rwa [List.mem_singleton.mp hm]
  | handling m' hstage hmessages =>
    rw [hhandles m' hstage, hmessages] at hm
    cases hm
  | behind m' m'' hstage hmessages _ _ hannounced =>
    rw [hhandles m' hstage, hmessages] at hm
    rwa [List.mem_singleton.mp hm]
  | ended hstage hmessages =>
    rw [unread_of_not_reading (by rw [hstage]; rintro _ _ ⟨⟩), hmessages] at hm
    cases hm

theorem Handshake.alternates {s : Stream δ} {m : Message δ} (h : Handshake s)
    (hm : s.receiver.stage.bucket = some m) :
    m.remoteDescs = m.notifyKey.bodd ∧ s.receiver.bufferIndex = !m.remoteDescs := by
  by_cases hh : s.receiver.stage.Handles m
  · obtain ⟨hindex, hdescs, -⟩ := h.turn.of_handles hh
    exact ⟨hdescs, hindex⟩
  · obtain ⟨missing, hstage⟩ : ∃ missing, s.receiver.stage = .reading m missing := by
      generalize s.receiver.stage = stage at hm hh
      cases stage <;> simp_all [ReceiverStage.bucket, ReceiverStage.Handles]
    obtain ⟨-, -, -, hannounced, hindex⟩ := h.turn.of_reading hstage
    exact ⟨hannounced.remoteDescs, hindex⟩

section Rank

variable (bucketSize : ℕ)

/-- A bound on the steps of the receiver for a bucket. -/
def messageCost : ℕ := bucketSize + 5

def ReceiverStage.cost : ReceiverStage δ → ℕ
  | .reading _ missing => missing.length + 4
  | .fetched _ => 3
  | .yielded _ _ false => 2
  | .yielded _ _ true => 1
  | _ => 0

theorem Receiver.advance_cost (r : Receiver δ) (m : Message δ) : (r.advance m).stage.cost = 0 := by
  rcases r.advance_stage m with h | h <;> rw [h] <;> rfl

def SenderStage.cost : SenderStage → ℕ
  | .filling => messageCost bucketSize + 2
  | .closing => 1
  | .closed => 0

/-- A bound on the steps that are left. Each chunk may need a bucket of its own. -/
def Stream.rank (s : Stream δ) : ℕ :=
  s.sender.chunks.length * (messageCost bucketSize + 2) +
    (if s.sender.offset = 0 then 0 else messageCost bucketSize + 1) +
    s.sender.stage.cost bucketSize + s.messages.length * messageCost bucketSize +
    s.receiver.stage.cost

end Rank

variable [ElementType δ] {bucketSize : ℕ} {u : Buffer UInt8} {weights : List (Weight δ)}
  {s t : Stream δ} {e : Event}

structure Sound (bucketSize : ℕ) (weights : List (Weight δ)) (s : Stream δ) : Prop where
  handshake : Handshake s
  accounted : Accounted bucketSize weights s

theorem Initial.sound (h : Initial bucketSize weights s) : Sound bucketSize weights s := by
  obtain ⟨h₁, h₂, h₃, h₄, h₅, h₆, h₇, h₈, h₉, h₁₀, h₁₁, h₁₂, h₁₃⟩ := h
  refine ⟨⟨by rw [h₂, h₇]; rfl, .awaiting h₁₀ h₁₁ ?_ h₆ (by rw [h₈, h₇]; rfl)⟩,
    [], [], [], [], [], ?_⟩
  · rw [h₁₂, Sender.owed, h₅]
    split_ifs <;> rfl
  · refine ⟨h₁.symm, ?_, ?_, ?_, ?_, ?_, ?_, ?_, ?_⟩
    · rw [h₉]
      exact .whole [] weights rfl
    · rw [h₁₃, h₁₀]
      rfl
    · rw [h₁₀]
      exact .nil
    · rw [unread_of_not_reading (by rw [h₁₀]; rintro _ _ ⟨⟩), h₁₁]
      exact .nil
    · rw [h₄]
      exact .nil
    · rw [h₃]
      exact Nat.zero_le _
    · rw [h₁₀]
      rintro _ _ ⟨⟩
    · exact fun hne ↦ absurd h₆ hne

theorem Sound.step (hb : 0 < bucketSize) (hnd : (weights.map Prod.fst).Nodup)
    (h : Sound bucketSize weights s) (hs : step bucketSize u s e = some t) :
    Sound bucketSize weights t :=
  ⟨h.handshake.step hs, h.accounted.step hb hnd h.handshake hs⟩

theorem sound_of_reachable (hb : 0 < bucketSize) (hnd : (weights.map Prod.fst).Nodup)
    (h : Reachable (step bucketSize u) (Initial bucketSize weights) s) :
    Sound bucketSize weights s :=
  h.invariant (fun _ hi ↦ hi.sound) fun _ _ _ hs _ hstep ↦ hs.step hb hnd hstep

theorem Sound.received_isPrefix (h : Sound bucketSize weights s) :
    s.received <+: (nonempty weights).map contents := by
  obtain ⟨done, held, unread, placed, emitted, hl⟩ := h.accounted
  refine List.IsPrefix.trans ?_ (hl.merged.emitted_isPrefix.map contents)
  rw [← hl.received]
  exact List.prefix_append ..

theorem Sound.received_of_ended (hb : 0 < bucketSize) (h : Sound bucketSize weights s)
    (hstage : s.receiver.stage = .ended) : s.received = (nonempty weights).map contents := by
  obtain ⟨done, held, unread, placed, emitted, hl⟩ := h.accounted
  have hend : s.messages = [] ∧ s.sender.stage ≠ .filling := by
    cases h.handshake.turn with
    | ended _ hmessages _ hsender => exact ⟨hmessages, hsender⟩
    | awaiting hstage' => rw [hstage'] at hstage; cases hstage
    | announced _ hstage' => rw [hstage'] at hstage; cases hstage
    | reading _ _ hstage' => rw [hstage'] at hstage; cases hstage
    | handling _ hstage' => rw [hstage] at hstage'; exact hstage'.elim
    | behind _ _ hstage' => rw [hstage] at hstage'; exact hstage'.elim
  obtain ⟨hchunks, hmeta, -⟩ := hl.ending hend.2
  have hheld := hl.held
  have hreceived := hl.received
  have hunread := hl.unread
  have hplaced := hl.placed
  rw [unread_of_not_reading (by rw [hstage]; nofun), hend.1] at hunread
  rw [hstage] at hheld hreceived
  rw [hmeta] at hplaced
  obtain rfl := List.forall₂_nil_left_iff.mp hheld
  obtain rfl := List.forall₂_nil_left_iff.mp hunread
  obtain rfl := List.forall₂_nil_left_iff.mp hplaced
  have hdone : done = splitWeightChunks bucketSize weights := by
    rw [hl.split, hchunks]
    simp
  rw [← hl.merged.complete hb hdone, ← hreceived]
  simp [ReceiverStage.batch]

/-- A chunk that does not fit stands behind others in the bucket. -/
theorem Ledger.offset_ne_zero {c : Chunk δ} {rest done held unread placed : List (Chunk δ)}
    {emitted : List (Weight δ)} (hb : 0 < bucketSize)
    (h : Ledger bucketSize weights s done held unread placed emitted)
    (hchunks : s.sender.chunks = c :: rest) (hfits : ¬ s.sender.fits bucketSize c.1) :
    s.sender.offset ≠ 0 := by
  intro hzero
  have hmem := h.mem hb (hchunks ▸ List.mem_cons_self ..)
  rw [Sender.fits, alignedOffset_zero hzero, Nat.zero_add] at hfits
  exact hfits hmem.2.1

theorem Sound.rank_lt (hb : 0 < bucketSize) (h : Sound bucketSize weights s)
    (hs : Nixl.step bucketSize u s e = some t) : t.rank bucketSize < s.rank bucketSize := by
  obtain ⟨done, held, unread, placed, emitted, hl⟩ := h.accounted
  cases step_effect hs with
  | place c rest hsender hchunks hfits =>
    have hold : s.sender.chunks.length = rest.length + 1 := by rw [hchunks]; rfl
    have hstep : (s.sender.place c rest).chunks.length = rest.length := rfl
    have hstage : (s.sender.place c rest).stage = s.sender.stage := rfl
    simp only [Stream.rank, hold, hstep, hstage, Nat.succ_mul]
    split_ifs <;> omega
  | flush isLast notifications hsender hwait hchunks =>
    simp only [Stream.rank, hsender, SenderStage.cost, List.length_append, List.length_singleton,
      Nat.succ_mul, if_true]
    cases isLast with
    | false =>
      rw [if_neg Bool.false_ne_true] at hchunks
      obtain ⟨c, rest, hcons, hfits⟩ := hchunks
      rw [if_neg (hl.offset_ne_zero hb hcons hfits), if_neg Bool.false_ne_true]
      simp only
      omega
    | true =>
      simp only [if_true]
      split_ifs <;> omega
  | close notifications hsender hwait =>
    simp only [Stream.rank, hsender, SenderStage.cost]
    omega
  | take m rest hstage hmessages =>
    simp only [Stream.rank, hstage, hmessages, ReceiverStage.cost, List.length_cons, Nat.succ_mul,
      List.length_range, messageCost]
    omega
  | copy position m missing hstage hmem =>
    have hlen := List.length_erase_of_mem hmem
    have hpos := List.length_pos_of_mem hmem
    simp only [Stream.rank, hstage, ReceiverStage.cost, hlen]
    omega
  | notify m hstage =>
    simp only [Stream.rank, hstage, ReceiverStage.cost, List.length_nil]
    omega
  | merge m r hstage hmerge =>
    have hcost : r.stage.cost ≤ 2 := by
      obtain ⟨merging, batch, -, ⟨-, rfl⟩ | ⟨-, rfl⟩⟩ := Receiver.merge_cases hmerge
      · rw [Receiver.advance_cost]
        exact Nat.zero_le _
      · exact le_rfl
    simp only [Stream.rank, hstage, ReceiverStage.cost] at hcost ⊢
    omega
  | consume m batch hstage =>
    simp only [Stream.rank, hstage, ReceiverStage.cost]
    omega
  | next m batch hstage =>
    have hcost := Receiver.advance_cost s.receiver m
    have hold : s.receiver.stage.cost = 1 := by rw [hstage]; rfl
    simp only [Stream.rank, hcost, hold]
    omega

def Stream.Finished (s : Stream δ) : Prop := s.receiver.stage = .ended ∧ s.sender.stage = .closed

theorem Sound.step_of_handles {m : Message δ} (hb : 0 < bucketSize) (h : Sound bucketSize weights s)
    (hh : s.receiver.stage.Handles m) : ∃ e t, Nixl.step bucketSize u s e = some t := by
  obtain ⟨done, held, unread, placed, emitted, hl⟩ := h.accounted
  cases hstage : s.receiver.stage with
  | fetched m' =>
    obtain ⟨merging, batch, -, hbatch, -⟩ := hl.merge (u := u) hb hstage
    have hmerge : (s.receiver.merge u m').isSome := by
      simp only [Receiver.merge, hbatch, Option.bind_eq_bind, Option.bind_some]
      split_ifs <;> rfl
    obtain ⟨r, hr⟩ := Option.isSome_iff_exists.mp hmerge
    exact ⟨.merge, { s with receiver := r }, by simp only [Nixl.step, hstage, hr, Option.map_some]⟩
  | yielded m' batch consumed =>
    cases consumed with
    | false => exact ⟨.consume, _, by simp only [Nixl.step, hstage]; rfl⟩
    | true => exact ⟨.next, _, by simp only [Nixl.step, hstage]; rfl⟩
  | awaiting => rw [hstage] at hh; exact hh.elim
  | reading m' missing => rw [hstage] at hh; exact hh.elim
  | ended => rw [hstage] at hh; exact hh.elim

theorem Sound.progress (hb : 0 < bucketSize) (h : Sound bucketSize weights s)
    (hs : ¬ s.Finished) : ∃ e t, Nixl.step bucketSize u s e = some t := by
  cases h.handshake.turn with
  | awaiting hstage hmessages hnotifications hsender =>
    have hwait := waitReaders_owed (s := s.sender) (by rw [hsender]; rintro ⟨⟩)
    rw [← hnotifications] at hwait
    cases hchunks : s.sender.chunks with
    | nil =>
      exact ⟨.flush, _, by
        simp only [Nixl.step, hsender, hchunks, flushBucket, hwait, Option.map_some]; rfl⟩
    | cons c rest =>
      by_cases hfits : s.sender.fits bucketSize c.1
      · exact ⟨.place, _, by simp only [Nixl.step, hsender, hchunks, if_pos hfits]; rfl⟩
      · exact ⟨.flush, _, by
          simp only [Nixl.step, hsender, hchunks, if_neg hfits, flushBucket, hwait, Option.map_some]
          rfl⟩
  | announced m hstage hmessages =>
    exact ⟨.take, _, by simp only [Nixl.step, hstage, hmessages]; rfl⟩
  | reading m missing hstage =>
    cases missing with
    | nil => exact ⟨.notify, _, by simp only [Nixl.step, hstage]; rfl⟩
    | cons position missing =>
      exact ⟨.copy position, _, by
        simp only [Nixl.step, hstage, if_pos (List.mem_cons_self (a := position) (l := missing))]
        rfl⟩
  | handling m hstage => exact h.step_of_handles hb hstage
  | behind m m' hstage => exact h.step_of_handles hb hstage
  | ended hstage hmessages hnotifications hsender =>
    cases hclose : s.sender.stage with
    | filling => exact absurd hclose hsender
    | closed => exact absurd ⟨hstage, hclose⟩ hs
    | closing =>
      have hwait := waitReaders_owed (s := s.sender) (by rw [hclose]; rintro ⟨⟩)
      rw [← hnotifications] at hwait
      exact ⟨.close, _, by simp only [Nixl.step, hclose, hwait, Option.map_some]; rfl⟩

theorem Sound.length_le_rank (hb : 0 < bucketSize) (hnd : (weights.map Prod.fst).Nodup)
    (h : Sound bucketSize weights s) (es : List Event)
    (hs : (exec (Nixl.step bucketSize u) s es).isSome) : es.length ≤ s.rank bucketSize := by
  induction es generalizing s with
  | nil => exact Nat.zero_le _
  | cons e es ih =>
    rw [exec] at hs
    obtain ⟨t', ht'⟩ := Option.isSome_iff_exists.mp hs
    obtain ⟨t, ht, hrest⟩ := Option.bind_eq_some_iff.mp ht'
    have hlt := h.rank_lt hb ht
    have hle := ih (h.step hb hnd ht) (Option.isSome_iff_exists.mpr ⟨t', hrest⟩)
    rw [List.length_cons]
    omega

theorem Sound.finishes (hb : 0 < bucketSize) (hnd : (weights.map Prod.fst).Nodup)
    (h : Sound bucketSize weights s) :
    ∃ es t, exec (Nixl.step bucketSize u) s es = some t ∧ t.Finished := by
  induction hn : s.rank bucketSize using Nat.strong_induction_on generalizing s with
  | _ n ih =>
    by_cases hs : s.Finished
    · exact ⟨[], s, rfl, hs⟩
    · obtain ⟨e, t, ht⟩ := h.progress (u := u) hb hs
      obtain ⟨es, t', hes, hfin⟩ := ih _ (hn ▸ h.rank_lt hb ht) (h.step hb hnd ht) rfl
      refine ⟨e :: es, t', ?_, hfin⟩
      rw [exec, ht]
      exact hes

/-- The promise of the stream, for every interleaving. -/
structure StreamExact (bucketSize : ℕ) (u : Buffer UInt8) (weights : List (Weight δ)) : Prop where
  received : ∀ s, Reachable (Nixl.step bucketSize u) (Initial bucketSize weights) s →
    s.received <+: weights.map contents
  delivered : ∀ s, Reachable (Nixl.step bucketSize u) (Initial bucketSize weights) s →
    s.receiver.stage = .ended → s.received = weights.map contents
  /-- No unread bucket is written to. -/
  unread : ∀ s e t, Reachable (Nixl.step bucketSize u) (Initial bucketSize weights) s →
    Nixl.step bucketSize u s e = some t →
    ∀ m ∈ s.unread, t.sender.buffers m.remoteDescs = s.sender.buffers m.remoteDescs
  names : ∀ s t c rest, Reachable (Nixl.step bucketSize u) (Initial bucketSize weights) s →
    s.sender.chunks = c :: rest → Nixl.step bucketSize u s .place = some t →
    c.1.name ∉ s.sender.bucketMeta.map TensorMeta.name
  /-- Consecutive buckets take turns in the two buffers of each side. -/
  alternates : ∀ s m, Reachable (Nixl.step bucketSize u) (Initial bucketSize weights) s →
    s.receiver.stage.bucket = some m →
    m.remoteDescs = m.notifyKey.bodd ∧ s.receiver.bufferIndex = !m.remoteDescs
  views : ∀ s e t m batch consumed,
    Reachable (Nixl.step bucketSize u) (Initial bucketSize weights) s →
    s.receiver.stage = .yielded m batch consumed → e ≠ .next → Nixl.step bucketSize u s e = some t →
    t.receiver.buffers = s.receiver.buffers ∧ ∃ consumed', t.receiver.stage = .yielded m batch consumed'
  progress : ∀ s, Reachable (Nixl.step bucketSize u) (Initial bucketSize weights) s →
    s.Finished ∨ ∃ e t, Nixl.step bucketSize u s e = some t
  bounded : ∀ s, Initial bucketSize weights s → ∃ n, ∀ es,
    (exec (Nixl.step bucketSize u) s es).isSome → es.length ≤ n

theorem Sound.buffers_of_unread {m : Message δ} (h : Sound bucketSize weights s)
    (hs : Nixl.step bucketSize u s e = some t) (hm : m ∈ s.unread) :
    t.sender.buffers m.remoteDescs = s.sender.buffers m.remoteDescs := by
  have hdescs := h.handshake.remoteDescs hm
  cases step_effect hs with
  | place c rest =>
    refine Function.update_of_ne ?_ _ _
    rw [hdescs]
    simp
  | flush | close | take | copy | notify | merge | consume | next => rfl

theorem views_kept {m : Message δ} {batch : List (Entry δ)} {consumed : Bool}
    (hstage : s.receiver.stage = .yielded m batch consumed) (he : e ≠ .next)
    (hs : Nixl.step bucketSize u s e = some t) :
    t.receiver.buffers = s.receiver.buffers ∧
      ∃ consumed', t.receiver.stage = .yielded m batch consumed' := by
  cases step_effect hs with
  | place | flush | close => exact ⟨rfl, consumed, hstage⟩
  | take _ _ hstage' => rw [hstage] at hstage'; cases hstage'
  | copy _ _ _ hstage' => rw [hstage] at hstage'; cases hstage'
  | notify _ hstage' => rw [hstage] at hstage'; cases hstage'
  | merge _ _ hstage' => rw [hstage] at hstage'; cases hstage'
  | consume m' batch' hstage' =>
    rw [hstage] at hstage'
    obtain ⟨rfl, rfl, -⟩ := ReceiverStage.yielded.inj hstage'
    exact ⟨rfl, true, rfl⟩
  | next => exact absurd rfl he

theorem nonempty_eq_self : nonempty weights = weights ↔ ∀ w ∈ weights, w.2.bytes ≠ [] := by
  rw [nonempty, List.filter_eq_self]
  simp

theorem exists_initial (bucketSize : ℕ) (weights : List (Weight δ)) :
    ∃ s : Stream δ, Initial bucketSize weights s :=
  ⟨⟨⟨splitWeightChunks bucketSize weights, fun _ _ ↦ 0, false, 0, [], none, .filling, 0⟩,
    ⟨fun _ _ ↦ 0, true, none, .awaiting⟩, [], [], []⟩,
    rfl, rfl, rfl, rfl, rfl, rfl, rfl, rfl, rfl, rfl, rfl, rfl, rfl⟩

/-- The stream is exact unless a weight has no byte: such a weight has no chunk
and is never sent. -/
theorem streamExact_iff (hb : 0 < bucketSize) (hnd : (weights.map Prod.fst).Nodup) :
    StreamExact bucketSize u weights ↔ ∀ w ∈ weights, w.2.bytes ≠ [] := by
  constructor
  · intro hexact
    obtain ⟨s, hinit⟩ := exists_initial bucketSize weights
    obtain ⟨es, t, hes, hended, -⟩ := hinit.sound.finishes (u := u) hb hnd
    have hreach := ReachableBy.exec (.init hinit) es hes
    have hall := hexact.delivered t hreach hended
    rw [(sound_of_reachable hb hnd hreach).received_of_ended hb hended] at hall
    have hlen := congrArg List.length hall
    rw [List.length_map, List.length_map] at hlen
    exact nonempty_eq_self.mp (List.filter_sublist.eq_of_length hlen)
  · intro hbytes
    have hnonempty := nonempty_eq_self.mpr hbytes
    refine ⟨?_, ?_, ?_, ?_, ?_, ?_, ?_, ?_⟩
    · intro s hs
      have hreceived := (sound_of_reachable hb hnd hs).received_isPrefix
      rwa [hnonempty] at hreceived
    · intro s hs hended
      have hall := (sound_of_reachable hb hnd hs).received_of_ended hb hended
      rwa [hnonempty] at hall
    · intro s e t hs hstep m hm
      exact (sound_of_reachable hb hnd hs).buffers_of_unread hstep hm
    · intro s t c rest hs hchunks hstep
      obtain ⟨done, held, unread, placed, emitted, hl⟩ := (sound_of_reachable hb hnd hs).accounted
      cases step_effect hstep with
      | place c' rest' _ hchunks' hfits =>
        obtain ⟨rfl, -⟩ := List.cons.inj (hchunks.symm.trans hchunks')
        exact hl.name_notMem hb hnd hchunks hfits
    · intro s m hs hbucket
      exact (sound_of_reachable hb hnd hs).handshake.alternates hbucket
    · intro s e t m batch consumed _ hstage he hstep
      exact views_kept hstage he hstep
    · intro s hs
      by_cases hfin : s.Finished
      · exact .inl hfin
      · exact .inr ((sound_of_reachable hb hnd hs).progress hb hfin)
    · exact fun s hinit ↦ ⟨_, fun es hes ↦ hinit.sound.length_le_rank hb hnd es hes⟩

theorem streamExact_iff_bias : StreamExact 2 (fun _ ↦ 0)
      [("bias", ⟨[3], Dtype.int8, [1, 2, 3], rfl⟩)] ↔
    ∀ w ∈ ([("bias", ⟨[3], Dtype.int8, [1, 2, 3], rfl⟩)] : List (Weight Dtype)), w.2.bytes ≠ [] :=
  streamExact_iff (by decide) (by decide)

/-- A weight without elements is lost. -/
theorem zero_sized_not_delivered : ¬ StreamExact 1 (fun _ ↦ 0)
    [("bias", (⟨[0], Dtype.float32, [], rfl⟩ : Tensor Dtype))] := by
  intro hexact
  let s : Stream Dtype := ⟨⟨[], fun _ _ ↦ 0, false, 0, [], none, .filling, 0⟩,
    ⟨fun _ _ ↦ 0, true, none, .awaiting⟩, [], [], []⟩
  have hinit : Initial 1 [("bias", (⟨[0], Dtype.float32, [], rfl⟩ : Tensor Dtype))] s :=
    ⟨rfl, rfl, rfl, rfl, rfl, rfl, rfl, rfl, rfl, rfl, rfl, rfl, rfl⟩
  have hreach : Reachable (Nixl.step 1 fun _ ↦ 0) _ _ := Reachable.run hinit
    [.flush, .take, .copy 0, .notify, .merge] rfl
  have hall := hexact.delivered _ hreach rfl
  cases hall

end Nixl

end NemoRL.CheckpointEngines
