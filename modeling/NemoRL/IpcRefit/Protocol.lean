import Mathlib
import NemoRL.IpcRefit.Batches

namespace NemoRL.IpcRefit

open Utils Utils.PackedTensor Foundations Foundations.Transition

variable {bufferSizeBytes : ℕ} {info : StateDictInfo} {errorsAreFatal : Bool} {s t : Stream}
  {e : Event}

/-- No `recv` times out, and the set-up and the rest of the receiver's lifecycle
succeed. -/
def Undisturbed (_ : Stream) : Event → Prop
  | .senderTimeout | .receiverTimeout | .enter false | .leave false => False
  | _ => True

/-- The sender's side after `takeReply`. -/
inductive Effect (bufferSizeBytes : ℕ) (info : StateDictInfo) (errorsAreFatal : Bool) (s : Stream) :
    Event → Stream → Prop
  | pack (p : Param) (rest : List Param) (hstage : s.sender.stage = .packing)
      (hparams : s.sender.params = p :: rest) (hfits : ¬ p.isOversized bufferSizeBytes)
      (hroom : s.sender.usedBytes + p.alignedSize ≤ stagingBytes bufferSizeBytes) :
      Effect bufferSizeBytes info errorsAreFatal s .pack
        { s with sender := { s.sender.allocate with
          params := rest
          paramNames := s.sender.paramNames ++ [p.1]
          buffers := Function.update s.sender.buffers (.staging s.sender.currentBuffer)
            (packTensor (s.sender.buffers (.staging s.sender.currentBuffer)) p s.sender.usedBytes)
          usedBytes := s.sender.usedBytes + p.alignedSize } }
  | flush (s' : Stream) (hstage : s.sender.stage = .packing)
      (hflush : s.sender.flushes bufferSizeBytes) (htake : takeReply s = some s') :
      Effect bufferSizeBytes info errorsAreFatal s .flush
        { s' with
          requests := s'.requests ++ [.group (s'.sender.group bufferSizeBytes)]
          sender := { s'.sender with
            sent := s'.sender.sent + 1
            pending := some (.group (s'.sender.group bufferSizeBytes))
            awaitRecv := true
            currentBuffer := if s'.sender.params = [] then s'.sender.currentBuffer
              else !s'.sender.currentBuffer
            usedBytes := 0
            paramNames := [] } }
  | packOversized (p : Param) (rest : List Param) (hstage : s.sender.stage = .packing)
      (hparams : s.sender.params = p :: rest) (hsize : p.isOversized bufferSizeBytes)
      (hnames : s.sender.paramNames = []) :
      Effect bufferSizeBytes info errorsAreFatal s .packOversized
        { s with sender := { s.sender with
          stage := .packed
          allocated := Function.update s.sender.allocate.allocated .oversized true
          buffers := Function.update s.sender.buffers .oversized
            (packTensor (s.sender.buffers .oversized) p 0) } }
  | sendOversized (s' : Stream) (p : Param) (rest : List Param) (hstage : s.sender.stage = .packed)
      (hparams : s.sender.params = p :: rest) (htake : takeReply s = some s') :
      Effect bufferSizeBytes info errorsAreFatal s .sendOversized
        { s' with
          requests := s'.requests ++ [.group ⟨⟨.oversized, p.alignedSize⟩, [p.1], p.alignedSize⟩]
          sender := { s'.sender with
            sent := s'.sender.sent + 1
            pending := some (.group ⟨⟨.oversized, p.alignedSize⟩, [p.1], p.alignedSize⟩)
            stage := .shipped
            params := rest } }
  | freeOversized (hstage : s.sender.stage = .shipped) (hreply : 0 < s.replies) :
      Effect bufferSizeBytes info errorsAreFatal s .freeOversized
        { s with
          replies := s.replies - 1
          sender := { s.sender with
            stage := .packing
            awaitRecv := false
            allocated := Function.update s.sender.allocated .oversized false
            acked := s.sender.acked + 1
            pending := none } }
  | complete (s' : Stream) (hstage : s.sender.stage = .packing) (hparams : s.sender.params = [])
      (hnames : s.sender.paramNames = []) (htake : takeReply s = some s') :
      Effect bufferSizeBytes info errorsAreFatal s .complete
        { s' with
          requests := s'.requests ++ [.complete]
          sender := { s'.sender.release with
            sent := s'.sender.sent + 1
            pending := some .complete
            stage := .completing } }
  | finish (hstage : s.sender.stage = .completing) (hreply : 0 < s.replies) :
      Effect bufferSizeBytes info errorsAreFatal s .finish
        { s with
          replies := s.replies - 1
          sender := { s.sender with
            stage := .returned, acked := s.sender.acked + 1, pending := none } }
  | enter (hstage : s.receiver.stage = .entering) :
      Effect bufferSizeBytes info errorsAreFatal s (.enter true)
        { s with receiver := { s.receiver with stage := .receiving } }
  | receive (p : Payload) (rest : List Payload) (hstage : s.receiver.stage = .receiving)
      (hrequests : s.requests = p :: rest) :
      Effect bufferSizeBytes info errorsAreFatal s .receive
        { s with
          requests := rest
          receiver := { s.receiver with
            stage := p.handled } }
  | load (g : Group) (rebuilt loaded : Bool) (hstage : s.receiver.stage = .handling g) :
      Effect bufferSizeBytes info errorsAreFatal s (.load rebuilt loaded)
        { s with receiver := s.receiver.load info g rebuilt loaded }
  | acknowledge (g : Group) (batchKeys : Option (Finset String)) (buffer : Option Handle)
      (weights : List View) (batchError synchronized : Bool)
      (hstage : s.receiver.stage = .replying g batchKeys buffer weights batchError) :
      Effect bufferSizeBytes info errorsAreFatal s (.acknowledge synchronized)
        { s with
          replies := s.replies + 1
          receiver := s.receiver.acknowledge s.sender.buffers g batchKeys buffer weights batchError
            synchronized }
  | finalize (ok : Bool) (hstage : s.receiver.stage = .completing) :
      Effect bufferSizeBytes info errorsAreFatal s (.finalize ok)
        { s with
          replies := s.replies + 1
          receiver := s.receiver.finalize errorsAreFatal ok }
  | leave (hstage : s.receiver.stage = .leaving) :
      Effect bufferSizeBytes info errorsAreFatal s (.leave true)
        { s with receiver := { s.receiver with stage := .returned true } }

theorem step_sender_effect (h : stepSender bufferSizeBytes s e = some t) (hok : Undisturbed s e) :
    Effect bufferSizeBytes info errorsAreFatal s e t := by
  cases e with
  | pack =>
    simp only [stepSender] at h
    split at h
    · rename_i p rest hstage hparams
      split_ifs at h with hnot
      obtain rfl := Option.some.inj h
      obtain ⟨hfits, hflush⟩ := not_or.mp hnot
      refine .pack p rest hstage hparams hfits ?_
      simp only [Sender.flushes, hparams, if_neg hfits] at hflush
      omega
    · cases h
  | flush =>
    simp only [stepSender] at h
    split_ifs at h with hflush
    obtain ⟨s', htake, rfl⟩ := Option.map_eq_some_iff.mp h
    exact .flush s' hflush.1 hflush.2 htake
  | packOversized =>
    simp only [stepSender] at h
    split at h
    · rename_i p rest hstage hparams
      split_ifs at h with hsize
      obtain rfl := Option.some.inj h
      refine .packOversized p rest hstage hparams hsize.1 ?_
      have hflush := hsize.2
      simpa only [Sender.flushes, hparams, if_pos hsize.1, Decidable.not_not, ne_eq] using hflush
    · cases h
  | sendOversized =>
    simp only [stepSender] at h
    split at h
    · rename_i p rest hstage hparams
      obtain ⟨s', htake, rfl⟩ := Option.map_eq_some_iff.mp h
      exact .sendOversized s' p rest hstage hparams htake
    · cases h
  | freeOversized =>
    simp only [stepSender] at h
    split_ifs at h with hfree
    obtain rfl := Option.some.inj h
    exact .freeOversized hfree.1 hfree.2
  | complete =>
    simp only [stepSender] at h
    split_ifs at h with hcomplete
    obtain ⟨hstage, hparams, hflush⟩ := hcomplete
    obtain ⟨s', htake, rfl⟩ := Option.map_eq_some_iff.mp h
    refine .complete s' hstage hparams ?_ htake
    simpa only [Sender.flushes, hparams, Decidable.not_not, ne_eq] using hflush
  | finish =>
    simp only [stepSender] at h
    split_ifs at h with hfinish
    obtain rfl := Option.some.inj h
    exact .finish hfinish.1 hfinish.2
  | senderTimeout => exact hok.elim
  | enter | receive | load | acknowledge | finalize | leave | receiverTimeout => cases h

theorem step_receiver_effect (h : stepReceiver info errorsAreFatal s e = some t)
    (hok : Undisturbed s e) : Effect bufferSizeBytes info errorsAreFatal s e t := by
  cases e with
  | enter ok =>
    cases ok with
    | false => exact hok.elim
    | true =>
      simp only [stepReceiver] at h
      split at h
      · rename_i hstage
        obtain rfl := Option.some.inj h
        exact .enter hstage
      · cases h
  | receive =>
    simp only [stepReceiver] at h
    split at h
    · rename_i p rest hstage hrequests
      obtain rfl := Option.some.inj h
      exact .receive p rest hstage hrequests
    · cases h
  | load rebuilt loaded =>
    simp only [stepReceiver] at h
    split at h
    · rename_i g hstage
      obtain rfl := Option.some.inj h
      exact .load g rebuilt loaded hstage
    · cases h
  | acknowledge synchronized =>
    simp only [stepReceiver] at h
    split at h
    · rename_i g batchKeys buffer weights batchError hstage
      obtain rfl := Option.some.inj h
      exact .acknowledge g batchKeys buffer weights batchError synchronized hstage
    · cases h
  | finalize ok =>
    simp only [stepReceiver] at h
    split at h
    · rename_i hstage
      obtain rfl := Option.some.inj h
      exact .finalize ok hstage
    · cases h
  | leave ok =>
    cases ok with
    | false => exact hok.elim
    | true =>
      simp only [stepReceiver] at h
      split at h
      · rename_i hstage
        obtain rfl := Option.some.inj h
        exact .leave hstage
      · cases h
  | receiverTimeout => exact hok.elim
  | pack | flush | packOversized | sendOversized | freeOversized | complete | finish
  | senderTimeout => cases h

theorem step_effect (h : step bufferSizeBytes info errorsAreFatal s e = some t)
    (hok : Undisturbed s e) : Effect bufferSizeBytes info errorsAreFatal s e t := by
  rcases Option.or_eq_some_iff.mp h with h | ⟨-, h⟩
  · exact step_sender_effect h hok
  · exact step_receiver_effect h hok

theorem takeReply_cases {s' : Stream} (h : takeReply s = some s') :
    (s.sender.awaitRecv = false ∧ s' = s) ∨
    (s.sender.awaitRecv = true ∧ 0 < s.replies ∧ s' = { s with
      replies := s.replies - 1
      sender := { s.sender with awaitRecv := false, acked := s.sender.acked + 1, pending := none } }) := by
  rw [takeReply] at h
  split_ifs at h with hawait hreplies
  · exact .inr ⟨hawait, Nat.pos_of_ne_zero hreplies, (Option.some.inj h).symm⟩
  · exact .inl ⟨Bool.eq_false_iff.mpr hawait, (Option.some.inj h).symm⟩

theorem takeReply_eq {s' : Stream} (h : takeReply s = some s') :
    ∃ replies awaitRecv acked pending, s' = { s with
      replies := replies
      sender := { s.sender with awaitRecv := awaitRecv, acked := acked, pending := pending } } := by
  rcases takeReply_cases h with ⟨-, rfl⟩ | ⟨-, -, rfl⟩
  · exact ⟨_, _, _, _, rfl⟩
  · exact ⟨_, _, _, _, rfl⟩

/-- The message that the receiver has and has not replied to. -/
def ReceiverStage.held : ReceiverStage → Option Payload
  | .handling g | .replying g .. => some (.group g)
  | .completing => some .complete
  | _ => none

def ReceiverStage.isEnded : ReceiverStage → Bool
  | .leaving | .returned _ | .raised => true
  | _ => false

/-- Where the one message stands that has no reply yet. -/
inductive Turn (s : Stream) : Prop
  | clear (hpending : s.sender.pending = none) (hrequests : s.requests = [])
      (hheld : s.receiver.stage.held = none) (hreplies : s.replies = 0)
  | requested (p : Payload) (hpending : s.sender.pending = some p) (hrequests : s.requests = [p])
      (hheld : s.receiver.stage.held = none) (hreplies : s.replies = 0)
  | held (p : Payload) (hpending : s.sender.pending = some p) (hrequests : s.requests = [])
      (hheld : s.receiver.stage.held = some p) (hreplies : s.replies = 0)
  | replied (p : Payload) (hpending : s.sender.pending = some p) (hrequests : s.requests = [])
      (hheld : s.receiver.stage.held = none) (hreplies : s.replies = 1)

def SenderStage.loops : SenderStage → Bool
  | .packing | .packed => true
  | _ => false

/-- A group that is not acknowledged stands in a buffer that is not written to. -/
def Sender.Guarded (s : Sender) (b : BufferRef) : Prop :=
  s.allocated b = true ∧
    ((s.stage = .shipped ∧ b = .oversized) ∨
      (s.stage.loops ∧ ∃ i, b = .staging i ∧
        (i = !s.currentBuffer ∨ s.params = [] ∧ s.paramNames = [])))

structure Protocol (s : Stream) : Prop where
  turn : Turn s
  await : s.sender.stage.loops → (s.sender.awaitRecv = true ↔ s.sender.pending ≠ none)
  sent : s.sender.sent = s.sender.acked + s.sender.pending.toList.length
  replied : s.receiver.replied = s.sender.acked + s.replies
  completing : s.sender.pending = some .complete ↔ s.sender.stage = .completing
  shipped : s.sender.stage = .shipped → s.sender.pending ≠ none
  returned : s.sender.stage = .returned → s.sender.pending = none
  ended : s.receiver.stage.isEnded = true ↔
    s.sender.stage = .completing ∧ s.replies = 1 ∨ s.sender.stage = .returned
  timedOut : s.sender.stage ≠ .timedOut
  guarded : ∀ g, s.sender.pending = some (.group g) → s.sender.Guarded g.handle.buffer
  used : s.sender.paramNames = [] → s.sender.usedBytes = 0
  staging : s.sender.paramNames ≠ [] → ∀ i, s.sender.allocated (.staging i) = true
  packed : s.sender.stage = .packed → s.sender.allocated .oversized = true

theorem Protocol.take (h : Protocol s) (hstage : s.sender.stage.loops) {s' : Stream}
    (ht : takeReply s = some s') :
    Protocol s' ∧ s'.sender.pending = none ∧ s'.requests = [] ∧ s'.receiver.stage.held = none ∧
      s'.replies = 0 ∧ s'.sender.awaitRecv = false := by
  rcases takeReply_cases ht with ⟨hawait, rfl⟩ | ⟨hawait, hreplies, rfl⟩
  · have hnone : s'.sender.pending = none := by
      by_contra hne
      rw [(h.await hstage).mpr hne] at hawait
      cases hawait
    cases h.turn with
    | clear hpending hrequests hheld hreplies => exact ⟨h, hpending, hrequests, hheld, hreplies, hawait⟩
    | requested p hpending => rw [hpending] at hnone; cases hnone
    | held p hpending => rw [hpending] at hnone; cases hnone
    | replied p hpending => rw [hpending] at hnone; cases hnone
  · cases h.turn with
    | clear _ _ _ hzero => omega
    | requested _ _ _ _ hzero => omega
    | held _ _ _ _ hzero => omega
    | replied p hpending hrequests hheld hone =>
      have hnext : s.replies - 1 = 0 := by omega
      refine ⟨⟨.clear rfl hrequests hheld hnext, ?_, ?_, ?_, ?_, ?_, ?_, ?_, h.timedOut, nofun, h.used,
        h.staging, h.packed⟩, rfl, hrequests, hheld, hnext, rfl⟩
      · exact fun _ ↦ iff_of_false nofun (· rfl)
      · rw [h.sent, hpending]
        rfl
      · show s.receiver.replied = s.sender.acked + 1 + (s.replies - 1)
        rw [h.replied]
        omega
      · refine iff_of_false nofun fun hcompleting ↦ ?_
        rw [show s.sender.stage = .completing from hcompleting] at hstage
        cases hstage
      · intro hshipped
        rw [show s.sender.stage = .shipped from hshipped] at hstage
        cases hstage
      · exact fun _ ↦ rfl
      · rw [h.ended]
        have hnot : s.sender.stage ≠ .completing := by
          intro hcompleting
          rw [hcompleting] at hstage
          cases hstage
        simp [hnot]

theorem Protocol.paramNames_ne_nil (h : Protocol s) (hflush : s.sender.flushes bufferSizeBytes) :
    s.sender.paramNames ≠ [] := by
  intro hnil
  have hused := h.used hnil
  unfold Sender.flushes at hflush
  split at hflush
  · exact hflush hnil
  · split_ifs at hflush with hsize
    · exact hflush hnil
    · rw [hused, Nat.zero_add] at hflush
      exact hsize hflush

theorem Turn.of_replies (h : Turn s) (hreplies : 0 < s.replies) :
    s.replies = 1 ∧ s.requests = [] ∧ s.receiver.stage.held = none ∧
      ∃ p, s.sender.pending = some p := by
  cases h with
  | clear _ _ _ hzero => omega
  | requested _ _ _ _ hzero => omega
  | held _ _ _ _ hzero => omega
  | replied p hpending hrequests hheld hone => exact ⟨hone, hrequests, hheld, p, hpending⟩

theorem Turn.of_held {p : Payload} (h : Turn s) (hheld : s.receiver.stage.held = some p) :
    s.sender.pending = some p ∧ s.requests = [] ∧ s.replies = 0 := by
  cases h with
  | clear _ _ hnone => rw [hnone] at hheld; cases hheld
  | requested _ _ _ hnone => rw [hnone] at hheld; cases hheld
  | held q hpending hrequests hheld' hreplies =>
    rw [hheld'] at hheld
    obtain rfl := Option.some.inj hheld
    exact ⟨hpending, hrequests, hreplies⟩
  | replied _ _ _ hnone => rw [hnone] at hheld; cases hheld

theorem Turn.of_requests {p : Payload} {rest : List Payload} (h : Turn s)
    (hrequests : s.requests = p :: rest) :
    s.sender.pending = some p ∧ rest = [] ∧ s.replies = 0 := by
  cases h with
  | clear _ hnil => rw [hnil] at hrequests; cases hrequests
  | requested q hpending hone _ hreplies =>
    rw [hone] at hrequests
    obtain ⟨rfl, rfl⟩ := List.cons.inj hrequests
    exact ⟨hpending, rfl, hreplies⟩
  | held _ _ hnil => rw [hnil] at hrequests; cases hrequests
  | replied _ _ hnil => rw [hnil] at hrequests; cases hrequests

theorem Receiver.load_cases (info : StateDictInfo) (r : Receiver) (g : Group) (rebuilt loaded : Bool) :
    ((r.manifest.validateBatch g.paramNames).1.errors ≠ [] ∧
      (r.load info g rebuilt loaded).stage = .replying g none none [] false) ∨
    ((r.manifest.validateBatch g.paramNames).1.errors = [] ∧ ∃ buffer weights batchError,
      (r.load info g rebuilt loaded).stage =
        .replying g (some g.paramNames.toFinset) buffer weights batchError ∧
      (batchError = true → weights = []) ∧
      (batchError = false →
        ∃ offset, buildViews info g.handle.size g.paramNames 0 = some (weights, offset))) := by
  by_cases hnil : (r.manifest.validateBatch g.paramNames).1.errors = []
  · refine .inr ⟨hnil, ?_⟩
    have hsnd := r.manifest.validateBatch_snd g.paramNames
    rw [if_pos hnil] at hsnd
    simp only [Receiver.load, hsnd]
    cases rebuilt with
    | false => exact ⟨_, _, _, rfl, fun _ ↦ rfl, nofun⟩
    | true =>
      cases hviews : buildViews info g.handle.size g.paramNames 0 with
      | none => exact ⟨_, _, _, rfl, fun _ ↦ rfl, nofun⟩
      | some views =>
        by_cases hloaded : views.2 = g.usedBytes ∧ loaded
        · refine ⟨_, _, _, if_pos hloaded, nofun, fun _ ↦ ⟨views.2, rfl⟩⟩
        · exact ⟨_, _, _, if_neg hloaded, fun _ ↦ rfl, nofun⟩
  · refine .inl ⟨hnil, ?_⟩
    have hsnd := r.manifest.validateBatch_snd g.paramNames
    rw [if_neg hnil] at hsnd
    simp only [Receiver.load, hsnd]

theorem Receiver.load_stage (info : StateDictInfo) (r : Receiver) (g : Group) (rebuilt loaded : Bool) :
    ∃ batchKeys buffer weights batchError,
      (r.load info g rebuilt loaded).stage = .replying g batchKeys buffer weights batchError := by
  rcases Receiver.load_cases info r g rebuilt loaded with ⟨-, h⟩ | ⟨-, buffer, weights, batchError, h, -⟩
  · exact ⟨_, _, _, _, h⟩
  · exact ⟨_, _, _, _, h⟩

theorem ReceiverStage.isEnded_failed : (ReceiverStage.failed errorsAreFatal).isEnded = true := by
  rw [ReceiverStage.failed]
  split_ifs <;> rfl

theorem ReceiverStage.held_failed : (ReceiverStage.failed errorsAreFatal).held = none := by
  rw [ReceiverStage.failed]
  split_ifs <;> rfl

theorem Protocol.work {r : Receiver} (h : Protocol s) (hheld : r.stage.held = s.receiver.stage.held)
    (hended : r.stage.isEnded = s.receiver.stage.isEnded) (hreplied : r.replied = s.receiver.replied) :
    Protocol { s with receiver := r } where
  turn := by
    cases h.turn with
    | clear h₁ h₂ h₃ h₄ => exact .clear h₁ h₂ (hheld.trans h₃) h₄
    | requested p h₁ h₂ h₃ h₄ => exact .requested p h₁ h₂ (hheld.trans h₃) h₄
    | held p h₁ h₂ h₃ h₄ => exact .held p h₁ h₂ (hheld.trans h₃) h₄
    | replied p h₁ h₂ h₃ h₄ => exact .replied p h₁ h₂ (hheld.trans h₃) h₄
  await := h.await
  sent := h.sent
  replied := hreplied.trans h.replied
  completing := h.completing
  shipped := h.shipped
  returned := h.returned
  ended := by rw [hended]; exact h.ended
  timedOut := h.timedOut
  guarded := h.guarded
  used := h.used
  staging := h.staging
  packed := h.packed

theorem Protocol.reply {r : Receiver} {p : Payload} (h : Protocol s)
    (hheld : s.receiver.stage.held = some p) (hr : r.stage.held = none)
    (hended : r.stage.isEnded = true ↔ p = .complete) (hreplied : r.replied = s.receiver.replied + 1) :
    Protocol { s with replies := s.replies + 1, receiver := r } := by
  obtain ⟨hpending, hrequests, hreplies⟩ := h.turn.of_held hheld
  refine ⟨.replied p hpending hrequests hr (by rw [hreplies]), h.await, h.sent, ?_, h.completing,
    h.shipped, h.returned, ?_, h.timedOut, h.guarded, h.used, h.staging, h.packed⟩
  · show r.replied = s.sender.acked + (s.replies + 1)
    rw [hreplied, h.replied]
    rfl
  · have hnot : s.sender.stage ≠ .returned := by
      intro hreturned
      rw [h.returned hreturned] at hpending
      cases hpending
    have hone : s.replies + 1 = 1 := by rw [hreplies]
    rw [hended]
    simp only [hone, hnot, and_true, or_false]
    rw [← h.completing, hpending, Option.some.injEq]

theorem Protocol.step (h : Protocol s) (hs : step bufferSizeBytes info errorsAreFatal s e = some t)
    (hok : Undisturbed s e) : Protocol t := by
  cases step_effect hs hok with
  | pack p rest hstage hparams hfits hroom =>
    have hturn : Turn { s with sender := { s.sender with params := rest } } := by
      cases h.turn with
      | clear h₁ h₂ h₃ h₄ => exact .clear h₁ h₂ h₃ h₄
      | requested p h₁ h₂ h₃ h₄ => exact .requested p h₁ h₂ h₃ h₄
      | held p h₁ h₂ h₃ h₄ => exact .held p h₁ h₂ h₃ h₄
      | replied p h₁ h₂ h₃ h₄ => exact .replied p h₁ h₂ h₃ h₄
    refine ⟨?_, h.await, h.sent, h.replied, h.completing, h.shipped, h.returned, h.ended, h.timedOut,
      ?_, ?_, fun _ _ ↦ rfl, ?_⟩
    · cases hturn with
      | clear h₁ h₂ h₃ h₄ => exact .clear h₁ h₂ h₃ h₄
      | requested p h₁ h₂ h₃ h₄ => exact .requested p h₁ h₂ h₃ h₄
      | held p h₁ h₂ h₃ h₄ => exact .held p h₁ h₂ h₃ h₄
      | replied p h₁ h₂ h₃ h₄ => exact .replied p h₁ h₂ h₃ h₄
    · intro g hg
      obtain ⟨-, ⟨hshipped, -⟩ | ⟨hloops, i, hi, hcurrent | ⟨hnil, -⟩⟩⟩ := h.guarded g hg
      · rw [hstage] at hshipped
        cases hshipped
      · rw [hi]
        exact ⟨rfl, .inr ⟨hloops, i, rfl, .inl hcurrent⟩⟩
      · rw [hparams] at hnil
        cases hnil
    · intro hnil
      exact absurd (List.append_eq_nil_iff.mp hnil).2 (List.cons_ne_nil _ _)
    · intro hpacked
      rw [show s.sender.stage = .packed from hpacked] at hstage
      cases hstage
  | flush s' hstage hflush htake =>
    have hnames := h.paramNames_ne_nil hflush
    have hloops : s.sender.stage.loops := by rw [hstage]; rfl
    obtain ⟨h', hpending, hrequests, hheld, hreplies, hawait⟩ := h.take hloops htake
    obtain ⟨replies, awaitRecv, acked, pending, rfl⟩ := takeReply_eq htake
    have hsent := h'.sent
    rw [hpending] at hsent
    refine ⟨.requested _ rfl ?_ hheld hreplies, fun _ ↦ iff_of_true rfl nofun, ?_, h'.replied, ?_, ?_,
      ?_, ?_, h'.timedOut, ?_, fun _ ↦ rfl, fun hne ↦ absurd rfl hne, h'.packed⟩
    · rw [hrequests]
      rfl
    · rw [hsent]
      rfl
    · refine iff_of_false nofun ?_
      rw [hstage]
      nofun
    · exact fun _ ↦ nofun
    · intro hreturned
      rw [show s.sender.stage = .returned from hreturned] at hstage
      cases hstage
    · exact h'.ended
    · intro g hg
      obtain rfl := Payload.group.inj (Option.some.inj hg)
      refine ⟨h.staging hnames _, .inr ⟨hloops, s.sender.currentBuffer, rfl, ?_⟩⟩
      by_cases hparams : s.sender.params = []
      · exact .inr ⟨hparams, rfl⟩
      · refine .inl ?_
        show s.sender.currentBuffer =
          !(if s.sender.params = [] then s.sender.currentBuffer else !s.sender.currentBuffer)
        rw [if_neg hparams, Bool.not_not]
  | packOversized p rest hstage hparams hsize hnames =>
    have hloops : s.sender.stage.loops := by rw [hstage]; rfl
    refine ⟨?_, fun _ ↦ h.await hloops, h.sent, h.replied, ?_, nofun, nofun, ?_, nofun, ?_, h.used, ?_,
      fun _ ↦ Function.update_self BufferRef.oversized true s.sender.allocate.allocated⟩
    · cases h.turn with
      | clear h₁ h₂ h₃ h₄ => exact .clear h₁ h₂ h₃ h₄
      | requested p h₁ h₂ h₃ h₄ => exact .requested p h₁ h₂ h₃ h₄
      | held p h₁ h₂ h₃ h₄ => exact .held p h₁ h₂ h₃ h₄
      | replied p h₁ h₂ h₃ h₄ => exact .replied p h₁ h₂ h₃ h₄
    · rw [show s.sender.pending = some .complete ↔ _ from h.completing, hstage]
      exact iff_of_false nofun nofun
    · rw [show s.receiver.stage.isEnded = true ↔ _ from h.ended, hstage]
      simp
    · intro g hg
      obtain ⟨-, ⟨hshipped, -⟩ | ⟨-, i, hi, hcurrent | ⟨hnil, -⟩⟩⟩ := h.guarded g hg
      · rw [hstage] at hshipped
        cases hshipped
      · rw [hi]
        refine ⟨?_, .inr ⟨rfl, i, rfl, .inl hcurrent⟩⟩
        have hne : BufferRef.staging i ≠ .oversized := nofun
        exact Function.update_of_ne hne true s.sender.allocate.allocated
      · rw [hparams] at hnil
        cases hnil
    · exact fun hne ↦ absurd hnames hne
  | sendOversized s' p rest hstage hparams htake =>
    have hloops : s.sender.stage.loops := by rw [hstage]; rfl
    obtain ⟨h', hpending, hrequests, hheld, hreplies, hawait⟩ := h.take hloops htake
    obtain ⟨replies, awaitRecv, acked, pending, rfl⟩ := takeReply_eq htake
    have hsent := h'.sent
    have hended := h'.ended
    rw [hpending] at hsent
    rw [show (_ : Stream).sender.stage = .packed from hstage] at hended
    refine ⟨.requested _ rfl ?_ hheld hreplies, nofun, ?_, h'.replied, iff_of_false nofun nofun,
      fun _ ↦ nofun, nofun, ?_, nofun, ?_, h'.used, h'.staging, nofun⟩
    · rw [hrequests]
      rfl
    · rw [hsent]
      rfl
    · rw [hended]
      simp
    · intro g hg
      obtain rfl := Payload.group.inj (Option.some.inj hg)
      exact ⟨h.packed hstage, .inl ⟨rfl, rfl⟩⟩
  | freeOversized hstage hreply =>
    obtain ⟨hone, hrequests, hheld, p, hpending⟩ := h.turn.of_replies hreply
    have hsent := h.sent
    have hended := h.ended
    rw [hpending] at hsent
    rw [hstage] at hended
    refine ⟨.clear rfl hrequests hheld (by rw [hone]), fun _ ↦ iff_of_false nofun (· rfl), ?_, ?_,
      iff_of_false nofun nofun, nofun, nofun, ?_, nofun, nofun, h.used, ?_, nofun⟩
    · rw [hsent]
      rfl
    · show s.receiver.replied = s.sender.acked + 1 + (s.replies - 1)
      rw [h.replied, hone]
    · rw [hended]
      simp
    · intro hne i
      have hne' : BufferRef.staging i ≠ .oversized := nofun
      exact (Function.update_of_ne hne' false s.sender.allocated).trans (h.staging hne i)
  | complete s' hstage hparams hnames htake =>
    have hloops : s.sender.stage.loops := by rw [hstage]; rfl
    obtain ⟨h', hpending, hrequests, hheld, hreplies, hawait⟩ := h.take hloops htake
    obtain ⟨replies, awaitRecv, acked, pending, rfl⟩ := takeReply_eq htake
    have hsent := h'.sent
    have hended := h'.ended
    rw [hpending] at hsent
    rw [show (_ : Stream).sender.stage = .packing from hstage] at hended
    refine ⟨.requested _ rfl ?_ hheld hreplies, nofun, ?_, h'.replied, iff_of_true rfl rfl,
      nofun, nofun, ?_, nofun, nofun, h'.used, fun hne ↦ absurd hnames hne, nofun⟩
    · rw [hrequests]
      rfl
    · rw [hsent]
      rfl
    · have hzero : replies = 0 := hreplies
      rw [hended]
      simp [hzero]
  | finish hstage hreply =>
    obtain ⟨hone, hrequests, hheld, p, hpending⟩ := h.turn.of_replies hreply
    have hsent := h.sent
    rw [hpending] at hsent
    refine ⟨.clear rfl hrequests hheld (by rw [hone]), nofun, ?_, ?_, iff_of_false nofun nofun, nofun,
      fun _ ↦ rfl, ?_, nofun, nofun, h.used, h.staging, nofun⟩
    · rw [hsent]
      rfl
    · show s.receiver.replied = s.sender.acked + 1 + (s.replies - 1)
      rw [h.replied, hone]
    · exact iff_of_true (h.ended.mpr (.inl ⟨hstage, hone⟩)) (.inr rfl)
  | enter hstage => exact h.work (by rw [hstage]; rfl) (by rw [hstage]; rfl) rfl
  | receive p rest hstage hrequests =>
    obtain ⟨hpending, rfl, hreplies⟩ := h.turn.of_requests hrequests
    have hended := h.ended
    rw [hstage] at hended
    refine ⟨.held p hpending rfl ?_ hreplies, h.await, h.sent, h.replied, h.completing, h.shipped,
      h.returned, ?_, h.timedOut, h.guarded, h.used, h.staging, h.packed⟩
    · cases p <;> rfl
    · rw [show (_ : Stream).receiver.stage.isEnded = ReceiverStage.receiving.isEnded from ?_]
      · exact hended
      · cases p <;> rfl
  | load g rebuilt loaded hstage =>
    obtain ⟨batchKeys, buffer, weights, batchError, hload⟩ :=
      Receiver.load_stage info s.receiver g rebuilt loaded
    exact h.work (by rw [hstage, hload]; rfl) (by rw [hstage, hload]; rfl) rfl
  | acknowledge g batchKeys buffer weights batchError synchronized hstage =>
    exact h.reply (p := .group g) (by rw [hstage]; rfl) rfl (iff_of_false nofun nofun) rfl
  | finalize ok hstage =>
    refine h.reply (p := .complete) (by rw [hstage]; rfl) ?_ (iff_of_true ?_ rfl) rfl
    · simp only [Receiver.finalize]
      split_ifs
      · rfl
      · exact ReceiverStage.held_failed
    · simp only [Receiver.finalize]
      split_ifs
      · rfl
      · exact ReceiverStage.isEnded_failed
  | leave hstage => exact h.work (by rw [hstage]; rfl) (by rw [hstage]; rfl) rfl

end NemoRL.IpcRefit
