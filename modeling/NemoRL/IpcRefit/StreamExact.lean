import Mathlib
import NemoRL.IpcRefit.Ledger

namespace NemoRL.IpcRefit

open Utils Utils.PackedTensor Foundations Foundations.Transition

variable {bufferSizeBytes : ℕ} {info : StateDictInfo} {errorsAreFatal : Bool} {s t : Stream}
  {e : Event} {params : List Param}

structure Sound (bufferSizeBytes : ℕ) (info : StateDictInfo) (params : List Param) (s : Stream) :
    Prop where
  protocol : Protocol s
  accounted : Accounted bufferSizeBytes info params s

theorem Initial.sound (h : Initial info params s) : Sound bufferSizeBytes info params s := by
  obtain ⟨hparams, hallocated, hcurrent, hused, hnames, hawait, hstage, hsent, hacked, hpending,
    hreceiver, hrequests, hreplies⟩ := h
  refine ⟨⟨.clear hpending hrequests (by rw [hreceiver]; rfl) hreplies, ?_, ?_, ?_, ?_, ?_, ?_, ?_, ?_,
    ?_, ?_, ?_, ?_⟩, [], [], [], ⟨?_, hnames, hused, trivial, ?_, ?_, fun _ ↦ rfl, ?_, ?_⟩, ?_⟩
  · rw [hawait, hpending]
    exact fun _ ↦ iff_of_false nofun (· rfl)
  · rw [hsent, hacked, hpending]
    rfl
  · rw [hreceiver, hacked, hreplies]
  · rw [hpending, hstage]
    exact iff_of_false nofun nofun
  · rw [hstage]
    nofun
  · rw [hstage]
    nofun
  · rw [hreceiver, hstage]
    simp [ReceiverStage.isEnded]
  · rw [hstage]
    nofun
  · rw [hpending]
    nofun
  · exact fun _ ↦ hused
  · exact fun hne ↦ absurd hnames hne
  · rw [hstage]
    nofun
  · rw [hparams]
    rfl
  · rw [hused]
    exact Nat.zero_le _
  · intro g hg
    rw [outstanding_eq_none hpending] at hg
    cases hg
  · rw [hstage]
    nofun
  · rw [hstage]
    simp
  · rw [hreceiver]
    refine ⟨rfl, fun _ ↦ ⟨fun _ ↦ rfl, rfl, List.nodup_nil, nofun⟩, fun hne ↦ absurd rfl hne, nofun,
      nofun, fun _ ↦ ⟨⟨_, rfl⟩, fun _ ↦ rfl⟩, nofun, ?_, ?_⟩
    · rintro (hend | hend) <;> cases hend
    · rintro (hend | hend) <;> cases hend

theorem Sound.step (h : Sound bufferSizeBytes info params s)
    (hs : step bufferSizeBytes info errorsAreFatal s e = some t) (hok : Undisturbed s e) :
    Sound bufferSizeBytes info params t :=
  ⟨h.protocol.step hs hok, h.accounted.step h.protocol hs hok⟩

theorem sound_of_reachable
    (h : ReachableBy (step bufferSizeBytes info errorsAreFatal) (Initial info params) Undisturbed s) :
    Sound bufferSizeBytes info params s :=
  h.invariant (fun _ hi ↦ hi.sound) fun _ _ _ hs hok hstep ↦ hs.step hstep hok

/-! ### Every message is acknowledged once -/

theorem Protocol.acks (h : Protocol s) : s.sender.acked ≤ s.receiver.replied ∧
    s.receiver.replied ≤ s.sender.sent ∧ s.sender.sent ≤ s.sender.acked + 1 := by
  have hsent := h.sent
  have hreplied := h.replied
  cases h.turn with
  | clear hpending _ _ hreplies =>
    rw [hpending, Option.toList_none, List.length_nil] at hsent
    omega
  | requested p hpending _ _ hreplies =>
    rw [hpending, Option.toList_some, List.length_singleton] at hsent
    omega
  | held p hpending _ _ hreplies =>
    rw [hpending, Option.toList_some, List.length_singleton] at hsent
    omega
  | replied p hpending _ _ hreplies =>
    rw [hpending, Option.toList_some, List.length_singleton] at hsent
    omega

theorem Protocol.acked_of_take {s' : Stream} {g : Group} (h : Protocol s)
    (hloops : s.sender.stage.loops) (hpending : s.sender.pending = some (.group g))
    (ht : takeReply s = some s') : s'.sender.acked = s.sender.acked + 1 := by
  rcases takeReply_cases ht with ⟨hawait, -⟩ | ⟨-, -, rfl⟩
  · have hne : s.sender.pending ≠ none := by rw [hpending]; nofun
    rw [(h.await hloops).mpr hne] at hawait
    cases hawait
  · rfl

/-- A buffer whose group is not acknowledged is neither written to nor freed. -/
theorem Sound.kept {g : Group} (h : Sound bufferSizeBytes info params s)
    (hs : IpcRefit.step bufferSizeBytes info errorsAreFatal s e = some t) (hok : Undisturbed s e)
    (hpending : s.sender.pending = some (.group g)) (hacked : t.sender.acked = s.sender.acked) :
    t.sender.buffers g.handle.buffer = s.sender.buffers g.handle.buffer ∧
      t.sender.allocated g.handle.buffer = true := by
  have hp := h.protocol
  have hp' := hp.step hs hok
  have hguarded := (hp.guarded g hpending).1
  cases step_effect hs hok with
  | pack p rest hstage hparams =>
    refine ⟨Function.update_of_ne ?_ _ _, (hp'.guarded g hpending).1⟩
    rw [hp.buffer_eq hpending hstage hparams]
    simp
  | packOversized p rest hstage hparams =>
    refine ⟨Function.update_of_ne ?_ _ _, (hp'.guarded g hpending).1⟩
    rw [hp.buffer_eq hpending hstage hparams]
    nofun
  | flush s' hstage _ htake =>
    have hone := hp.acked_of_take (by rw [hstage]; rfl) hpending htake
    have hsame : s'.sender.acked = s.sender.acked := hacked
    omega
  | sendOversized s' p rest hstage _ htake =>
    have hone := hp.acked_of_take (by rw [hstage]; rfl) hpending htake
    have hsame : s'.sender.acked = s.sender.acked := hacked
    omega
  | complete s' hstage _ _ htake =>
    have hone := hp.acked_of_take (by rw [hstage]; rfl) hpending htake
    have hsame : s'.sender.acked = s.sender.acked := hacked
    omega
  | freeOversized => exact absurd hacked (Nat.succ_ne_self _)
  | finish => exact absurd hacked (Nat.succ_ne_self _)
  | enter | receive | load | acknowledge | finalize | leave => exact ⟨rfl, hguarded⟩

/-! ### What is loaded, and the result -/

theorem Sound.loaded_isPrefix (h : Sound bufferSizeBytes info params s) (hsizes : SizesMatch info params) :
    s.receiver.loaded <+: params.map (sentAs info) := by
  obtain ⟨handled, inFlight, placed, hl, hr⟩ := h.accounted
  refine (hr.loaded hsizes).1.trans ?_
  rw [hl.split, List.map_append]
  exact List.prefix_append ..

theorem Sound.all_handled (h : Sound bufferSizeBytes info params s)
    (hended : s.receiver.stage.isEnded = true) :
    Record info params s.sender.buffers s.receiver params [] := by
  obtain ⟨handled, inFlight, placed, hl, hr⟩ := h.accounted
  have hend := h.protocol.ended.mp hended
  have hnone : s.outstanding = none := by
    rcases hend with ⟨-, hreplies⟩ | hreturned
    · exact if_neg (by omega)
    · exact outstanding_eq_none (h.protocol.returned hreturned)
  obtain ⟨rfl, hparams⟩ := hl.ended (hend.imp_left And.left)
  obtain rfl := hl.idle hnone
  have hall : handled = params := by
    rw [hl.split, hparams]
    simp
  rwa [← hall] at hr ⊢

theorem Sound.loaded_all (h : Sound bufferSizeBytes info params s) (hsizes : SizesMatch info params)
    (hended : s.receiver.stage.isEnded = true) (hnil : s.receiver.manifest.errors = []) :
    s.receiver.loaded = params.map (sentAs info) := ((h.all_handled hended).loaded hsizes).2 hnil

theorem Sound.errors_of_returned (h : Sound bufferSizeBytes info params s)
    (hstage : s.receiver.stage = .returned true) : s.receiver.manifest.errors = [] := by
  have hr := h.all_handled (by rw [hstage]; rfl)
  obtain ⟨hhealthy, hexact⟩ := hr.accepted (.inr hstage)
  by_contra hne
  rcases hr.broken hne with hbad | hbad
  · rw [hhealthy] at hbad
    cases hbad
  · rw [List.append_nil] at hbad
    exact hbad hexact.acceptable

theorem Sound.sticky (h : Sound bufferSizeBytes info params s)
    (hs : IpcRefit.step bufferSizeBytes info errorsAreFatal s e = some t) (hok : Undisturbed s e)
    (hne : s.receiver.manifest.errors ≠ []) :
    t.receiver.manifest.errors ≠ [] ∧ t.receiver.loaded = s.receiver.loaded := by
  obtain ⟨handled, inFlight, placed, hl, hr⟩ := h.accounted
  cases step_effect hs hok with
  | pack | packOversized | freeOversized | finish | enter | receive | leave | finalize =>
    exact ⟨hne, rfl⟩
  | flush s' _ _ htake =>
    obtain ⟨_, _, _, _, rfl⟩ := takeReply_eq htake
    exact ⟨hne, rfl⟩
  | sendOversized s' _ _ _ _ htake =>
    obtain ⟨_, _, _, _, rfl⟩ := takeReply_eq htake
    exact ⟨hne, rfl⟩
  | complete s' _ _ _ htake =>
    obtain ⟨_, _, _, _, rfl⟩ := takeReply_eq htake
    exact ⟨hne, rfl⟩
  | load g rebuilt loaded hstage =>
    exact ⟨fun hnil ↦ hne (Manifest.validateBatch_errors.mp hnil).1, rfl⟩
  | acknowledge g batchKeys buffer weights batchError synchronized hstage =>
    cases batchKeys with
    | some keys => exact absurd (hr.accepting _ _ _ _ _ hstage).1 hne
    | none =>
      obtain ⟨-, rfl, rfl, rfl⟩ := hr.rejecting _ _ _ _ hstage
      refine ⟨hne, ?_⟩
      simp [Receiver.acknowledge]

/-! ### The run comes to its end -/

section Rank

def ReceiverStage.cost : ReceiverStage → ℕ
  | .handling _ | .completing => 2
  | .entering | .replying .. | .leaving => 1
  | _ => 0

def SenderStage.cost : SenderStage → ℕ
  | .packing => 5
  | .packed => 4
  | .shipped => 6
  | .completing => 1
  | _ => 0

/-- A bound on the steps that are left: a message takes the receiver three. -/
def Stream.rank (s : Stream) : ℕ :=
  6 * s.sender.params.length + (if s.sender.paramNames = [] then 0 else 4) + s.sender.stage.cost +
    3 * s.requests.length + s.receiver.stage.cost

theorem ReceiverStage.cost_failed : (ReceiverStage.failed errorsAreFatal).cost = 0 := by
  rw [ReceiverStage.failed]
  split_ifs <;> rfl

theorem Sound.rank_lt (h : Sound bufferSizeBytes info params s)
    (hs : IpcRefit.step bufferSizeBytes info errorsAreFatal s e = some t) (hok : Undisturbed s e) :
    t.rank < s.rank := by
  cases step_effect hs hok with
  | pack p rest hstage hparams =>
    simp only [Stream.rank, hparams, List.length_cons, Sender.allocate]
    split_ifs <;> omega
  | flush s' hstage hflush htake =>
    have hnames := h.protocol.paramNames_ne_nil hflush
    obtain ⟨_, _, _, _, rfl⟩ := takeReply_eq htake
    simp only [Stream.rank, if_neg hnames, List.length_append, List.length_singleton, if_true]
    omega
  | packOversized p rest hstage =>
    simp only [Stream.rank, hstage, SenderStage.cost]
    omega
  | sendOversized s' p rest hstage hparams htake =>
    obtain ⟨_, _, _, _, rfl⟩ := takeReply_eq htake
    simp only [Stream.rank, hstage, hparams, List.length_cons, SenderStage.cost, List.length_append,
      List.length_nil]
    omega
  | freeOversized hstage =>
    simp only [Stream.rank, hstage, SenderStage.cost]
    omega
  | complete s' hstage hparams hnames htake =>
    obtain ⟨_, _, _, _, rfl⟩ := takeReply_eq htake
    simp only [Stream.rank, hstage, SenderStage.cost, Sender.release, List.length_append,
      List.length_singleton]
    omega
  | finish hstage =>
    simp only [Stream.rank, hstage, SenderStage.cost]
    omega
  | enter hstage =>
    simp only [Stream.rank, hstage, ReceiverStage.cost]
    omega
  | receive p rest hstage hrequests =>
    have hcost : p.handled.cost = 2 := by cases p <;> rfl
    simp only [Stream.rank, hstage, hrequests, hcost, List.length_cons]
    omega
  | load g rebuilt loaded hstage =>
    obtain ⟨_, _, _, _, hload⟩ := Receiver.load_stage info s.receiver g rebuilt loaded
    simp only [Stream.rank, hload, hstage, ReceiverStage.cost]
    omega
  | acknowledge g batchKeys buffer weights batchError synchronized hstage =>
    simp only [Stream.rank, hstage, Receiver.acknowledge, ReceiverStage.cost]
    omega
  | finalize ok hstage =>
    have hcost : (s.receiver.finalize errorsAreFatal ok).stage.cost ≤ 1 := by
      simp only [Receiver.finalize]
      split_ifs
      · exact le_rfl
      · rw [ReceiverStage.cost_failed]
        exact Nat.zero_le _
    have hold : s.receiver.stage.cost = 2 := by rw [hstage]; rfl
    simp only [Stream.rank, hold]
    omega
  | leave hstage =>
    simp only [Stream.rank, hstage, ReceiverStage.cost]
    omega

end Rank

def Stream.Finished (s : Stream) : Prop :=
  s.sender.stage = .returned ∧ ((∃ result, s.receiver.stage = .returned result) ∨
    s.receiver.stage = .raised)

theorem step_of_sender (h : stepSender bufferSizeBytes s e = some t) :
    step bufferSizeBytes info errorsAreFatal s e = some t := by
  rw [step, h]
  rfl

theorem step_of_receiver (hsender : stepSender bufferSizeBytes s e = none)
    (h : stepReceiver info errorsAreFatal s e = some t) :
    step bufferSizeBytes info errorsAreFatal s e = some t := by
  rw [step, hsender, h]
  rfl

theorem take_isSome (h : Protocol s) (hloops : s.sender.stage.loops) (hrequests : s.requests = [])
    (hheld : s.receiver.stage.held = none) : ∃ s', takeReply s = some s' := by
  rw [takeReply]
  split_ifs with hawait hreplies
  · have hne := (h.await hloops).mp hawait
    cases h.turn with
    | clear hpending => exact absurd hpending hne
    | requested p _ hone => rw [hone] at hrequests; cases hrequests
    | held p _ _ hsome => rw [hsome] at hheld; cases hheld
    | replied p _ _ _ hone => omega
  · exact ⟨_, rfl⟩
  · exact ⟨_, rfl⟩

/-- The sender can go on once the receiver has replied. -/
theorem Sound.sender_progress (h : Sound bufferSizeBytes info params s) (hrequests : s.requests = [])
    (hheld : s.receiver.stage.held = none) (hstage : s.sender.stage ≠ .returned) :
    ∃ e t, Undisturbed s e ∧ stepSender bufferSizeBytes s e = some t := by
  obtain ⟨handled, inFlight, placed, hl, -⟩ := h.accounted
  have hreplies : s.sender.pending ≠ none → 0 < s.replies := by
    intro hne
    cases h.protocol.turn with
    | clear hpending => exact absurd hpending hne
    | requested p _ hone => rw [hone] at hrequests; cases hrequests
    | held p _ _ hsome => rw [hsome] at hheld; cases hheld
    | replied p _ _ _ hone => omega
  cases hcase : s.sender.stage with
  | returned => exact absurd hcase hstage
  | timedOut => exact absurd hcase h.protocol.timedOut
  | shipped =>
    have hready := hreplies (h.protocol.shipped hcase)
    exact ⟨.freeOversized, _, trivial, if_pos ⟨hcase, hready⟩⟩
  | completing =>
    have hready := hreplies (by rw [h.protocol.completing.mpr hcase]; nofun)
    exact ⟨.finish, _, trivial, if_pos ⟨hcase, hready⟩⟩
  | packed =>
    obtain ⟨-, p, rest, hparams, -⟩ := hl.packed hcase
    obtain ⟨s', hs'⟩ := take_isSome h.protocol (by rw [hcase]; rfl) hrequests hheld
    exact ⟨.sendOversized, _, trivial, by
      simp only [stepSender, hcase, hparams, hs', Option.map_some]; rfl⟩
  | packing =>
    obtain ⟨s', hs'⟩ := take_isSome h.protocol (by rw [hcase]; rfl) hrequests hheld
    by_cases hflush : s.sender.flushes bufferSizeBytes
    · exact ⟨.flush, _, trivial, by
        simp only [stepSender, if_pos (And.intro hcase hflush), hs', Option.map_some]; rfl⟩
    · cases hparams : s.sender.params with
      | nil =>
        have hlast := And.intro hcase (And.intro hparams hflush)
        exact ⟨.complete, _, trivial, by
          simp only [stepSender, if_pos hlast, hs', Option.map_some]; rfl⟩
      | cons p rest =>
        by_cases hsize : p.isOversized bufferSizeBytes
        · exact ⟨.packOversized, _, trivial, by
            simp only [stepSender, hcase, hparams, if_pos (And.intro hsize hflush)]; rfl⟩
        · have hnot : ¬ (p.isOversized bufferSizeBytes ∨ s.sender.flushes bufferSizeBytes) :=
            not_or.mpr ⟨hsize, hflush⟩
          exact ⟨.pack, _, trivial, by
            simp only [stepSender, hcase, hparams, if_neg hnot]; rfl⟩

theorem Sound.progress (h : Sound bufferSizeBytes info params s) (hs : ¬ s.Finished) :
    ∃ e t, Undisturbed s e ∧ IpcRefit.step bufferSizeBytes info errorsAreFatal s e = some t := by
  have hsender : s.requests = [] → s.receiver.stage.held = none → s.sender.stage ≠ .returned →
      ∃ e t, Undisturbed s e ∧ IpcRefit.step bufferSizeBytes info errorsAreFatal s e = some t := by
    intro hrequests hheld hstage
    obtain ⟨e, t, hok, ht⟩ := h.sender_progress hrequests hheld hstage
    exact ⟨e, t, hok, step_of_sender ht⟩
  have hended := h.protocol.ended
  cases hcase : s.receiver.stage with
  | entering => exact ⟨.enter true, _, trivial,
      step_of_receiver rfl (by simp only [stepReceiver, hcase]; rfl)⟩
  | handling g =>
    exact ⟨.load true true, _, trivial,
      step_of_receiver rfl (by simp only [stepReceiver, hcase]; rfl)⟩
  | replying g batchKeys buffer weights batchError =>
    exact ⟨.acknowledge true, _, trivial,
      step_of_receiver rfl (by simp only [stepReceiver, hcase]; rfl)⟩
  | completing =>
    exact ⟨.finalize true, _, trivial,
      step_of_receiver rfl (by simp only [stepReceiver, hcase]; rfl)⟩
  | leaving =>
    exact ⟨.leave true, _, trivial,
      step_of_receiver rfl (by simp only [stepReceiver, hcase]; rfl)⟩
  | receiving =>
    cases hrequests : s.requests with
    | cons p rest =>
      exact ⟨.receive, _, trivial,
        step_of_receiver rfl (by simp only [stepReceiver, hcase, hrequests]; rfl)⟩
    | nil =>
      refine hsender hrequests (by rw [hcase]; rfl) fun hreturned ↦ ?_
      have htrue := hended.mpr (.inr hreturned)
      rw [hcase] at htrue
      cases htrue
  | returned result =>
    have hrequests : s.requests = [] := by
      rcases hended.mp (by rw [hcase]; rfl) with ⟨-, hone⟩ | hreturned
      · exact (h.protocol.turn.of_replies (by omega)).2.1
      · exact absurd ⟨hreturned, .inl ⟨result, hcase⟩⟩ hs
    exact hsender hrequests (by rw [hcase]; rfl) fun hreturned ↦
      hs ⟨hreturned, .inl ⟨result, hcase⟩⟩
  | raised =>
    have hrequests : s.requests = [] := by
      rcases hended.mp (by rw [hcase]; rfl) with ⟨-, hone⟩ | hreturned
      · exact (h.protocol.turn.of_replies (by omega)).2.1
      · exact absurd ⟨hreturned, .inr hcase⟩ hs
    exact hsender hrequests (by rw [hcase]; rfl) fun hreturned ↦ hs ⟨hreturned, .inr hcase⟩

/-! ### The promise of the stream -/

/-- The promise, for the runs whose steps all meet a condition. -/
structure IpcExact (ok : Stream → Event → Prop) (bufferSizeBytes : ℕ) (info : StateDictInfo)
    (errorsAreFatal : Bool) (params : List Param) : Prop where
  /-- A message is sent only when each earlier one has had its one reply. -/
  acks : ∀ s, ReachableBy (step bufferSizeBytes info errorsAreFatal) (Initial info params) ok s →
    s.sender.acked ≤ s.receiver.replied ∧ s.receiver.replied ≤ s.sender.sent ∧
      s.sender.sent ≤ s.sender.acked + 1
  /-- A buffer is neither written to nor freed before its group's reply is taken. -/
  kept : ∀ s e t g, ReachableBy (step bufferSizeBytes info errorsAreFatal) (Initial info params) ok s →
    ok s e → step bufferSizeBytes info errorsAreFatal s e = some t →
    s.sender.pending = some (.group g) → t.sender.acked = s.sender.acked →
    t.sender.buffers g.handle.buffer = s.sender.buffers g.handle.buffer ∧
      t.sender.allocated g.handle.buffer = true
  loaded : ∀ s, ReachableBy (step bufferSizeBytes info errorsAreFatal) (Initial info params) ok s →
    SizesMatch info params → s.receiver.loaded <+: params.map (sentAs info) ∧
      (s.receiver.stage.isEnded = true → s.receiver.manifest.errors = [] →
        s.receiver.loaded = params.map (sentAs info))
  result : ∀ s, ReachableBy (step bufferSizeBytes info errorsAreFatal) (Initial info params) ok s →
    ((∃ result, s.receiver.stage = .returned result) ∨ s.receiver.stage = .raised) →
    (s.receiver.stage = .returned true ↔ Exact info params ∧ s.receiver.healthy = true)
  /-- After a failure of a batch or of the manifest, nothing more is loaded and
  the result is not `True`. -/
  sticky : ∀ s e t, ReachableBy (step bufferSizeBytes info errorsAreFatal) (Initial info params) ok s →
    s.receiver.manifest.errors ≠ [] → s.receiver.stage ≠ .returned true ∧
      (ok s e → step bufferSizeBytes info errorsAreFatal s e = some t →
        t.receiver.manifest.errors ≠ [] ∧ t.receiver.loaded = s.receiver.loaded)
  progress : ∀ s, ReachableBy (step bufferSizeBytes info errorsAreFatal) (Initial info params) ok s →
    s.Finished ∨ ∃ e t, ok s e ∧ step bufferSizeBytes info errorsAreFatal s e = some t
  /-- Every step brings the end nearer. -/
  bounded : ∀ s e t, ReachableBy (step bufferSizeBytes info errorsAreFatal) (Initial info params) ok s →
    ok s e → step bufferSizeBytes info errorsAreFatal s e = some t → t.rank < s.rank

theorem ipcExact_undisturbed (bufferSizeBytes : ℕ) (info : StateDictInfo) (errorsAreFatal : Bool)
    (params : List Param) : IpcExact Undisturbed bufferSizeBytes info errorsAreFatal params where
  acks := fun _ hs ↦ (sound_of_reachable hs).protocol.acks
  kept := fun _ _ _ _ hs hok hstep hpending hacked ↦
    (sound_of_reachable hs).kept hstep hok hpending hacked
  loaded := fun _ hs hsizes ↦ ⟨(sound_of_reachable hs).loaded_isPrefix hsizes,
    (sound_of_reachable hs).loaded_all hsizes⟩
  result := by
    intro s hs hend
    have hsound := sound_of_reachable hs
    have hended : s.receiver.stage.isEnded = true := by
      rcases hend with ⟨result, hstage⟩ | hstage <;> rw [hstage] <;> rfl
    have hr := hsound.all_handled hended
    constructor
    · intro hstage
      exact (hr.accepted (.inr hstage)).symm
    · rintro ⟨hexact, hhealthy⟩
      by_contra hne
      refine hr.refused ?_ ⟨hhealthy, hexact⟩
      rcases hend with ⟨result, hstage⟩ | hstage
      · cases result with
        | true => exact absurd hstage hne
        | false => exact .inl hstage
      · exact .inr hstage
  sticky := by
    intro s e t hs hne
    exact ⟨fun hstage ↦ hne ((sound_of_reachable hs).errors_of_returned hstage),
      fun hok hstep ↦ (sound_of_reachable hs).sticky hstep hok hne⟩
  progress := by
    intro s hs
    by_cases hfin : s.Finished
    · exact .inl hfin
    · exact .inr ((sound_of_reachable hs).progress hfin)
  bounded := fun _ _ _ hs hok hstep ↦ (sound_of_reachable hs).rank_lt hstep hok

set_option maxRecDepth 8000 in
/-- A sender whose `recv` times out frees the buffers that it has sent. -/
theorem timeout_frees_unacknowledged : ¬ IpcExact (fun _ _ ↦ True) 2048
    [("bias", [1], .int8)] false [("bias", ⟨[1], .int8, [7], rfl⟩)] := by
  intro hexact
  let s : Stream := ⟨⟨[("bias", ⟨[1], .int8, [7], rfl⟩)], fun _ _ ↦ 0, fun _ ↦ false, false, 0, [], false,
    .packing, 0, 0, none⟩, ⟨.init [("bias", [1], .int8)], .entering, [], true, 0⟩, [], 0⟩
  have hinit : Initial [("bias", [1], .int8)] [("bias", ⟨[1], .int8, [7], rfl⟩)] s :=
    ⟨rfl, fun _ ↦ rfl, rfl, rfl, rfl, rfl, rfl, rfl, rfl, rfl, rfl, rfl, rfl⟩
  let g : Group := ⟨⟨.staging false, 1024⟩, ["bias"], 512⟩
  let sent : Sender := ⟨[], Function.update (fun _ _ ↦ 0) (.staging false)
      (packTensor (fun _ ↦ 0) ("bias", ⟨[1], .int8, [7], rfl⟩) 0),
    s.sender.allocate.allocated, false, 0, [], true, .packing, 1, 0, some (.group g)⟩
  let t : Stream := ⟨sent, s.receiver, [.group g], 0⟩
  have hrun : exec (step 2048 [("bias", [1], .int8)] false) s [.pack, .flush] = some t := rfl
  have hreach := ReachableBy.exec (.init hinit) _ hrun
  have htimeout : step 2048 [("bias", [1], .int8)] false t .senderTimeout =
      some { t with sender := { sent with stage := .timedOut, allocated := fun _ ↦ false } } := rfl
  obtain ⟨-, hfreed⟩ := hexact.kept t .senderTimeout _ g hreach trivial htimeout rfl rfl
  cases hfreed

end NemoRL.IpcRefit
