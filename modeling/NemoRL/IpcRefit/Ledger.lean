import Mathlib
import NemoRL.IpcRefit.Protocol

namespace NemoRL.IpcRefit

open Utils Utils.PackedTensor Foundations Foundations.Transition

variable {bufferSizeBytes : ℕ} {info : StateDictInfo} {errorsAreFatal : Bool} {s t : Stream}
  {e : Event} {params handled inFlight placed : List Param}

def Stream.outstanding (s : Stream) : Option Group :=
  if s.replies = 0 then
    match s.sender.pending with
    | some (.group g) => some g
    | _ => none
  else none

/-- The buffer of a group holds the parameters that it names. -/
structure Carries (buffers : BufferRef → Buffer UInt8) (g : Group) (ps : List Param) : Prop where
  paramNames : g.paramNames = names ps
  usedBytes : g.usedBytes = alignedSum ps
  size : alignedSum ps ≤ g.handle.size
  holds : Holds (buffers g.handle.buffer) 0 ps

/-- Where the parameters are: replied to, sent, in the current buffer, or still
to come. -/
structure Ledger (bufferSizeBytes : ℕ) (params : List Param) (s : Stream)
    (handled inFlight placed : List Param) : Prop where
  split : params = handled ++ (inFlight ++ (placed ++ s.sender.params))
  paramNames : s.sender.paramNames = names placed
  usedBytes : s.sender.usedBytes = alignedSum placed
  holds : Holds (s.sender.buffers (.staging s.sender.currentBuffer)) 0 placed
  room : s.sender.usedBytes ≤ stagingBytes bufferSizeBytes
  carried : ∀ g, s.outstanding = some g → Carries s.sender.buffers g inFlight
  idle : s.outstanding = none → inFlight = []
  packed : s.sender.stage = .packed → placed = [] ∧ ∃ p rest, s.sender.params = p :: rest ∧
    Holds (s.sender.buffers .oversized) 0 [p]
  ended : s.sender.stage = .completing ∨ s.sender.stage = .returned →
    placed = [] ∧ s.sender.params = []

/-- What the receiver has made of the groups. -/
structure Record (info : StateDictInfo) (params : List Param) (buffers : BufferRef → Buffer UInt8)
    (r : Receiver) (handled inFlight : List Param) : Prop where
  expected : r.manifest.expectedKeys = (info.map Prod.fst).toFinset
  intact : r.manifest.errors = [] → (r.stage.isEnded = false → r.healthy = true) ∧
    r.manifest.loadedKeys = (names handled).toFinset ∧ Acceptable info handled
  broken : r.manifest.errors ≠ [] → r.healthy = false ∨ ¬ Acceptable info (handled ++ inFlight)
  accepting : ∀ g keys buffer weights batchError,
    r.stage = .replying g (some keys) buffer weights batchError →
    r.manifest.errors = [] ∧ keys = (names inFlight).toFinset ∧
      Acceptable info (handled ++ inFlight) ∧ (batchError = true → weights = [])
  rejecting : ∀ g buffer weights batchError, r.stage = .replying g none buffer weights batchError →
    r.manifest.errors ≠ [] ∧ buffer = none ∧ weights = [] ∧ batchError = false
  loaded : SizesMatch info params → r.loaded <+: handled.map (sentAs info) ∧
    (r.manifest.errors = [] → r.loaded = handled.map (sentAs info))
  views : SizesMatch info params → ∀ g keys buffer weights,
    r.stage = .replying g (some keys) buffer weights false →
    weights.map (View.read (buffers g.handle.buffer)) = inFlight.map (sentAs info)
  accepted : r.stage = .leaving ∨ r.stage = .returned true → r.healthy = true ∧ Exact info params
  refused : r.stage = .returned false ∨ r.stage = .raised → ¬ (r.healthy = true ∧ Exact info params)

def Accounted (bufferSizeBytes : ℕ) (info : StateDictInfo) (params : List Param) (s : Stream) : Prop :=
  ∃ handled inFlight placed, Ledger bufferSizeBytes params s handled inFlight placed ∧
    Record info params s.sender.buffers s.receiver handled inFlight

theorem outstanding_eq_none (h : s.sender.pending = none) : s.outstanding = none := by
  rw [Stream.outstanding, h]
  split_ifs <;> rfl

theorem pending_of_outstanding {g : Group} (h : s.outstanding = some g) :
    s.sender.pending = some (.group g) := by
  rw [Stream.outstanding] at h
  split_ifs at h
  split at h
  · rename_i g' hpending
    rw [hpending, Option.some.inj h]
  · cases h

theorem outstanding_of_held {g : Group} (h : Protocol s) (hheld : s.receiver.stage.held = some (.group g)) :
    s.outstanding = some g := by
  obtain ⟨hpending, -, hreplies⟩ := h.turn.of_held hheld
  rw [Stream.outstanding, if_pos hreplies, hpending]

theorem Protocol.buffer_eq {g : Group} {p : Param} {rest : List Param} (h : Protocol s)
    (hpending : s.sender.pending = some (.group g)) (hstage : s.sender.stage = .packing)
    (hparams : s.sender.params = p :: rest) :
    g.handle.buffer = .staging !s.sender.currentBuffer := by
  obtain ⟨-, ⟨hshipped, -⟩ | ⟨-, i, hi, rfl | ⟨hnil, -⟩⟩⟩ := h.guarded g hpending
  · rw [hstage] at hshipped
    cases hshipped
  · exact hi
  · rw [hparams] at hnil
    cases hnil

/-- Nothing in the record depends on buffers that no held group stands in. -/
theorem Record.congr {buffers buffers' : BufferRef → Buffer UInt8} {r : Receiver}
    (h : Record info params buffers r handled inFlight)
    (hb : ∀ g batchKeys buffer weights batchError,
      r.stage = .replying g batchKeys buffer weights batchError →
      buffers' g.handle.buffer = buffers g.handle.buffer) :
    Record info params buffers' r handled inFlight where
  expected := h.expected
  intact := h.intact
  broken := h.broken
  accepting := h.accepting
  rejecting := h.rejecting
  loaded := h.loaded
  views := by
    intro hsizes g keys buffer weights hstage
    rw [hb g _ _ _ _ hstage]
    exact h.views hsizes g keys buffer weights hstage
  accepted := h.accepted
  refused := h.refused

theorem Record.sent {buffers : BufferRef → Buffer UInt8} {r : Receiver} {more : List Param}
    (h : Record info params buffers r handled []) (hheld : r.stage.held = none) :
    Record info params buffers r handled more where
  expected := h.expected
  intact := h.intact
  broken := by
    intro hne
    refine (h.broken hne).imp_right fun hnot hmore ↦ hnot ?_
    rw [List.append_nil]
    exact hmore.of_append
  accepting := by
    intro g keys buffer weights batchError hstage
    rw [hstage] at hheld
    cases hheld
  rejecting := h.rejecting
  loaded := h.loaded
  views := by
    intro _ g keys buffer weights hstage
    rw [hstage] at hheld
    cases hheld
  accepted := h.accepted
  refused := h.refused

section Sender

theorem not_ended {stage : SenderStage} (h : stage = .packing ∨ stage = .packed ∨ stage = .shipped) :
    ¬ (stage = .completing ∨ stage = .returned) := by
  rcases h with rfl | rfl | rfl <;> simp

theorem Ledger.take {s' : Stream}
    (h : Ledger bufferSizeBytes params s handled inFlight placed)
    (hpending : s'.sender.pending = none) (ht : takeReply s = some s') :
    Ledger bufferSizeBytes params s' handled inFlight placed ∧ (inFlight = []) := by
  rcases takeReply_cases ht with ⟨-, rfl⟩ | ⟨-, hreplies, rfl⟩
  · exact ⟨h, h.idle (outstanding_eq_none hpending)⟩
  · have hnone : s.outstanding = none := if_neg (by omega)
    have hnil := h.idle hnone
    refine ⟨⟨h.split, h.paramNames, h.usedBytes, h.holds, h.room, ?_, fun _ ↦ hnil, h.packed,
      h.ended⟩, hnil⟩
    intro g hg
    cases pending_of_outstanding hg

theorem Accounted.pack {p : Param} {rest : List Param} (h : Accounted bufferSizeBytes info params s)
    (hp : Protocol s) (hstage : s.sender.stage = .packing) (hparams : s.sender.params = p :: rest)
    (hroom : s.sender.usedBytes + p.alignedSize ≤ stagingBytes bufferSizeBytes) :
    Accounted bufferSizeBytes info params { s with sender := { s.sender.allocate with
      params := rest
      paramNames := s.sender.paramNames ++ [p.1]
      buffers := Function.update s.sender.buffers (.staging s.sender.currentBuffer)
        (packTensor (s.sender.buffers (.staging s.sender.currentBuffer)) p s.sender.usedBytes)
      usedBytes := s.sender.usedBytes + p.alignedSize } } := by
  obtain ⟨handled, inFlight, placed, hl, hr⟩ := h
  have hother : ∀ g, s.sender.pending = some (.group g) →
      Function.update s.sender.buffers (.staging s.sender.currentBuffer)
        (packTensor (s.sender.buffers (.staging s.sender.currentBuffer)) p s.sender.usedBytes)
        g.handle.buffer = s.sender.buffers g.handle.buffer := by
    intro g hg
    refine Function.update_of_ne ?_ _ _
    rw [hp.buffer_eq hg hstage hparams]
    simp
  refine ⟨handled, inFlight, placed ++ [p], ⟨?_, ?_, ?_, ?_, hroom, ?_, hl.idle, ?_, ?_⟩, ?_⟩
  · rw [hl.split, hparams]
    simp
  · rw [names_append, ← hl.paramNames]
    rfl
  · rw [alignedSum_append, alignedSum_singleton, ← hl.usedBytes]
  · simp only [Sender.allocate, Function.update_self, hl.usedBytes]
    exact hl.holds.pack p
  · intro g hg
    have hcarried := hl.carried g hg
    refine ⟨hcarried.paramNames, hcarried.usedBytes, hcarried.size, ?_⟩
    have hholds := hcarried.holds
    rwa [← hother g (pending_of_outstanding hg)] at hholds
  · intro hpacked
    rw [show s.sender.stage = .packed from hpacked] at hstage
    cases hstage
  · intro hended
    exact (not_ended (.inl hstage) hended).elim
  · refine hr.congr fun g batchKeys buffer weights batchError hreplying ↦ hother g ?_
    exact (hp.turn.of_held (by rw [hreplying]; rfl)).1

theorem Accounted.packOversized {p : Param} {rest : List Param}
    (h : Accounted bufferSizeBytes info params s) (hp : Protocol s)
    (hstage : s.sender.stage = .packing) (hparams : s.sender.params = p :: rest)
    (hnames : s.sender.paramNames = []) :
    Accounted bufferSizeBytes info params { s with sender := { s.sender with
      stage := .packed
      allocated := Function.update s.sender.allocate.allocated .oversized true
      buffers := Function.update s.sender.buffers .oversized
        (packTensor (s.sender.buffers .oversized) p 0) } } := by
  obtain ⟨handled, inFlight, placed, hl, hr⟩ := h
  have hplaced : placed = [] := by
    have hmap := hl.paramNames.symm.trans hnames
    exact List.map_eq_nil_iff.mp hmap
  have hother : ∀ g, s.sender.pending = some (.group g) →
      Function.update s.sender.buffers .oversized (packTensor (s.sender.buffers .oversized) p 0)
        g.handle.buffer = s.sender.buffers g.handle.buffer := by
    intro g hg
    refine Function.update_of_ne ?_ _ _
    rw [hp.buffer_eq hg hstage hparams]
    nofun
  refine ⟨handled, inFlight, placed, ⟨hl.split, hl.paramNames, hl.usedBytes, ?_, hl.room, ?_, hl.idle,
    ?_, ?_⟩, ?_⟩
  · rw [hplaced]
    trivial
  · intro g hg
    have hcarried := hl.carried g hg
    refine ⟨hcarried.paramNames, hcarried.usedBytes, hcarried.size, ?_⟩
    have hholds := hcarried.holds
    rwa [← hother g (pending_of_outstanding hg)] at hholds
  · refine fun _ ↦ ⟨hplaced, p, rest, hparams, ?_⟩
    simp only [Function.update_self]
    exact Holds.pack p (show Holds _ 0 [] from trivial)
  · exact fun hended ↦ (not_ended (.inr (.inl rfl)) hended).elim
  · refine hr.congr fun g batchKeys buffer weights batchError hreplying ↦ hother g ?_
    exact (hp.turn.of_held (by rw [hreplying]; rfl)).1

theorem outstanding_send {s' : Stream} {g : Group} (hpending : s'.sender.pending = some (.group g))
    (hreplies : s'.replies = 0) : s'.outstanding = some g := by
  rw [Stream.outstanding, if_pos hreplies, hpending]

theorem Accounted.flush {s' : Stream} (h : Accounted bufferSizeBytes info params s) (hp : Protocol s)
    (hstage : s.sender.stage = .packing) (htake : takeReply s = some s') :
    Accounted bufferSizeBytes info params { s' with
      requests := s'.requests ++ [.group (s'.sender.group bufferSizeBytes)]
      sender := { s'.sender with
        sent := s'.sender.sent + 1
        pending := some (.group (s'.sender.group bufferSizeBytes))
        awaitRecv := true
        currentBuffer := if s'.sender.params = [] then s'.sender.currentBuffer
          else !s'.sender.currentBuffer
        usedBytes := 0
        paramNames := [] } } := by
  obtain ⟨handled, inFlight, placed, hl, hr⟩ := h
  have hloops : s.sender.stage.loops := by rw [hstage]; rfl
  obtain ⟨-, hpending, -, hheld, hreplies, -⟩ := hp.take hloops htake
  obtain ⟨hl', rfl⟩ := hl.take hpending htake
  obtain ⟨replies, awaitRecv, acked, pending, rfl⟩ := takeReply_eq htake
  have hsize : alignedSum placed ≤ calculateAlignedSize (stagingBytes bufferSizeBytes) := by
    rw [← hl.usedBytes]
    exact hl.room.trans (le_calculateAlignedSize _)
  refine ⟨handled, placed, [], ⟨?_, rfl, rfl, trivial, Nat.zero_le _, ?_, ?_, ?_, ?_⟩,
    hr.sent hheld⟩
  · rw [hl'.split]
    rfl
  · intro g hg
    obtain rfl := Payload.group.inj (Option.some.inj (pending_of_outstanding hg))
    exact ⟨hl.paramNames, hl.usedBytes, hsize, hl.holds⟩
  · intro hnone
    exact absurd (hnone.symm.trans (outstanding_send rfl hreplies)) nofun
  · intro hpacked
    rw [show s.sender.stage = .packed from hpacked] at hstage
    cases hstage
  · exact fun hended ↦ (not_ended (.inl hstage) hended).elim

theorem Accounted.sendOversized {s' : Stream} {p : Param} {rest : List Param}
    (h : Accounted bufferSizeBytes info params s) (hp : Protocol s)
    (hstage : s.sender.stage = .packed) (hparams : s.sender.params = p :: rest)
    (htake : takeReply s = some s') :
    Accounted bufferSizeBytes info params { s' with
      requests := s'.requests ++ [.group ⟨⟨.oversized, p.alignedSize⟩, [p.1], p.alignedSize⟩]
      sender := { s'.sender with
        sent := s'.sender.sent + 1
        pending := some (.group ⟨⟨.oversized, p.alignedSize⟩, [p.1], p.alignedSize⟩)
        stage := .shipped
        params := rest } } := by
  obtain ⟨handled, inFlight, placed, hl, hr⟩ := h
  have hloops : s.sender.stage.loops := by rw [hstage]; rfl
  obtain ⟨-, hpending, -, hheld, hreplies, -⟩ := hp.take hloops htake
  obtain ⟨hl', rfl⟩ := hl.take hpending htake
  obtain ⟨replies, awaitRecv, acked, pending, rfl⟩ := takeReply_eq htake
  obtain ⟨rfl, p', rest', hcons, hholds⟩ := hl.packed hstage
  obtain ⟨rfl, rfl⟩ := List.cons.inj (hparams.symm.trans hcons)
  refine ⟨handled, [p], [], ⟨?_, hl.paramNames, hl.usedBytes, trivial, hl.room, ?_, ?_, nofun, ?_⟩,
    hr.sent hheld⟩
  · rw [hl.split, hparams]
    rfl
  · intro g hg
    obtain rfl := Payload.group.inj (Option.some.inj (pending_of_outstanding hg))
    exact ⟨rfl, (alignedSum_singleton p).symm, (alignedSum_singleton p).le, hholds⟩
  · intro hnone
    exact absurd (hnone.symm.trans (outstanding_send rfl hreplies)) nofun
  · exact fun hended ↦ (not_ended (.inr (.inr rfl)) hended).elim

theorem Accounted.freeOversized (h : Accounted bufferSizeBytes info params s) (hreply : 0 < s.replies) :
    Accounted bufferSizeBytes info params { s with
      replies := s.replies - 1
      sender := { s.sender with
        stage := .packing
        awaitRecv := false
        allocated := Function.update s.sender.allocated .oversized false
        acked := s.sender.acked + 1
        pending := none } } := by
  obtain ⟨handled, inFlight, placed, hl, hr⟩ := h
  have hnil : inFlight = [] := hl.idle (if_neg (by omega))
  refine ⟨handled, inFlight, placed, ⟨hl.split, hl.paramNames, hl.usedBytes, hl.holds, hl.room, ?_,
    fun _ ↦ hnil, nofun, ?_⟩, hr⟩
  · intro g hg
    cases pending_of_outstanding hg
  · exact fun hended ↦ (not_ended (.inl rfl) hended).elim

theorem Accounted.complete {s' : Stream} (h : Accounted bufferSizeBytes info params s)
    (hp : Protocol s) (hstage : s.sender.stage = .packing) (hparams : s.sender.params = [])
    (hnames : s.sender.paramNames = []) (htake : takeReply s = some s') :
    Accounted bufferSizeBytes info params { s' with
      requests := s'.requests ++ [.complete]
      sender := { s'.sender.release with
        sent := s'.sender.sent + 1
        pending := some .complete
        stage := .completing } } := by
  obtain ⟨handled, inFlight, placed, hl, hr⟩ := h
  have hloops : s.sender.stage.loops := by rw [hstage]; rfl
  obtain ⟨-, hpending, -, hheld, hreplies, -⟩ := hp.take hloops htake
  obtain ⟨hl', rfl⟩ := hl.take hpending htake
  obtain ⟨replies, awaitRecv, acked, pending, rfl⟩ := takeReply_eq htake
  have hplaced : placed = [] := List.map_eq_nil_iff.mp (hl.paramNames.symm.trans hnames)
  refine ⟨handled, [], placed, ⟨hl.split, hl.paramNames, hl.usedBytes, hl.holds, hl.room, ?_,
    fun _ ↦ rfl, nofun, fun _ ↦ ⟨hplaced, hparams⟩⟩, hr⟩
  intro g hg
  cases pending_of_outstanding hg

theorem Accounted.finish (h : Accounted bufferSizeBytes info params s)
    (hstage : s.sender.stage = .completing) (hreply : 0 < s.replies) :
    Accounted bufferSizeBytes info params { s with
      replies := s.replies - 1
      sender := { s.sender with
        stage := .returned, acked := s.sender.acked + 1, pending := none } } := by
  obtain ⟨handled, inFlight, placed, hl, hr⟩ := h
  have hnil : inFlight = [] := hl.idle (if_neg (by omega))
  refine ⟨handled, inFlight, placed, ⟨hl.split, hl.paramNames, hl.usedBytes, hl.holds, hl.room, ?_,
    fun _ ↦ hnil, nofun, fun _ ↦ hl.ended (.inl hstage)⟩, hr⟩
  intro g hg
  cases pending_of_outstanding hg

end Sender

section Receiver

variable {buffers : BufferRef → Buffer UInt8} {r : Receiver}

theorem Record.move {stage : ReceiverStage} (h : Record info params buffers r handled inFlight)
    (hended : stage.isEnded = false → r.stage.isEnded = false)
    (hplain : ∀ g batchKeys buffer weights batchError,
      stage ≠ .replying g batchKeys buffer weights batchError)
    (haccepted : stage = .leaving ∨ stage = .returned true → r.healthy = true ∧ Exact info params)
    (hrefused : stage = .returned false ∨ stage = .raised →
      ¬ (r.healthy = true ∧ Exact info params)) :
    Record info params buffers { r with stage := stage } handled inFlight where
  expected := h.expected
  intact := fun hnil ↦ ⟨fun hopen ↦ (h.intact hnil).1 (hended hopen), (h.intact hnil).2⟩
  broken := h.broken
  accepting := fun _ _ _ _ _ hstage ↦ (hplain _ _ _ _ _ hstage).elim
  rejecting := fun _ _ _ _ hstage ↦ (hplain _ _ _ _ _ hstage).elim
  loaded := h.loaded
  views := fun _ _ _ _ _ hstage ↦ (hplain _ _ _ _ _ hstage).elim
  accepted := haccepted
  refused := hrefused

/-- A group passes the manifest exactly if nothing failed before and the names so
far are acceptable with it. -/
theorem Record.validated {g : Group} (h : Record info params buffers r handled inFlight)
    (hnames : g.paramNames = names inFlight) :
    (r.manifest.validateBatch g.paramNames).1.errors = [] ↔
      r.manifest.errors = [] ∧ Acceptable info (handled ++ inFlight) := by
  rw [Manifest.validateBatch_errors, h.expected, hnames]
  refine and_congr_right fun hnil ↦ ?_
  obtain ⟨-, hloaded, hacceptable⟩ := h.intact hnil
  rw [hloaded]
  simp only [List.mem_toFinset]
  constructor
  · rintro ⟨hnodup, hnew, hknown⟩
    refine ⟨?_, ?_⟩
    · rw [names_append]
      exact List.Nodup.append hacceptable.nodup hnodup fun k hk hk' ↦ hnew k hk' hk
    · rw [names_append]
      intro k hk
      exact (List.mem_append.mp hk).elim (hacceptable.expected k) (hknown k)
  · intro hall
    obtain ⟨hnodup, hexpected⟩ := hall
    rw [names_append] at hnodup hexpected
    obtain ⟨-, hnodup', hdisjoint⟩ := List.nodup_append.mp hnodup
    exact ⟨hnodup', fun k hk hk' ↦ hdisjoint k hk' k hk rfl,
      fun k hk ↦ hexpected k (List.mem_append_right _ hk)⟩

theorem Record.load {g : Group} {rebuilt loaded : Bool}
    (h : Record info params buffers r handled inFlight) (hcarries : Carries buffers g inFlight)
    (hsub : ∀ p ∈ inFlight, p ∈ params) (hopen : r.stage.isEnded = false) :
    Record info params buffers (r.load info g rebuilt loaded) handled inFlight := by
  have hvalid := h.validated hcarries.paramNames
  have hmanifest : (r.load info g rebuilt loaded).manifest =
      (r.manifest.validateBatch g.paramNames).1 := rfl
  have hbroken : (r.manifest.validateBatch g.paramNames).1.errors ≠ [] →
      r.healthy = false ∨ ¬ Acceptable info (handled ++ inFlight) := by
    intro hne
    by_cases hnil : r.manifest.errors = []
    · exact .inr fun hacceptable ↦ hne (hvalid.mpr ⟨hnil, hacceptable⟩)
    · exact h.broken hnil
  have hloaded : SizesMatch info params → r.loaded <+: handled.map (sentAs info) ∧
      ((r.manifest.validateBatch g.paramNames).1.errors = [] →
        r.loaded = handled.map (sentAs info)) := by
    intro hsizes
    obtain ⟨hloaded, hall⟩ := h.loaded hsizes
    exact ⟨hloaded, fun hnil ↦ hall (hvalid.mp hnil).1⟩
  rcases Receiver.load_cases info r g rebuilt loaded with
    ⟨hne, hstage⟩ | ⟨hnil, buffer, weights, batchError, hstage, hfailed, hviews⟩
  · refine ⟨h.expected, fun hnil ↦ absurd hnil hne, hbroken, ?_, ?_, hloaded, ?_, ?_, ?_⟩
    · intro g' keys buffer' weights' batchError' heq
      cases hstage.symm.trans heq
    · intro g' buffer' weights' batchError' heq
      obtain ⟨-, -, rfl, rfl, rfl⟩ := ReceiverStage.replying.inj (hstage.symm.trans heq)
      exact ⟨hne, rfl, rfl, rfl⟩
    · intro _ g' keys buffer' weights' heq
      cases hstage.symm.trans heq
    · rintro (hend | hend) <;> cases hstage.symm.trans hend
    · rintro (hend | hend) <;> cases hstage.symm.trans hend
  · obtain ⟨hnone, hacceptable⟩ := hvalid.mp hnil
    refine ⟨h.expected, fun _ ↦ ⟨fun _ ↦ (h.intact hnone).1 hopen, (h.intact hnone).2⟩, hbroken, ?_, ?_,
      hloaded, ?_, ?_, ?_⟩
    · intro g' keys buffer' weights' batchError' heq
      obtain ⟨-, hkeys, -, rfl, rfl⟩ := ReceiverStage.replying.inj (hstage.symm.trans heq)
      rw [hcarries.paramNames] at hkeys
      exact ⟨hnil, (Option.some.inj hkeys).symm, hacceptable, hfailed⟩
    · intro g' buffer' weights' batchError' heq
      cases hstage.symm.trans heq
    · intro hsizes g' keys buffer' weights' heq
      obtain ⟨rfl, -, -, rfl, rfl⟩ := ReceiverStage.replying.inj (hstage.symm.trans heq)
      obtain ⟨offset, hbuilt⟩ := hviews rfl
      have hexpected : ∀ k ∈ names inFlight, k ∈ info.map Prod.fst := fun k hk ↦
        hacceptable.expected k (by rw [names_append]; exact List.mem_append_right _ hk)
      have hsize : 0 + alignedSum inFlight ≤ g.handle.size := by
        rw [Nat.zero_add]
        exact hcarries.size
      obtain ⟨views, hspec, hread⟩ := buildViews_spec
        (fun p hp ↦ hsizes p (hsub p hp)) hexpected hcarries.holds rfl hsize
      rw [← hcarries.paramNames, hbuilt] at hspec
      obtain ⟨rfl, -⟩ := Prod.mk.inj (Option.some.inj hspec)
      exact hread
    · rintro (hend | hend) <;> cases hstage.symm.trans hend
    · rintro (hend | hend) <;> cases hstage.symm.trans hend

theorem Record.acknowledge {g : Group} {batchKeys : Option (Finset String)} {buffer : Option Handle}
    {weights : List View} {batchError synchronized : Bool}
    (h : Record info params buffers r handled inFlight)
    (hstage : r.stage = .replying g batchKeys buffer weights batchError) :
    Record info params buffers
      (r.acknowledge buffers g batchKeys buffer weights batchError synchronized)
      (handled ++ inFlight) [] := by
  cases batchKeys with
  | none =>
    -- The group was rejected: nothing is loaded and the errors stay.
    obtain ⟨hne, rfl, rfl, rfl⟩ := h.rejecting _ _ _ _ hstage
    have hack : r.acknowledge buffers g none none [] false synchronized =
        { r with stage := .receiving, replied := r.replied + 1 } := by
      simp [Receiver.acknowledge]
    rw [hack]
    refine ⟨h.expected, fun hnil ↦ absurd hnil hne, fun _ ↦ ?_, nofun, nofun, ?_, nofun, ?_, ?_⟩
    · rw [List.append_nil]
      exact h.broken hne
    · intro hsizes
      refine ⟨(h.loaded hsizes).1.trans ?_, fun hnil ↦ absurd hnil hne⟩
      rw [List.map_append]
      exact List.prefix_append ..
    · rintro (hend | hend) <;> cases hend
    · rintro (hend | hend) <;> cases hend
  | some keys =>
    obtain ⟨hnil, rfl, hacceptable, hfailed⟩ := h.accepting _ _ _ _ _ hstage
    obtain ⟨hhealthy, hkeys, -⟩ := h.intact hnil
    have hhealthy := hhealthy (by rw [hstage]; rfl)
    cases hbad : batchError || buffer.isSome && !synchronized with
    | true =>
      have hne : (r.manifest.recordLoadFailure).errors ≠ [] := by simp [Manifest.recordLoadFailure]
      simp only [Receiver.acknowledge, hbad, if_true]
      refine ⟨h.expected, fun hnil ↦ absurd hnil hne, fun _ ↦ .inl (by simp), nofun, nofun, ?_, nofun,
        ?_, ?_⟩
      · intro hsizes
        refine ⟨?_, fun hnil ↦ absurd hnil hne⟩
        rw [(h.loaded hsizes).2 hnil, List.map_append]
        refine (List.prefix_append_right_inj _).mpr ?_
        cases batchError with
        | true =>
          rw [hfailed rfl]
          exact List.nil_prefix
        | false =>
          rw [h.views hsizes _ _ _ _ hstage]
      · rintro (hend | hend) <;> cases hend
      · rintro (hend | hend) <;> cases hend
    | false =>
      obtain ⟨rfl, -⟩ := Bool.or_eq_false_iff.mp hbad
      simp only [Receiver.acknowledge, hbad, Bool.false_eq_true, if_false]
      refine ⟨h.expected, fun _ ↦ ⟨fun _ ↦ by simp [hhealthy], ?_, hacceptable⟩,
        fun hne ↦ absurd hnil hne, nofun, nofun, ?_, nofun, ?_, ?_⟩
      · rw [names_append, List.toFinset_append, ← hkeys]
        rfl
      · intro hsizes
        have hall : r.loaded ++ weights.map (View.read (buffers g.handle.buffer)) =
            (handled ++ inFlight).map (sentAs info) := by
          rw [(h.loaded hsizes).2 hnil, h.views hsizes _ _ _ _ hstage, List.map_append]
        exact ⟨hall ▸ List.prefix_rfl, fun _ ↦ hall⟩
      · rintro (hend | hend) <;> cases hend
      · rintro (hend | hend) <;> cases hend

theorem Manifest.complete_iff {m : Manifest} :
    m.complete = true ↔ m.errors = [] ∧ m.expectedKeys ⊆ m.loadedKeys := by
  rw [Manifest.complete, decide_eq_true_iff, Finset.sdiff_eq_empty_iff_subset]

/-- `COMPLETE` passes exactly if all went well and the names are those of the
manifest. -/
theorem Record.finalize {ok : Bool} (h : Record info params buffers r params [])
    (hopen : r.stage.isEnded = false) :
    Record info params buffers (r.finalize errorsAreFatal ok) params [] := by
  have hcomplete : r.manifest.complete = true ↔ r.healthy = true ∧ Exact info params := by
    rw [Manifest.complete_iff]
    constructor
    · rintro ⟨hnil, hsub⟩
      obtain ⟨hhealthy, hkeys, hacceptable⟩ := h.intact hnil
      refine ⟨hhealthy hopen, hacceptable.nodup, fun k ↦ ⟨hacceptable.expected k, fun hk ↦ ?_⟩⟩
      rw [h.expected, hkeys] at hsub
      exact List.mem_toFinset.mp (hsub (List.mem_toFinset.mpr hk))
    · rintro ⟨hhealthy, hexact⟩
      have hnil : r.manifest.errors = [] := by
        by_contra hne
        rcases h.broken hne with hbad | hbad
        · rw [hhealthy] at hbad
          cases hbad
        · rw [List.append_nil] at hbad
          exact hbad hexact.acceptable
      refine ⟨hnil, fun k hk ↦ ?_⟩
      rw [h.expected, List.mem_toFinset] at hk
      rw [(h.intact hnil).2.1, List.mem_toFinset]
      exact (hexact.2 k).mpr hk
  have hstage : (r.finalize errorsAreFatal ok).stage =
      if r.manifest.complete && ok then .leaving else .failed errorsAreFatal := rfl
  have hhealthy : (r.finalize errorsAreFatal ok).healthy =
      (r.healthy && (!r.manifest.complete || ok)) := rfl
  have hended : (r.finalize errorsAreFatal ok).stage.isEnded = true := by
    rw [hstage]
    split_ifs
    · rfl
    · exact ReceiverStage.isEnded_failed
  have hplain : ∀ g batchKeys buffer weights batchError,
      (r.finalize errorsAreFatal ok).stage ≠ .replying g batchKeys buffer weights batchError := by
    intro g batchKeys buffer weights batchError heq
    rw [heq] at hended
    cases hended
  refine ⟨h.expected, fun hnil ↦ ⟨fun hnot ↦ ?_, (h.intact hnil).2⟩, ?_,
    fun _ _ _ _ _ heq ↦ (hplain _ _ _ _ _ heq).elim,
    fun _ _ _ _ heq ↦ (hplain _ _ _ _ _ heq).elim, h.loaded,
    fun _ _ _ _ _ heq ↦ (hplain _ _ _ _ _ heq).elim, ?_, ?_⟩
  · rw [hended] at hnot
    cases hnot
  · intro hne
    refine (h.broken hne).imp_left fun hbad ↦ ?_
    rw [hhealthy, hbad]
    rfl
  · intro hend
    have hpassed : (r.manifest.complete && ok) = true := by
      by_contra hnot
      rw [hstage, if_neg hnot, ReceiverStage.failed] at hend
      split_ifs at hend <;> rcases hend with hend | hend <;> cases hend
    obtain ⟨hall, hok⟩ := Bool.and_eq_true_iff.mp hpassed
    obtain ⟨hwell, hexact⟩ := hcomplete.mp hall
    rw [hhealthy, hwell, hok]
    exact ⟨by simp, hexact⟩
  · rintro hend ⟨hwell, hexact⟩
    rw [hhealthy, Bool.and_eq_true] at hwell
    have hall := hcomplete.mpr ⟨hwell.1, hexact⟩
    rw [hall, Bool.not_true, Bool.false_or] at hwell
    rw [hstage, hall, hwell.2] at hend
    rcases hend with hend | hend <;> cases hend

end Receiver

theorem Accounted.move {stage : ReceiverStage} (h : Accounted bufferSizeBytes info params s)
    {requests : List Payload} (hended : stage.isEnded = false → s.receiver.stage.isEnded = false)
    (hplain : ∀ g batchKeys buffer weights batchError,
      stage ≠ .replying g batchKeys buffer weights batchError)
    (haccepted : stage = .leaving ∨ stage = .returned true →
      s.receiver.healthy = true ∧ Exact info params)
    (hrefused : stage = .returned false ∨ stage = .raised →
      ¬ (s.receiver.healthy = true ∧ Exact info params)) :
    Accounted bufferSizeBytes info params
      { s with requests := requests, receiver := { s.receiver with stage := stage } } := by
  obtain ⟨handled, inFlight, placed, hl, hr⟩ := h
  exact ⟨handled, inFlight, placed, ⟨hl.split, hl.paramNames, hl.usedBytes, hl.holds, hl.room,
    hl.carried, hl.idle, hl.packed, hl.ended⟩, hr.move hended hplain haccepted hrefused⟩

theorem Accounted.step (h : Accounted bufferSizeBytes info params s) (hp : Protocol s)
    (hs : step bufferSizeBytes info errorsAreFatal s e = some t) (hok : Undisturbed s e) :
    Accounted bufferSizeBytes info params t := by
  cases step_effect hs hok with
  | pack p rest hstage hparams _ hroom => exact h.pack hp hstage hparams hroom
  | flush s' hstage _ htake => exact h.flush hp hstage htake
  | packOversized p rest hstage hparams _ hnames => exact h.packOversized hp hstage hparams hnames
  | sendOversized s' p rest hstage hparams htake => exact h.sendOversized hp hstage hparams htake
  | freeOversized _ hreply => exact h.freeOversized hreply
  | complete s' hstage hparams hnames htake => exact h.complete hp hstage hparams hnames htake
  | finish hstage hreply => exact h.finish hstage hreply
  | enter hstage =>
    refine h.move (fun _ ↦ by rw [hstage]; rfl) nofun ?_ ?_
    · rintro (hend | hend) <;> cases hend
    · rintro (hend | hend) <;> cases hend
  | receive p rest hstage hrequests =>
    refine h.move (fun _ ↦ by rw [hstage]; rfl) ?_ ?_ ?_
    · cases p <;> exact nofun
    · cases p <;> rintro (hend | hend) <;> cases hend
    · cases p <;> rintro (hend | hend) <;> cases hend
  | load g rebuilt loaded hstage =>
    obtain ⟨handled, inFlight, placed, hl, hr⟩ := h
    have hcarries := hl.carried g (outstanding_of_held hp (by rw [hstage]; rfl))
    refine ⟨handled, inFlight, placed, ⟨hl.split, hl.paramNames, hl.usedBytes, hl.holds, hl.room,
      hl.carried, hl.idle, hl.packed, hl.ended⟩, hr.load hcarries ?_ (by rw [hstage]; rfl)⟩
    intro p hmem
    rw [hl.split]
    simp [hmem]
  | acknowledge g batchKeys buffer weights batchError synchronized hstage =>
    obtain ⟨handled, inFlight, placed, hl, hr⟩ := h
    refine ⟨handled ++ inFlight, [], placed, ⟨?_, hl.paramNames, hl.usedBytes, hl.holds, hl.room, ?_,
      fun _ ↦ rfl, hl.packed, hl.ended⟩, hr.acknowledge hstage⟩
    · rw [hl.split]
      simp
    · intro g' hg
      rw [Stream.outstanding, if_neg (Nat.succ_ne_zero _)] at hg
      cases hg
  | finalize ok hstage =>
    obtain ⟨handled, inFlight, placed, hl, hr⟩ := h
    obtain ⟨hpending, -, hreplies⟩ := hp.turn.of_held (by rw [hstage]; rfl : _ = some .complete)
    obtain ⟨rfl, hparams⟩ := hl.ended (.inl (hp.completing.mp hpending))
    have hnone : s.outstanding = none := by
      rw [Stream.outstanding, if_pos hreplies, hpending]
    obtain rfl := hl.idle hnone
    have hall : handled = params := by
      rw [hl.split, hparams]
      simp
    refine ⟨handled, [], [], ⟨hl.split, hl.paramNames, hl.usedBytes, hl.holds, hl.room, ?_,
      fun _ ↦ rfl, hl.packed, hl.ended⟩, ?_⟩
    · intro g' hg
      rw [Stream.outstanding, if_neg (Nat.succ_ne_zero _)] at hg
      cases hg
    · rw [hall] at hr ⊢
      exact hr.finalize (by rw [hstage]; rfl)
  | leave hstage =>
    obtain ⟨handled, inFlight, placed, -, hr⟩ := id h
    refine h.move (fun hnot ↦ absurd hnot nofun) nofun (fun _ ↦ hr.accepted (.inl hstage)) ?_
    rintro (hend | hend) <;> cases hend

end NemoRL.IpcRefit
