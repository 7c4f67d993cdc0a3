import Mathlib
import NemoRL.CheckpointEngines.Nixl
import NemoRL.CheckpointEngines.MergeExact
import NemoRL.Foundations.Tensors

namespace NemoRL.CheckpointEngines.Nixl

open Utils Utils.PackedTensor Foundations Foundations.Transition

variable {δ : Type} {s t : Stream δ} {m : Message δ}

/-- The bucket is the last one that the sender announced. -/
structure Sender.Announced (s : Sender δ) (m : Message δ) : Prop where
  notifyKey : m.notifyKey + 1 = s.announced
  remoteDescs : m.remoteDescs = m.notifyKey.bodd
  pendingKey : s.pendingKey = some m.notifyKey
  isLast : m.isLast = true ↔ s.stage ≠ .filling

def Sender.owed (s : Sender δ) : List ℕ := if s.stage = .closed then [] else s.pendingKey.toList

/-- The bucket that has been read and that the receiver works on. -/
def ReceiverStage.Handles (m : Message δ) : ReceiverStage δ → Prop
  | .fetched m' => m' = m
  | .yielded m' _ _ => m' = m
  | _ => False

/-- Whose turn it is. The sender is at most one bucket ahead. -/
inductive Turn (s : Stream δ) : Prop
  | awaiting (hstage : s.receiver.stage = .awaiting) (hmessages : s.messages = [])
      (hnotifications : s.notifications = s.sender.owed) (hsender : s.sender.stage = .filling)
      (hindex : s.receiver.bufferIndex = !s.sender.announced.bodd)
  | announced (m : Message δ) (hstage : s.receiver.stage = .awaiting) (hmessages : s.messages = [m])
      (hnotifications : s.notifications = []) (hsender : s.sender.stage ≠ .closed)
      (hm : s.sender.Announced m) (hindex : s.receiver.bufferIndex = !m.remoteDescs)
  | reading (m : Message δ) (missing : List ℕ) (hstage : s.receiver.stage = .reading m missing)
      (hmessages : s.messages = []) (hnotifications : s.notifications = [])
      (hsender : s.sender.stage ≠ .closed) (hm : s.sender.Announced m)
      (hindex : s.receiver.bufferIndex = !m.remoteDescs)
  | handling (m : Message δ) (hstage : s.receiver.stage.Handles m) (hmessages : s.messages = [])
      (hnotifications : s.notifications = s.sender.owed) (hm : s.sender.Announced m)
      (hindex : s.receiver.bufferIndex = !m.remoteDescs)
  | behind (m m' : Message δ) (hstage : s.receiver.stage.Handles m) (hmessages : s.messages = [m'])
      (hnotifications : s.notifications = []) (hsender : s.sender.stage ≠ .closed)
      (hm' : s.sender.Announced m') (hkey : m.notifyKey + 1 = m'.notifyKey)
      (hdescs : m.remoteDescs = m.notifyKey.bodd) (hlast : m.isLast = false)
      (hindex : s.receiver.bufferIndex = !m.remoteDescs)
  | ended (hstage : s.receiver.stage = .ended) (hmessages : s.messages = [])
      (hnotifications : s.notifications = s.sender.owed) (hsender : s.sender.stage ≠ .filling)

structure Handshake (s : Stream δ) : Prop where
  bufferIndex : s.sender.bufferIndex = s.sender.announced.bodd
  turn : Turn s

/-- The announced buckets that have not been read completely. -/
def Stream.unread (s : Stream δ) : List (Message δ) :=
  match s.receiver.stage with
  | .reading m _ => m :: s.messages
  | _ => s.messages

theorem unread_of_not_reading (h : ∀ m missing, s.receiver.stage ≠ .reading m missing) :
    s.unread = s.messages := by
  rw [Stream.unread]
  split
  · rename_i m missing heq
    exact absurd heq (h m missing)
  · rfl

theorem waitReaders_owed {s : Sender δ} (h : s.stage ≠ .closed) :
    waitReaders s.owed s.pendingKey = some [] := by
  rw [Sender.owed, if_neg h]
  cases s.pendingKey <;> simp [waitReaders]

theorem waitReaders_announced {s : Sender δ} (hm : s.Announced m) :
    waitReaders [] s.pendingKey = none := by
  rw [hm.pendingKey]
  rfl

theorem Turn.of_waitReaders {notifications : List ℕ} (h : Turn s) (hs : s.sender.stage ≠ .closed)
    (hw : waitReaders s.notifications s.sender.pendingKey = some notifications) :
    notifications = [] ∧ s.messages = [] ∧
      ((s.receiver.stage = .awaiting ∧ s.sender.stage = .filling ∧
          s.receiver.bufferIndex = !s.sender.announced.bodd) ∨
        (∃ m, s.receiver.stage.Handles m ∧ s.sender.Announced m ∧
          s.receiver.bufferIndex = !m.remoteDescs) ∨
        (s.receiver.stage = .ended ∧ s.sender.stage ≠ .filling)) := by
  cases h with
  | awaiting hstage hmessages hnotifications hsender hindex =>
    rw [hnotifications, waitReaders_owed hs] at hw
    exact ⟨(Option.some.inj hw).symm, hmessages, .inl ⟨hstage, hsender, hindex⟩⟩
  | announced m _ _ hnotifications _ hm =>
    rw [hnotifications, waitReaders_announced hm] at hw
    cases hw
  | reading m _ _ _ hnotifications _ hm =>
    rw [hnotifications, waitReaders_announced hm] at hw
    cases hw
  | handling m hstage hmessages hnotifications hm hindex =>
    rw [hnotifications, waitReaders_owed hs] at hw
    exact ⟨(Option.some.inj hw).symm, hmessages, .inr (.inl ⟨m, hstage, hm, hindex⟩)⟩
  | behind _ m' _ _ hnotifications _ hm' =>
    rw [hnotifications, waitReaders_announced hm'] at hw
    cases hw
  | ended hstage hmessages hnotifications hsender =>
    rw [hnotifications, waitReaders_owed hs] at hw
    exact ⟨(Option.some.inj hw).symm, hmessages, .inr (.inr ⟨hstage, hsender⟩)⟩

theorem Turn.of_reading {missing : List ℕ} (h : Turn s)
    (hstage : s.receiver.stage = .reading m missing) :
    s.messages = [] ∧ s.notifications = [] ∧ s.sender.stage ≠ .closed ∧ s.sender.Announced m ∧
      s.receiver.bufferIndex = !m.remoteDescs := by
  cases h with
  | reading m' missing' hstage' hmessages hnotifications hsender hm hindex =>
    rw [hstage'] at hstage
    obtain ⟨rfl, rfl⟩ := ReceiverStage.reading.inj hstage
    exact ⟨hmessages, hnotifications, hsender, hm, hindex⟩
  | awaiting hstage' => rw [hstage'] at hstage; cases hstage
  | announced _ hstage' => rw [hstage'] at hstage; cases hstage
  | handling _ hstage' => rw [hstage] at hstage'; exact hstage'.elim
  | behind _ _ hstage' => rw [hstage] at hstage'; exact hstage'.elim
  | ended hstage' => rw [hstage'] at hstage; cases hstage

theorem Turn.of_handles (h : Turn s) (hh : s.receiver.stage.Handles m) :
    s.receiver.bufferIndex = !m.remoteDescs ∧ m.remoteDescs = m.notifyKey.bodd ∧
      ((s.messages = [] ∧ s.notifications = s.sender.owed ∧ s.sender.Announced m) ∨
        ∃ m', s.messages = [m'] ∧ s.notifications = [] ∧ s.sender.stage ≠ .closed ∧
          s.sender.Announced m' ∧ m.notifyKey + 1 = m'.notifyKey ∧ m.isLast = false) := by
  have hsame : ∀ m', s.receiver.stage.Handles m' → m' = m := by
    intro m' hm'
    generalize s.receiver.stage = stage at hh hm'
    cases stage <;> simp_all [ReceiverStage.Handles]
  cases h with
  | handling m' hstage hmessages hnotifications hm hindex =>
    obtain rfl := hsame m' hstage
    exact ⟨hindex, hm.remoteDescs, .inl ⟨hmessages, hnotifications, hm⟩⟩
  | behind m' m'' hstage hmessages hnotifications hsender hm hkey hdescs hlast hindex =>
    obtain rfl := hsame m' hstage
    exact ⟨hindex, hdescs, .inr ⟨m'', hmessages, hnotifications, hsender, hm, hkey, hlast⟩⟩
  | awaiting hstage => rw [hstage] at hh; exact hh.elim
  | announced _ hstage => rw [hstage] at hh; exact hh.elim
  | reading _ _ hstage => rw [hstage] at hh; exact hh.elim
  | ended hstage => rw [hstage] at hh; exact hh.elim

theorem Turn.handle (h : Turn s) (hh : s.receiver.stage.Handles m) (ht : t.receiver.stage.Handles m)
    (hsender : t.sender = s.sender) (hmessages : t.messages = s.messages)
    (hnotifications : t.notifications = s.notifications)
    (hindex : t.receiver.bufferIndex = s.receiver.bufferIndex) : Turn t := by
  obtain ⟨hi, hdescs, ⟨h₁, h₂, hm⟩ | ⟨m', h₁, h₂, h₃, hm, hkey, hlast⟩⟩ := h.of_handles hh
  · refine .handling m ht (hmessages.trans h₁) ?_ (hsender ▸ hm) (hindex.trans hi)
    rw [hnotifications, h₂, hsender]
  · exact .behind m m' ht (hmessages.trans h₁) (hnotifications.trans h₂) (hsender ▸ h₃)
      (hsender ▸ hm) hkey hdescs hlast (hindex.trans hi)

theorem Turn.advance {r : Receiver δ} (h : Turn s) (hh : s.receiver.stage.Handles m)
    (hr : r.bufferIndex = s.receiver.bufferIndex) :
    Turn { s with receiver := r.advance m } := by
  obtain ⟨hi, hdescs, ⟨h₁, h₂, hm⟩ | ⟨m', h₁, h₂, h₃, hm, hkey, hlast⟩⟩ := h.of_handles hh
  · by_cases hlast : m.isLast = true
    · refine .ended ?_ h₁ h₂ (hm.isLast.mp hlast)
      simp only [Receiver.advance, if_pos hlast]
    · refine .awaiting ?_ h₁ h₂ ?_ ?_
      · simp only [Receiver.advance, if_neg hlast]
      · by_contra hne
        exact hlast (hm.isLast.mpr hne)
      · simp only [Receiver.advance, if_neg hlast, hr, hi, ← hm.notifyKey, Nat.bodd_succ, hdescs]
  · have hnot : ¬ m.isLast = true := by simp [hlast]
    refine .announced m' ?_ h₁ h₂ h₃ hm ?_
    · simp only [Receiver.advance, if_neg hnot]
    · simp only [Receiver.advance, if_neg hnot, hr, hi, hm.remoteDescs, ← hkey, Nat.bodd_succ,
        hdescs]

theorem Handshake.unread_of_waitReaders {notifications : List ℕ} (h : Handshake s)
    (hs : s.sender.stage ≠ .closed)
    (hw : waitReaders s.notifications s.sender.pendingKey = some notifications) :
    s.messages = [] ∧ ∀ m missing, s.receiver.stage ≠ .reading m missing := by
  obtain ⟨-, hmessages, hcase⟩ := h.turn.of_waitReaders hs hw
  refine ⟨hmessages, fun m missing hstage ↦ ?_⟩
  rw [hstage] at hcase
  rcases hcase with ⟨hne, -, -⟩ | ⟨m', hne, -, -⟩ | ⟨hne, -⟩
  · cases hne
  · exact hne
  · cases hne

theorem Receiver.advance_stage (r : Receiver δ) (m : Message δ) :
    (r.advance m).stage = .ended ∨ (r.advance m).stage = .awaiting := by
  rw [Receiver.advance]
  split_ifs
  · exact .inl rfl
  · exact .inr rfl

@[simp] theorem Receiver.advance_merging (r : Receiver δ) (m : Message δ) :
    (r.advance m).merging = r.merging := by
  rw [Receiver.advance]
  split_ifs <;> rfl

@[simp] theorem Receiver.advance_buffers (r : Receiver δ) (m : Message δ) :
    (r.advance m).buffers = r.buffers := by
  rw [Receiver.advance]
  split_ifs <;> rfl

/-- The entries of the bucket that has been read and not been merged. -/
def ReceiverStage.held : ReceiverStage δ → List (TensorMeta δ)
  | .fetched m => m.bucketMeta
  | _ => []

def ReceiverStage.batch : ReceiverStage δ → List (Entry δ)
  | .yielded _ batch false => batch
  | _ => []

@[simp] theorem Receiver.advance_held (r : Receiver δ) (m : Message δ) :
    (r.advance m).stage.held = [] := by
  rcases r.advance_stage m with h | h <;> rw [h] <;> rfl

@[simp] theorem Receiver.advance_batch (r : Receiver δ) (m : Message δ) :
    (r.advance m).stage.batch = [] := by
  rcases r.advance_stage m with h | h <;> rw [h] <;> rfl

variable [ElementType δ] {bucketSize : ℕ} {u : Buffer UInt8} {e : Event}
  {weights : List (Weight δ)}

inductive Effect (bucketSize : ℕ) (u : Buffer UInt8) (s : Stream δ) : Event → Stream δ → Prop
  | place (c : Chunk δ) (rest : List (Chunk δ)) (hsender : s.sender.stage = .filling)
      (hchunks : s.sender.chunks = c :: rest) (hfits : s.sender.fits bucketSize c.1) :
      Effect bucketSize u s .place { s with sender := s.sender.place c rest }
  | flush (isLast : Bool) (notifications : List ℕ) (hsender : s.sender.stage = .filling)
      (hwait : waitReaders s.notifications s.sender.pendingKey = some notifications)
      (hchunks : if isLast then s.sender.chunks = [] else
        ∃ c rest, s.sender.chunks = c :: rest ∧ ¬ s.sender.fits bucketSize c.1) :
      Effect bucketSize u s .flush { s with
        notifications := notifications
        messages := s.messages ++
          [⟨s.sender.bucketMeta, s.sender.announced, isLast, s.sender.bufferIndex⟩]
        sender := { s.sender with
          bufferIndex := !s.sender.bufferIndex
          offset := 0
          bucketMeta := []
          pendingKey := some s.sender.announced
          announced := s.sender.announced + 1
          stage := if isLast then .closing else .filling } }
  | close (notifications : List ℕ) (hsender : s.sender.stage = .closing)
      (hwait : waitReaders s.notifications s.sender.pendingKey = some notifications) :
      Effect bucketSize u s .close
        { s with notifications := notifications, sender := { s.sender with stage := .closed } }
  | take (m : Message δ) (rest : List (Message δ)) (hstage : s.receiver.stage = .awaiting)
      (hmessages : s.messages = m :: rest) :
      Effect bucketSize u s .take { s with
        messages := rest
        receiver := { s.receiver with stage := .reading m (List.range bucketSize) } }
  | copy (position : ℕ) (m : Message δ) (missing : List ℕ)
      (hstage : s.receiver.stage = .reading m missing) (hmem : position ∈ missing) :
      Effect bucketSize u s (.copy position) { s with receiver := { s.receiver with
        buffers := Function.update s.receiver.buffers s.receiver.bufferIndex
          ((s.receiver.buffers s.receiver.bufferIndex).write position
            [s.sender.buffers m.remoteDescs position])
        stage := .reading m (missing.erase position) } }
  | notify (m : Message δ) (hstage : s.receiver.stage = .reading m []) :
      Effect bucketSize u s .notify { s with
        notifications := s.notifications ++ [m.notifyKey]
        receiver := { s.receiver with stage := .fetched m } }
  | merge (m : Message δ) (r : Receiver δ) (hstage : s.receiver.stage = .fetched m)
      (hmerge : s.receiver.merge u m = some r) :
      Effect bucketSize u s .merge { s with receiver := r }
  | consume (m : Message δ) (batch : List (Entry δ))
      (hstage : s.receiver.stage = .yielded m batch false) :
      Effect bucketSize u s .consume { s with
        received := s.received ++ batch.map (Entry.read s.receiver.buffers)
        receiver := { s.receiver with stage := .yielded m batch true } }
  | next (m : Message δ) (batch : List (Entry δ))
      (hstage : s.receiver.stage = .yielded m batch true) :
      Effect bucketSize u s .next { s with receiver := s.receiver.advance m }

theorem step_effect (h : step bucketSize u s e = some t) : Effect bucketSize u s e t := by
  cases e with
  | place =>
    simp only [step] at h
    split at h
    · rename_i c rest hstage hchunks
      split_ifs at h with hfits
      obtain rfl := Option.some.inj h
      exact .place c rest hstage hchunks hfits
    · cases h
  | flush =>
    simp only [step] at h
    split at h
    · rename_i c rest hstage hchunks
      split_ifs at h with hfits
      obtain ⟨notifications, hw, rfl⟩ := Option.map_eq_some_iff.mp h
      exact .flush false notifications hstage hw ⟨c, rest, hchunks, hfits⟩
    · rename_i hstage hchunks
      obtain ⟨notifications, hw, rfl⟩ := Option.map_eq_some_iff.mp h
      exact .flush true notifications hstage hw hchunks
    · cases h
  | close =>
    simp only [step] at h
    split at h
    · rename_i hstage
      obtain ⟨notifications, hw, rfl⟩ := Option.map_eq_some_iff.mp h
      exact .close notifications hstage hw
    · cases h
  | take =>
    simp only [step] at h
    split at h
    · rename_i m rest hstage hmessages
      obtain rfl := Option.some.inj h
      exact .take m rest hstage hmessages
    · cases h
  | copy position =>
    simp only [step] at h
    split at h
    · rename_i m missing hstage
      split_ifs at h with hmem
      obtain rfl := Option.some.inj h
      exact .copy position m missing hstage hmem
    · cases h
  | notify =>
    simp only [step] at h
    split at h
    · rename_i m hstage
      obtain rfl := Option.some.inj h
      exact .notify m hstage
    · cases h
  | merge =>
    simp only [step] at h
    split at h
    · rename_i m hstage
      obtain ⟨r, hr, rfl⟩ := Option.map_eq_some_iff.mp h
      exact .merge m r hstage hr
    · cases h
  | consume =>
    simp only [step] at h
    split at h
    · rename_i m batch hstage
      obtain rfl := Option.some.inj h
      exact .consume m batch hstage
    · cases h
  | next =>
    simp only [step] at h
    split at h
    · rename_i m batch hstage
      obtain rfl := Option.some.inj h
      exact .next m batch hstage
    · cases h

/-- The receiver's merge either goes on with the next bucket or yields a batch. -/
theorem Receiver.merge_cases {r r' : Receiver δ} (h : r.merge u m = some r') :
    ∃ merging batch, mergeBatch u r.buffers r.bufferIndex m.bucketMeta r.merging =
        some (merging, batch) ∧
      ((batch = [] ∧ r' = ({ r with merging := merging } : Receiver δ).advance m) ∨
        (batch ≠ [] ∧ r' = { r with merging := merging, stage := .yielded m batch false })) := by
  obtain ⟨⟨merging, batch⟩, hbatch, h⟩ := Option.bind_eq_some_iff.mp h
  refine ⟨merging, batch, hbatch, ?_⟩
  dsimp only at h
  split_ifs at h with hempty
  · exact .inl ⟨List.isEmpty_iff.mp hempty, (Option.some.inj h).symm⟩
  · exact .inr ⟨fun hnil ↦ hempty (List.isEmpty_iff.mpr hnil), (Option.some.inj h).symm⟩

theorem Handshake.step (h : Handshake s) (hs : step bucketSize u s e = some t) : Handshake t := by
  obtain ⟨hparity, hturn⟩ := h
  cases step_effect hs with
  | place c rest hsender hchunks hfits =>
    refine ⟨hparity, ?_⟩
    cases hturn with
    | awaiting h₁ h₂ h₃ h₄ h₅ => exact .awaiting h₁ h₂ h₃ h₄ h₅
    | announced m h₁ h₂ h₃ h₄ hm h₅ =>
      exact .announced m h₁ h₂ h₃ h₄ ⟨hm.notifyKey, hm.remoteDescs, hm.pendingKey, hm.isLast⟩ h₅
    | reading m missing h₁ h₂ h₃ h₄ hm h₅ =>
      exact .reading m missing h₁ h₂ h₃ h₄
        ⟨hm.notifyKey, hm.remoteDescs, hm.pendingKey, hm.isLast⟩ h₅
    | handling m h₁ h₂ h₃ hm h₄ =>
      exact .handling m h₁ h₂ h₃ ⟨hm.notifyKey, hm.remoteDescs, hm.pendingKey, hm.isLast⟩ h₄
    | behind m m' h₁ h₂ h₃ h₄ hm h₅ h₆ h₇ h₈ =>
      exact .behind m m' h₁ h₂ h₃ h₄
        ⟨hm.notifyKey, hm.remoteDescs, hm.pendingKey, hm.isLast⟩ h₅ h₆ h₇ h₈
    | ended h₁ h₂ h₃ h₄ => exact .ended h₁ h₂ h₃ h₄
  | flush isLast notifications hsender hwait hchunks =>
    obtain ⟨rfl, hmessages, hcase⟩ := hturn.of_waitReaders (by rw [hsender]; nofun) hwait
    refine ⟨by simp [hparity], ?_⟩
    rw [hmessages, List.nil_append]
    have hopen : (if isLast then SenderStage.closing else .filling) ≠ .closed := by
      cases isLast <;> nofun
    have hlast : isLast = true ↔ (if isLast then SenderStage.closing else .filling) ≠ .filling := by
      cases isLast <;> simp
    rcases hcase with ⟨hstage, -, hindex⟩ | ⟨m, hstage, hm, hindex⟩ | ⟨-, hne⟩
    · refine .announced _ hstage rfl rfl hopen ⟨rfl, hparity, rfl, hlast⟩ ?_
      rw [hparity]
      exact hindex
    · refine .behind m _ hstage rfl rfl hopen ⟨rfl, hparity, rfl, hlast⟩ hm.notifyKey
        hm.remoteDescs ?_ hindex
      simpa [hsender] using hm.isLast
    · exact absurd hsender hne
  | close notifications hsender hwait =>
    obtain ⟨rfl, hmessages, hcase⟩ := hturn.of_waitReaders (by rw [hsender]; nofun) hwait
    refine ⟨hparity, ?_⟩
    rcases hcase with ⟨-, hne, -⟩ | ⟨m, hstage, hm, hindex⟩ | ⟨hstage, -⟩
    · rw [hsender] at hne
      cases hne
    · refine .handling m hstage hmessages rfl ⟨hm.notifyKey, hm.remoteDescs, hm.pendingKey, ?_⟩ hindex
      simpa [hsender] using hm.isLast
    · exact .ended hstage hmessages rfl nofun
  | take m rest hstage hmessages =>
    refine ⟨hparity, ?_⟩
    cases hturn with
    | announced m' _ hmessages' hnotifications hsender hm hindex =>
      rw [hmessages'] at hmessages
      obtain ⟨rfl, rfl⟩ := List.cons.inj hmessages
      exact .reading _ _ rfl rfl hnotifications hsender hm hindex
    | awaiting _ hmessages' => rw [hmessages'] at hmessages; cases hmessages
    | reading _ _ hstage' => rw [hstage'] at hstage; cases hstage
    | handling _ hstage' => rw [hstage] at hstage'; exact hstage'.elim
    | behind _ _ hstage' => rw [hstage] at hstage'; exact hstage'.elim
    | ended hstage' => rw [hstage'] at hstage; cases hstage
  | copy position m missing hstage hmem =>
    obtain ⟨hmessages, hnotifications, hsender, hm, hindex⟩ := hturn.of_reading hstage
    exact ⟨hparity, .reading m _ rfl hmessages hnotifications hsender hm hindex⟩
  | notify m hstage =>
    obtain ⟨hmessages, hnotifications, hsender, hm, hindex⟩ := hturn.of_reading hstage
    refine ⟨hparity, .handling m rfl hmessages ?_ hm hindex⟩
    rw [hnotifications, Sender.owed, if_neg hsender, hm.pendingKey]
    rfl
  | merge m r hstage hmerge =>
    refine ⟨hparity, ?_⟩
    have hh : s.receiver.stage.Handles m := by rw [hstage]; rfl
    obtain ⟨merging, batch, -, ⟨-, rfl⟩ | ⟨-, rfl⟩⟩ := Receiver.merge_cases hmerge
    · exact hturn.advance hh rfl
    · exact hturn.handle hh rfl rfl rfl rfl rfl
  | consume m batch hstage =>
    exact ⟨hparity, hturn.handle (by rw [hstage]; rfl) rfl rfl rfl rfl rfl⟩
  | next m batch hstage =>
    exact ⟨hparity, hturn.advance (by rw [hstage]; rfl) rfl⟩

/-- Where the chunks of the stream are: merged, read, announced, placed, or
still to come. -/
structure Ledger (bucketSize : ℕ) (weights : List (Weight δ)) (s : Stream δ)
    (done held unread placed : List (Chunk δ)) (emitted : List (Weight δ)) : Prop where
  split : splitWeightChunks bucketSize weights =
    done ++ (held ++ (unread ++ (placed ++ s.sender.chunks)))
  merged : Merged bucketSize weights done emitted s.receiver.merging
  received : s.received ++ s.receiver.stage.batch.map (Entry.read s.receiver.buffers) =
    emitted.map contents
  held : List.Forall₂ (Carries bucketSize (s.receiver.buffers s.receiver.bufferIndex))
    s.receiver.stage.held held
  unread : List.Forall₂ (Carries bucketSize (s.sender.buffers !s.sender.bufferIndex))
    (s.unread.flatMap Message.bucketMeta) unread
  placed : List.Forall₂ (Carries s.sender.offset (s.sender.buffers s.sender.bufferIndex))
    s.sender.bucketMeta placed
  offset : s.sender.offset ≤ bucketSize
  copied : ∀ m missing, s.receiver.stage = .reading m missing → ∀ p < bucketSize, p ∉ missing →
    s.receiver.buffers s.receiver.bufferIndex p = s.sender.buffers m.remoteDescs p
  ending : s.sender.stage ≠ .filling →
    s.sender.chunks = [] ∧ s.sender.bucketMeta = [] ∧ s.sender.offset = 0

def Accounted (bucketSize : ℕ) (weights : List (Weight δ)) (s : Stream δ) : Prop :=
  ∃ done held unread placed emitted, Ledger bucketSize weights s done held unread placed emitted

section Place

variable {c : Chunk δ} {rest : List (Chunk δ)} {done held unread placed : List (Chunk δ)}
  {emitted : List (Weight δ)}

theorem le_alignedOffset (s : Sender δ) (m : TensorMeta δ) : s.offset ≤ s.alignedOffset m := by
  have hpos : 0 < max 1 (ElementType.itemsize m.dtype) := by omega
  have hdiv := Nat.div_add_mod (s.offset + max 1 (ElementType.itemsize m.dtype) - 1)
    (max 1 (ElementType.itemsize m.dtype))
  have hmod := Nat.mod_lt (s.offset + max 1 (ElementType.itemsize m.dtype) - 1) hpos
  simp only [Sender.alignedOffset]
  rw [Nat.mul_comm]
  omega

theorem alignedOffset_mod (s : Sender δ) (m : TensorMeta δ) :
    s.alignedOffset m % ElementType.itemsize m.dtype = 0 := by
  have hmax : max 1 (ElementType.itemsize m.dtype) = ElementType.itemsize m.dtype :=
    Nat.max_eq_right (ElementType.itemsize_pos m.dtype)
  simp only [Sender.alignedOffset, hmax, Nat.mul_mod_left]

theorem alignedOffset_zero {s : Sender δ} (h : s.offset = 0) (m : TensorMeta δ) :
    s.alignedOffset m = 0 := by
  have hpos : 0 < max 1 (ElementType.itemsize m.dtype) := by omega
  simp only [Sender.alignedOffset, h, Nat.zero_add]
  rw [Nat.div_eq_of_lt (by omega), Nat.zero_mul]

theorem Ledger.mem {c : Chunk δ} (hb : 0 < bucketSize)
    (h : Ledger bucketSize weights s done held unread placed emitted) (hc : c ∈ s.sender.chunks) :
    0 < c.1.chunkSize ∧ c.1.chunkSize ≤ bucketSize ∧ c.2.length = c.1.chunkSize := by
  refine mem_splitWeightChunks hb (?_ : c ∈ splitWeightChunks bucketSize weights)
  rw [h.split]
  simp [hc]

/-- A chunk that fits is not of a weight that the bucket has a chunk of: that
chunk would fill the bucket. -/
theorem Ledger.name_notMem (hb : 0 < bucketSize) (hnd : (weights.map Prod.fst).Nodup)
    (h : Ledger bucketSize weights s done held unread placed emitted)
    (hchunks : s.sender.chunks = c :: rest) (hfits : s.sender.fits bucketSize c.1) :
    c.1.name ∉ s.sender.bucketMeta.map TensorMeta.name := by
  intro hmem
  obtain ⟨m, hm, hname⟩ := List.mem_map.mp hmem
  obtain ⟨c', hc', hcarries⟩ := Tensors.exists_of_mem_left h.placed hm
  have hpair := pairwise_splitWeightChunks hb hnd
  rw [h.split, hchunks] at hpair
  have hsize : c'.1.chunkSize = bucketSize := by
    have hplaced := (List.pairwise_append.mp (List.pairwise_append.mp (List.pairwise_append.mp
      (List.pairwise_append.mp hpair).2.1).2.1).2.1).2.2
    exact hplaced c' hc' c (List.mem_cons_self ..) (hcarries.name.symm.trans hname)
  have hpos := (h.mem hb (hchunks ▸ List.mem_cons_self ..)).1
  have hle := hcarries.chunkSize_le
  have halign := le_alignedOffset s.sender c.1
  have hfit : s.sender.alignedOffset c.1 + c.1.chunkSize ≤ bucketSize := hfits
  omega

theorem carries_mono {bound bound' : ℕ} {b b' : Buffer UInt8} {metas : List (TensorMeta δ)}
    {chunks : List (Chunk δ)} (h : List.Forall₂ (Carries bound b) metas chunks)
    (hle : bound ≤ bound') (hb : ∀ p < bound, b' p = b p) :
    List.Forall₂ (Carries bound' b') metas chunks := h.imp fun _ _ hc ↦ hc.mono hle hb

theorem Ledger.place (hb : 0 < bucketSize) (hnd : (weights.map Prod.fst).Nodup)
    (h : Ledger bucketSize weights s done held unread placed emitted) (hh : Handshake s)
    (hsender : s.sender.stage = .filling)
    (hchunks : s.sender.chunks = c :: rest) (hfits : s.sender.fits bucketSize c.1) :
    Ledger bucketSize weights { s with sender := s.sender.place c rest } done held unread
      (placed ++ [c]) emitted := by
  have hmem := h.mem hb (hchunks ▸ List.mem_cons_self ..)
  have hle := le_alignedOffset s.sender c.1
  have hother : ∀ i ≠ s.sender.bufferIndex,
      (s.sender.place c rest).buffers i = s.sender.buffers i := fun i hi ↦
    Function.update_of_ne hi _ _
  have hself : (s.sender.place c rest).buffers s.sender.bufferIndex =
      (s.sender.buffers s.sender.bufferIndex).write (s.sender.alignedOffset c.1) c.2 :=
    Function.update_self ..
  refine ⟨?_, h.merged, h.received, h.held, ?_, ?_, hfits, ?_, fun hne ↦ absurd hsender hne⟩
  · rw [h.split, hchunks]
    simp [Sender.place]
  · have hunread : (s.sender.place c rest).buffers (!s.sender.bufferIndex) =
        s.sender.buffers !s.sender.bufferIndex := hother _ (by simp)
    show List.Forall₂ (Carries bucketSize ((s.sender.place c rest).buffers
      !s.sender.bufferIndex)) _ unread
    rw [hunread]
    exact h.unread
  · have hinsert : (s.sender.place c rest).bucketMeta = s.sender.bucketMeta ++
        [{ c.1 with offset := some (s.sender.alignedOffset c.1) }] :=
      if_neg (h.name_notMem hb hnd hchunks hfits)
    show List.Forall₂ (Carries (s.sender.alignedOffset c.1 + c.1.chunkSize)
      ((s.sender.place c rest).buffers s.sender.bufferIndex)) (s.sender.place c rest).bucketMeta _
    rw [hself, hinsert]
    refine List.rel_append (carries_mono h.placed (by omega) ?_) (.cons ⟨_, rfl, ?_, le_rfl, ?_⟩ .nil)
    · exact fun p hp ↦ Buffer.write_outside (.inl (by omega))
    · exact alignedOffset_mod s.sender c.1
    · rw [← hmem.2.2]
      exact Buffer.slice_write ..
  · intro m missing hstage p hp hpm
    obtain ⟨-, -, -, hm, -⟩ := hh.turn.of_reading hstage
    have hne : m.remoteDescs ≠ s.sender.bufferIndex := by
      rw [hh.bufferIndex, hm.remoteDescs, ← hm.notifyKey, Nat.bodd_succ]
      simp
    rw [show ({ s with sender := s.sender.place c rest } : Stream δ).sender.buffers m.remoteDescs =
      s.sender.buffers m.remoteDescs from hother _ hne]
    exact h.copied m missing hstage p hp hpm

theorem Ledger.flush {isLast : Bool} {notifications : List ℕ}
    (h : Ledger bucketSize weights s done held unread placed emitted) (hh : Handshake s)
    (hsender : s.sender.stage = .filling)
    (hwait : waitReaders s.notifications s.sender.pendingKey = some notifications)
    (hchunks : isLast = true → s.sender.chunks = []) :
    Ledger bucketSize weights { s with
        notifications := notifications
        messages := s.messages ++
          [⟨s.sender.bucketMeta, s.sender.announced, isLast, s.sender.bufferIndex⟩]
        sender := { s.sender with
          bufferIndex := !s.sender.bufferIndex
          offset := 0
          bucketMeta := []
          pendingKey := some s.sender.announced
          announced := s.sender.announced + 1
          stage := if isLast then .closing else .filling } }
      done held placed [] emitted := by
  obtain ⟨hmessages, hreading⟩ := hh.unread_of_waitReaders (by rw [hsender]; nofun) hwait
  have hunread : unread = [] := by
    have hnone := h.unread
    rw [unread_of_not_reading hreading, hmessages] at hnone
    exact List.forall₂_nil_left_iff.mp hnone
  refine ⟨?_, h.merged, h.received, h.held, ?_, .nil, Nat.zero_le _, ?_, ?_⟩
  · rw [h.split, hunread]
    rfl
  · rw [unread_of_not_reading]
    · simp only [hmessages, List.nil_append, List.flatMap_singleton, Bool.not_not]
      exact carries_mono h.placed h.offset fun _ _ ↦ rfl
    · exact hreading
  · intro m missing heq
    exact absurd heq (hreading m missing)
  · intro hne
    have hlast : isLast = true := by
      cases isLast
      · exact absurd rfl hne
      · rfl
    exact ⟨hchunks hlast, rfl, rfl⟩

end Place

section Receive

variable {done held unread placed : List (Chunk δ)} {emitted : List (Weight δ)}

theorem Ledger.take {rest : List (Message δ)}
    (h : Ledger bucketSize weights s done held unread placed emitted)
    (hstage : s.receiver.stage = .awaiting) (hmessages : s.messages = m :: rest) :
    Ledger bucketSize weights { s with
        messages := rest
        receiver := { s.receiver with stage := .reading m (List.range bucketSize) } }
      done held unread placed emitted := by
  have hheld := h.held
  have hreceived := h.received
  have hunread := h.unread
  rw [hstage] at hheld hreceived
  rw [unread_of_not_reading (by rw [hstage]; nofun), hmessages] at hunread
  refine ⟨h.split, h.merged, hreceived, hheld, hunread, h.placed, h.offset, ?_, h.ending⟩
  intro m' missing heq p hp hpm
  obtain ⟨-, rfl⟩ := ReceiverStage.reading.inj heq
  exact absurd (List.mem_range.mpr hp) hpm

theorem Ledger.copy {missing : List ℕ} {position : ℕ}
    (h : Ledger bucketSize weights s done held unread placed emitted)
    (hstage : s.receiver.stage = .reading m missing) :
    Ledger bucketSize weights { s with receiver := { s.receiver with
        buffers := Function.update s.receiver.buffers s.receiver.bufferIndex
          ((s.receiver.buffers s.receiver.bufferIndex).write position
            [s.sender.buffers m.remoteDescs position])
        stage := .reading m (missing.erase position) } }
      done held unread placed emitted := by
  have hheld := h.held
  have hreceived := h.received
  have hunread := h.unread
  rw [Stream.unread] at hunread
  rw [hstage] at hheld hreceived hunread
  refine ⟨h.split, h.merged, hreceived, ?_, hunread, h.placed, h.offset, ?_, h.ending⟩
  · obtain rfl := List.forall₂_nil_left_iff.mp hheld
    exact .nil
  · intro m' missing' heq p hp hpm
    obtain ⟨rfl, rfl⟩ := ReceiverStage.reading.inj heq
    simp only [Function.update_self]
    rcases eq_or_ne p position with rfl | hne
    · exact Buffer.write_inside (i := 0) (List.length_singleton ▸ Nat.zero_lt_one)
    · rw [Buffer.write_outside (by simp only [List.length_singleton]; omega)]
      exact h.copied m missing hstage p hp fun hmem ↦ hpm ((List.mem_erase_of_ne hne).mpr hmem)

theorem Ledger.notify {notifications : List ℕ}
    (h : Ledger bucketSize weights s done held unread placed emitted) (hh : Handshake s)
    (hstage : s.receiver.stage = .reading m []) :
    Ledger bucketSize weights { s with
        notifications := notifications
        receiver := { s.receiver with stage := .fetched m } }
      done unread [] placed emitted := by
  obtain ⟨hmessages, -, -, hm, -⟩ := hh.turn.of_reading hstage
  have hheld := h.held
  have hreceived := h.received
  have hunread := h.unread
  rw [Stream.unread] at hunread
  rw [hstage] at hheld hreceived hunread
  obtain rfl := List.forall₂_nil_left_iff.mp hheld
  refine ⟨h.split, h.merged, hreceived, ?_, ?_, h.placed, h.offset, nofun, h.ending⟩
  · have hdescs : (!s.sender.bufferIndex) = m.remoteDescs := by
      rw [hh.bufferIndex, hm.remoteDescs, ← hm.notifyKey, Nat.bodd_succ, Bool.not_not]
    rw [hmessages, List.flatMap_singleton, hdescs] at hunread
    refine carries_mono hunread le_rfl fun p hp ↦ ?_
    exact h.copied m [] hstage p hp List.not_mem_nil
  · show List.Forall₂ _ (s.messages.flatMap _) _
    rw [hmessages]
    exact .nil

theorem Ledger.merge (hb : 0 < bucketSize)
    (h : Ledger bucketSize weights s done held unread placed emitted)
    (hstage : s.receiver.stage = .fetched m) :
    ∃ merging batch emitted', mergeBatch u s.receiver.buffers s.receiver.bufferIndex m.bucketMeta
        s.receiver.merging = some (merging, batch) ∧
      batch.map (Entry.read s.receiver.buffers) = emitted'.map contents ∧
      Merged bucketSize weights (done ++ held) (emitted ++ emitted') merging := by
  have hheld := h.held
  rw [hstage] at hheld
  have hsplit : splitWeightChunks bucketSize weights =
      done ++ held ++ (unread ++ (placed ++ s.sender.chunks)) := by
    rw [h.split, List.append_assoc]
  exact mergeBatch_spec hb h.merged hsplit hheld

theorem Ledger.proceed {r : Receiver δ} {received : List (String × List ℕ × δ × List UInt8)}
    (more : List (Weight δ))
    (h : Ledger bucketSize weights s done held unread placed emitted)
    (hs : s.receiver.stage.Handles m) (hr : r.stage.Handles m ∨ r.stage = .ended ∨ r.stage = .awaiting)
    (hheld : r.stage.held = [])
    (hmerged : Merged bucketSize weights (done ++ held) (emitted ++ more) r.merging)
    (hreceived : received ++ r.stage.batch.map (Entry.read r.buffers) =
      (emitted ++ more).map contents) :
    Ledger bucketSize weights { s with receiver := r, received := received } (done ++ held) [] unread
      placed (emitted ++ more) := by
  have hnot : ∀ m missing, s.receiver.stage ≠ .reading m missing := by
    intro m' missing heq
    rw [heq] at hs
    exact hs
  have hnot' : ∀ m missing, r.stage ≠ .reading m missing := by
    intro m' missing heq
    rw [heq] at hr
    rcases hr with hr | hr | hr
    · exact hr
    · cases hr
    · cases hr
  refine ⟨?_, hmerged, hreceived, ?_, ?_, h.placed, h.offset, ?_, h.ending⟩
  · rw [h.split]
    simp
  · rw [hheld]
    exact .nil
  · have hunread := h.unread
    rw [unread_of_not_reading hnot] at hunread
    rw [unread_of_not_reading]
    · exact hunread
    · exact hnot'
  · intro m' missing heq
    exact absurd heq (hnot' m' missing)

end Receive

theorem Accounted.step (hb : 0 < bucketSize) (hnd : (weights.map Prod.fst).Nodup)
    (h : Accounted bucketSize weights s) (hh : Handshake s)
    (hs : step bucketSize u s e = some t) : Accounted bucketSize weights t := by
  obtain ⟨done, held, unread, placed, emitted, h⟩ := h
  cases step_effect hs with
  | place c rest hsender hchunks hfits =>
    exact ⟨_, _, _, _, _, h.place hb hnd hh hsender hchunks hfits⟩
  | flush isLast notifications hsender hwait hchunks =>
    refine ⟨_, _, _, _, _, h.flush hh hsender hwait fun hlast ↦ ?_⟩
    rwa [if_pos hlast] at hchunks
  | close notifications hsender hwait =>
    refine ⟨done, held, unread, placed, emitted, h.split, h.merged, h.received, h.held, h.unread,
      h.placed, h.offset, h.copied, fun _ ↦ h.ending ?_⟩
    rw [hsender]
    nofun
  | take m rest hstage hmessages => exact ⟨_, _, _, _, _, h.take hstage hmessages⟩
  | copy position m missing hstage hmem => exact ⟨_, _, _, _, _, h.copy hstage⟩
  | notify m hstage => exact ⟨_, _, _, _, _, h.notify hh hstage⟩
  | merge m r hstage hmerge =>
    obtain ⟨merging, batch, emitted', hbatch, hread, hmerged⟩ := h.merge (u := u) hb hstage
    have hh' : s.receiver.stage.Handles m := by rw [hstage]; rfl
    have hreceived := h.received
    rw [hstage] at hreceived
    simp only [ReceiverStage.batch, List.map_nil, List.append_nil] at hreceived
    obtain ⟨merging', batch', hbatch', hcase⟩ := Receiver.merge_cases hmerge
    obtain ⟨rfl, rfl⟩ := Prod.mk.inj (Option.some.inj (hbatch.symm.trans hbatch'))
    rcases hcase with ⟨rfl, rfl⟩ | ⟨-, rfl⟩
    · have hnil : emitted' = [] := by simpa using hread.symm
      subst hnil
      refine ⟨_, _, _, _, _, h.proceed [] hh' (.inr (Receiver.advance_stage ..)) ?_ ?_ ?_⟩
      · rw [Receiver.advance_held]
      · rw [Receiver.advance_merging]
        exact hmerged
      · rw [Receiver.advance_batch, List.append_nil, hreceived]
        simp
    · refine ⟨_, _, _, _, _, h.proceed _ hh' (.inl rfl) rfl hmerged ?_⟩
      simp only [ReceiverStage.batch, hread, hreceived, List.map_append]
  | consume m batch hstage =>
    have hh' : s.receiver.stage.Handles m := by rw [hstage]; rfl
    have hheld := h.held
    have hreceived := h.received
    rw [hstage] at hheld hreceived
    obtain rfl := List.forall₂_nil_left_iff.mp hheld
    refine ⟨_, _, _, _, _, h.proceed [] hh' (.inl rfl) rfl ?_ ?_⟩
    · simpa using h.merged
    · simpa [ReceiverStage.batch] using hreceived
  | next m batch hstage =>
    have hh' : s.receiver.stage.Handles m := by rw [hstage]; rfl
    have hheld := h.held
    have hreceived := h.received
    rw [hstage] at hheld hreceived
    obtain rfl := List.forall₂_nil_left_iff.mp hheld
    refine ⟨_, _, _, _, _, h.proceed [] hh' (.inr (Receiver.advance_stage ..)) ?_ ?_ ?_⟩
    · rw [Receiver.advance_held]
    · rw [Receiver.advance_merging]
      simpa using h.merged
    · rw [Receiver.advance_batch]
      simpa [ReceiverStage.batch] using hreceived

end NemoRL.CheckpointEngines.Nixl
