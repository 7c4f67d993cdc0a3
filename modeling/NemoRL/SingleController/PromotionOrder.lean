import Mathlib
import NemoRL.SingleController.StepLedger

namespace NemoRL.SingleController

open DataPlane AsyncUtils Experience Experience.RolloutManager
open Foundations Foundations.Positions Foundations.Transition

variable {ρ : Type} {cfg : Config} {s s' : State ρ}

/-- No slot of a step after the given one was started before a version. -/
def NoneOlder (l : List Slot) (step version : ℕ) : Prop :=
  ∀ x ∈ l, ∀ t ∈ x.targetStep, step < t → version ≤ x.startWeight

instance (l : List Slot) (step version : ℕ) : Decidable (NoneOlder l step version) :=
  inferInstanceAs (Decidable (∀ x ∈ l, ∀ t ∈ x.targetStep, step < t → version ≤ x.startWeight))

/-- The first finished group of the furthest later step that has one. -/
def nextLender (l : List Slot) (step : ℕ) : Option Slot :=
  (((l.filter Slot.ready).filterMap Slot.targetStep).filter (step < ·)).max?.bind fun lender ↦
    l.find? fun x ↦ x.ready && decide (x.targetStep = some lender)

/-- The buffer and the step that an event calls `promote_ready_group` with. -/
def promoteCall (cfg : Config) (s : State ρ) : Event ρ → Option (TQReplayBuffer × ℕ)
  | .resumeTask i answer =>
    match s.tasks[i]? with
    | some ⟨n, _, .calling c⟩ =>
      match RolloutManager.resume cfg.buffer cfg.policy s.rm c answer with
      | some (rm, .returned (.skipped _)) =>
        if (takeReplacement cfg s c.target n).isSome then
          (c.target.filter fun step ↦ s.trainerVersion ≤ step).map (rm.plane.buffer, ·)
        else none
      | _ => none
    | _ => none
  | _ => none

/-- The step an event reserves a slot for: at a first attempt, at a retry, and
for a spare prompt, which goes to the lender if there is one. -/
def attempted (cfg : Config) (s : State ρ) (e : Event ρ) : Option ℕ :=
  match e with
  | .startTask i | .resumeWaiting i => (s.tasks[i]?).bind Task.target
  | .resumeTask i answer =>
    match s.tasks[i]? with
    | some ⟨n, _, .calling c⟩ =>
      match RolloutManager.resume cfg.buffer cfg.policy s.rm c answer with
      | some (_, .suspended c') => if c'.held = none ∨ c'.held = c.held then none else c.target
      | some (_, .returned (.skipped _)) =>
        if (takeReplacement cfg s c.target n).isSome ∧ s.rolloutPermitted = true then
          ((promoteCall cfg s e).bind fun call ↦
            (nextLender call.1.slots call.2).bind Slot.targetStep).or c.target
        else none
      | _ => none
    | _ => none
  | _ => none

/-- Slots are reserved in the order of their steps as far as weights tell, and a
promotion passes no older group by. -/
def InOrder (cfg : Config) (s : State ρ) (e : Event ρ) : Prop :=
  (∀ step ∈ attempted cfg s e, NoneOlder s.rm.slots step s.rm.weightVersion) ∧
  ∀ call ∈ promoteCall cfg s e, ∀ x ∈ nextLender call.1.slots call.2,
    NoneOlder call.1.slots call.2 x.startWeight

instance (cfg : Config) (s : State ρ) (e : Event ρ) : Decidable (InOrder cfg s e) :=
  inferInstanceAs (Decidable (_ ∧ _))

def PromotesFresher (b : TQReplayBuffer) (step : ℕ) : Prop :=
  ∀ i lender x, b.promoteLender step = some (i, lender) → b.slots[i]? = some x →
    ∀ y ∈ b.slots, y.targetStep = some step → y.startWeight ≤ x.startWeight

section Lender

/-- No slot before the one the promotion loop has found lends for the same step. -/
def FirstLender (step : ℕ) (l : List Slot) (n : ℕ) (r : Option (ℕ × ℕ)) : Prop :=
  TQReplayBuffer.LenderOf step l n r ∧
  ∀ p ∈ r, ∀ i < p.1, ∀ x, l[i]? = some x → ¬ TQReplayBuffer.Lends step x p.2

theorem promoteScan_cases (b : TQReplayBuffer) (step n : ℕ) (r : Option (ℕ × ℕ))
    (target : Option ℕ) : b.promoteScan step r (target, n) = r ∨
      ∃ t, target = some t ∧ b.promoteScan step r (target, n) = some (n, t) ∧
        step < t ∧ ∀ p ∈ r, p.2 < t := by
  unfold TQReplayBuffer.promoteScan
  cases target with
  | none => exact .inl rfl
  | some t =>
    simp only
    split_ifs with hc
    · exact .inl rfl
    · have hlt : step < t := not_le.mp (not_or.mp hc).1
      cases r with
      | none => exact .inr ⟨t, rfl, rfl, hlt, by rintro p ⟨⟩⟩
      | some p =>
        obtain ⟨j, best⟩ := p
        simp only
        split_ifs with hgt
        · refine .inr ⟨t, rfl, rfl, hlt, ?_⟩
          rintro p ⟨⟩
          exact hgt
        · exact .inl rfl

theorem FirstLender.scan {b : TQReplayBuffer} {step n : ℕ} {x : Slot} {r : Option (ℕ × ℕ)}
    (hn : b.slots[n]? = some x) (hr : FirstLender step b.slots n r) :
    FirstLender step b.slots (n + 1) (b.promoteScan step r (x.targetStep, n)) := by
  obtain ⟨hlender, hfirst⟩ := hr
  refine ⟨TQReplayBuffer.promoteScan_lenderOf hn hlender, ?_⟩
  rcases promoteScan_cases b step n r x.targetStep with
    hsame | ⟨t, _, hnew, _, hbest⟩
  · rw [hsame]
    exact hfirst
  · -- a further step has been found, which no earlier slot is ready for
    rw [hnew]
    rintro p ⟨⟩ i hi y hy hlend
    cases r with
    | none => exact hlender i y t hi hy hlend
    | some p => exact absurd (hlender.2 i y t hi hy hlend) (not_le.mpr (hbest p rfl))

theorem promoteLender_first (b : TQReplayBuffer) (step : ℕ) :
    FirstLender step b.slots b.slots.length (b.promoteLender step) := by
  refine b.promoteLender_induct step ⟨?_, ?_⟩ fun n x r hn hr ↦ hr.scan hn
  · exact fun i s t hi ↦ absurd hi (Nat.not_lt_zero i)
  · rintro p ⟨⟩

theorem nextLender_eq (b : TQReplayBuffer) (step : ℕ) :
    nextLender b.slots step = (b.promoteLender step).bind fun p ↦ b.slots[p.1]? := by
  obtain ⟨hlender, hfirst⟩ := promoteLender_first b step
  have hmem : ∀ t, t ∈ ((b.slots.filter Slot.ready).filterMap Slot.targetStep).filter (step < ·) ↔
      ∃ x ∈ b.slots, TQReplayBuffer.Lends step x t := by
    intro t
    simp only [List.mem_filter, List.mem_filterMap, decide_eq_true_iff, TQReplayBuffer.Lends]
    constructor
    · rintro ⟨⟨x, ⟨hx, hready⟩, ht⟩, hlt⟩
      exact ⟨x, hx, hready, ht, hlt⟩
    · rintro ⟨x, hx, hready, ht, hlt⟩
      exact ⟨⟨x, ⟨hx, hready⟩, ht⟩, hlt⟩
  unfold nextLender
  cases hp : b.promoteLender step with
  | none =>
    rw [hp] at hlender
    have hnil : ((b.slots.filter Slot.ready).filterMap Slot.targetStep).filter (step < ·) = [] := by
      refine List.eq_nil_iff_forall_not_mem.mpr fun t ht ↦ ?_
      obtain ⟨x, hx, hlend⟩ := (hmem t).mp ht
      obtain ⟨i, hi⟩ := List.mem_iff_getElem?.mp hx
      exact hlender i x t (List.getElem?_eq_some_iff.mp hi).1 hi hlend
    rw [hnil]
    rfl
  | some p =>
    obtain ⟨k, lender⟩ := p
    rw [hp] at hlender hfirst
    obtain ⟨⟨x, hx, hlend⟩, hmax⟩ := hlender
    have hmaximum : (((b.slots.filter Slot.ready).filterMap Slot.targetStep).filter
        (step < ·)).max? = some lender := by
      refine List.max?_eq_some_iff.mpr ⟨?_, fun t ht ↦ ?_⟩
      · exact (hmem lender).mpr ⟨x, List.mem_of_getElem? hx, hlend⟩
      · obtain ⟨y, hy, hylend⟩ := (hmem t).mp ht
        obtain ⟨i, hi⟩ := List.mem_iff_getElem?.mp hy
        exact hmax i y t (List.getElem?_eq_some_iff.mp hi).1 hi hylend
    rw [hmaximum, Option.bind_some, Option.bind_some, hx]
    obtain ⟨hk, rfl⟩ := List.getElem?_eq_some_iff.mp hx
    refine List.find?_eq_some_iff_getElem.mpr ⟨?_, k, hk, rfl, fun i hi ↦ ?_⟩
    · simp only [hlend.1, hlend.2.1, decide_true, Bool.and_self]
    · have hnot := hfirst _ rfl i hi b.slots[i] (List.getElem?_eq_getElem (hi.trans hk))
      rw [Bool.not_eq_true', Bool.and_eq_false_iff, decide_eq_false_iff_not]
      by_contra hand
      obtain ⟨hready, htarget⟩ := not_or.mp hand
      exact hnot ⟨eq_true_of_ne_false hready, not_not.mp htarget, hlend.2.2⟩

end Lender

section Aligned

variable {α β : Type*} [Preorder α] [Preorder β] {S T : Set (α × β)}

def Aligned (S : Set (α × β)) : Prop := ∀ p ∈ S, ∀ q ∈ S, p.1 < q.1 → p.2 ≤ q.2

theorem Aligned.mono (h : Aligned T) (hS : S ⊆ T) : Aligned S :=
  fun p hp q hq ↦ h p (hS hp) q (hS hq)

theorem aligned_empty : Aligned (∅ : Set (α × β)) := by rintro p ⟨⟩

theorem Aligned.insert (h : Aligned S) (p : α × β) (hbefore : ∀ q ∈ S, q.1 < p.1 → q.2 ≤ p.2)
    (hafter : ∀ q ∈ S, p.1 < q.1 → p.2 ≤ q.2) : Aligned (insert p S) := by
  rintro a (rfl | ha) b (rfl | hb) hab
  · exact absurd hab (lt_irrefl _)
  · exact hafter b hb hab
  · exact hbefore a ha hab
  · exact h a ha b hb hab

theorem Aligned.copy (h : Aligned S) {a b : α} {v : β} (hmem : (b, v) ∈ S) (hab : a < b)
    (hafter : ∀ q ∈ S, a < q.1 → v ≤ q.2) : Aligned (Insert.insert (a, v) S) :=
  h.insert (a, v) (fun q hq hlt ↦ h q hq (b, v) hmem (hlt.trans hab)) hafter

end Aligned

def stamps (l : List Slot) : Set (ℕ × ℕ) :=
  {p | ∃ x ∈ l, x.targetStep = some p.1 ∧ x.startWeight = p.2}

theorem stamps_mono {l l' : List Slot} (h : ∀ x ∈ l, x ∈ l') : stamps l ⊆ stamps l' := by
  rintro p ⟨x, hx, hstep, hweight⟩
  exact ⟨x, h x hx, hstep, hweight⟩

theorem stamps_append_singleton (l : List Slot) (x : Slot) :
    stamps (l ++ [x]) = {p | x.targetStep = some p.1 ∧ x.startWeight = p.2} ∪ stamps l := by
  ext p
  simp only [stamps, List.mem_append, List.mem_singleton, Set.mem_ofPred_eq, Set.mem_union]
  constructor
  · rintro ⟨y, hy | rfl, hp⟩
    · exact .inr ⟨y, hy, hp⟩
    · exact .inl hp
  · rintro (hp | ⟨y, hy, hp⟩)
    · exact ⟨x, .inr rfl, hp⟩
    · exact ⟨y, .inl hy, hp⟩

theorem NoneOlder.stamps {l : List Slot} {step version : ℕ} (h : NoneOlder l step version) :
    ∀ q ∈ stamps l, step < q.1 → version ≤ q.2 := by
  rintro ⟨t, w⟩ ⟨x, hx, hstep, rfl⟩ hlt
  exact h x hx t hstep hlt

theorem Aligned.reserve {l : List Slot} (h : Aligned (stamps l)) {x : Slot}
    (hle : ∀ y ∈ l, y.startWeight ≤ x.startWeight)
    (hn : ∀ step ∈ x.targetStep, NoneOlder l step x.startWeight) :
    Aligned (stamps (l ++ [x])) := by
  rw [stamps_append_singleton]
  cases htarget : x.targetStep with
  | none =>
    refine h.mono (Set.union_subset ?_ subset_rfl)
    rintro p ⟨⟨⟩, _⟩
  | some step =>
    refine (h.insert (step, x.startWeight) ?_ (hn step htarget).stamps).mono ?_
    · rintro q ⟨y, hy, _, hweight⟩ _
      rw [← hweight]
      exact hle y hy
    · rintro p (⟨hstep, hweight⟩ | hp)
      · exact .inl (Prod.ext (Option.some.inj hstep).symm hweight.symm)
      · exact .inr hp

theorem promoteReadyGroup_cases (b : TQReplayBuffer) (step : ℕ) :
    b.promoteReadyGroup step = (b, none) ∧ nextLender b.slots step = none ∨
    ∃ k lent x, b.promoteLender step = some (k, lent) ∧ b.slots[k]? = some x ∧
      TQReplayBuffer.Lends step x lent ∧ nextLender b.slots step = some x ∧
      b.promoteReadyGroup step = (b.retarget k step, some lent) := by
  have hlender := TQReplayBuffer.promoteLender_lenderOf b step
  have hnext := nextLender_eq b step
  unfold TQReplayBuffer.promoteReadyGroup
  cases hp : b.promoteLender step with
  | none =>
    rw [hp] at hnext
    exact .inl ⟨rfl, hnext⟩
  | some p =>
    obtain ⟨k, lent⟩ := p
    rw [hp] at hlender hnext
    obtain ⟨⟨x, hx, hlend⟩, -⟩ := hlender
    exact .inr ⟨k, lent, x, rfl, hx, hlend, hnext.trans hx, rfl⟩

theorem Aligned.promote {b : TQReplayBuffer} (h : Aligned (stamps b.slots)) {step : ℕ}
    (hn : ∀ x ∈ nextLender b.slots step, NoneOlder b.slots step x.startWeight) :
    Aligned (stamps (b.promoteReadyGroup step).1.slots) := by
  rcases promoteReadyGroup_cases b step with ⟨heq, -⟩ | ⟨k, lent, x, -, hx, hlend, hnext, heq⟩
  · rw [heq]
    exact h
  · rw [heq, TQReplayBuffer.slots_retarget hx]
    have hmem : (lent, x.startWeight) ∈ stamps b.slots :=
      ⟨x, List.mem_of_getElem? hx, hlend.2.1, rfl⟩
    refine (h.copy hmem hlend.2.2 (hn x hnext).stamps).mono ?_
    rintro p ⟨y, hy, hstep, hweight⟩
    rcases List.mem_or_eq_of_mem_set hy with hy | rfl
    · exact .inr ⟨y, hy, hstep, hweight⟩
    · exact .inl (Prod.ext (Option.some.inj hstep).symm hweight.symm)

theorem stamps_fetched {dp : KeyedStore SampleId (Row ρ)} {slots : List Slot}
    {groups : List (SavedGroup ρ)} (h : slots.mapM (TQReplayBuffer.fetchGroup dp) = some groups) :
    stamps (groups.map SavedGroup.toSlot) ⊆ stamps slots := by
  rintro p ⟨y, hy, hstep, hweight⟩
  obtain ⟨g, hg, rfl⟩ := List.mem_map.mp hy
  obtain ⟨i, hi⟩ := List.mem_iff_getElem?.mp hg
  obtain ⟨x, hx, hfetch⟩ := exists_of_mapM h hi
  obtain ⟨m, _, hm⟩ := Option.bind_eq_some_iff.mp hfetch
  obtain ⟨rows, _, rfl⟩ := Option.map_eq_some_iff.mp hm
  exact ⟨x, List.mem_of_getElem? hx, hstep, hweight⟩

def known (s : State ρ) : List Slot :=
  s.rm.slots ++ match s.train with
    | .restoring groups _ _ => groups.map SavedGroup.toSlot
    | _ => []

/-- Start weights do not fall from a step to a later one, in the buffer and in
what is saved of it. -/
structure Ordered (cfg : Config) (s : State ρ) : Prop where
  known : Aligned (stamps (known s))
  fetching : ∀ save slots stop, s.train = .fetching save slots stop → Aligned (stamps slots)
  saved : ∀ ck ∈ s.checkpoints, ∀ groups, ck.buffer = Envelope.ofSaved cfg.buffer.partitionId
    cfg.maxBufferedRollouts groups → Aligned (stamps (groups.map SavedGroup.toSlot))

theorem Ordered.slots (h : Ordered cfg s) : Aligned (stamps s.rm.slots) :=
  h.known.mono (stamps_mono fun _ hx ↦ List.mem_append_left _ hx)

def TrainPhase.carries : TrainPhase ρ → Bool
  | .restoring _ _ _ | .fetching _ _ _ => true
  | _ => false

theorem TrainPhase.emptyHanded.carries {p : TrainPhase ρ} (h : p.emptyHanded = true) :
    p.carries = false := by
  cases p <;> first | rfl | cases h

/-- A step that takes no slot in and re-stamps none. -/
structure Keeps (cfg : Config) (s s' : State ρ) : Prop where
  slots : ∀ x ∈ s'.rm.slots, x ∈ s.rm.slots
  restoring : ∀ groups n reserve, s'.train = .restoring groups n reserve → s'.train = s.train
  fetching : ∀ save slots stop, s'.train = .fetching save slots stop →
    s'.train = s.train ∨ ∀ x ∈ slots, x ∈ s.rm.slots
  saved : ∀ ck ∈ s'.checkpoints, ck ∈ s.checkpoints ∨ ∃ save slots stop groups,
    s.train = .fetching save slots stop ∧
      slots.mapM (TQReplayBuffer.fetchGroup s.rm.plane.dp) = some groups ∧
      ck.buffer = Envelope.ofSaved cfg.buffer.partitionId cfg.maxBufferedRollouts groups

namespace Keeps

theorem of_eq (hr : s'.rm = s.rm) (ht : s'.train = s.train) (hc : s'.checkpoints = s.checkpoints) :
    Keeps cfg s s' :=
  ⟨fun _ hx ↦ hr ▸ hx, fun _ _ _ _ ↦ ht, fun _ _ _ _ ↦ .inl ht, fun _ hck ↦ .inl (hc ▸ hck)⟩

theorem of_train (hr : ∀ x ∈ s'.rm.slots, x ∈ s.rm.slots) (ht : s'.train.carries = false)
    (hc : s'.checkpoints = s.checkpoints) : Keeps cfg s s' := by
  refine ⟨hr, fun groups n reserve h ↦ ?_, fun save slots stop h ↦ ?_, fun _ hck ↦ .inl (hc ▸ hck)⟩
  all_goals
    rw [h] at ht
    cases ht

theorem of_idle (hr : ∀ x ∈ s'.rm.slots, x ∈ s.rm.slots) (ht : s'.train.emptyHanded = true)
    (hc : s'.checkpoints = s.checkpoints) : Keeps cfg s s' :=
  of_train hr (TrainPhase.emptyHanded.carries ht) hc

end Keeps

theorem Ordered.keep (h : Ordered cfg s) (hk : Keeps cfg s s') : Ordered cfg s' where
  known := by
    refine h.known.mono (stamps_mono fun x hx ↦ ?_)
    rcases List.mem_append.mp hx with hx | hx
    · exact List.mem_append_left _ (hk.slots x hx)
    · refine List.mem_append_right _ ?_
      cases htrain : s'.train with
      | restoring groups n reserve =>
        rw [← hk.restoring _ _ _ htrain]
        exact hx
      | _ =>
        rw [htrain] at hx
        exact absurd hx (List.not_mem_nil)
  fetching save slots stop htrain := by
    rcases hk.fetching save slots stop htrain with heq | hsub
    · exact h.fetching save slots stop (heq ▸ htrain)
    · exact h.slots.mono (stamps_mono hsub)
  saved ck hck groups hgroups := by
    rcases hk.saved ck hck with hck | ⟨save, slots, stop, groups', htrain, hfetch, heq⟩
    · exact h.saved ck hck groups hgroups
    · obtain rfl := Envelope.ofSaved_inj (hgroups.symm.trans heq)
      exact (h.fetching save slots stop htrain).mono (stamps_fetched hfetch)

theorem Pool.mem_of_ready {rm rm' : RolloutManager.State ρ} {tasks : List (Task ρ)}
    {gone : List Slot} (hp : Pool rm tasks) (hp' : Pool rm' tasks)
    (h : (readySlots rm).Perm (gone ++ readySlots rm')) {x : Slot} (hx : x ∈ rm'.slots) :
    x ∈ rm.slots := by
  rcases List.mem_append.mp (hp'.owns.slots.mem_iff.mp hx) with hx | hx
  · have hready := h.mem_iff.mpr (List.mem_append_right _ hx)
    exact (List.mem_filter.mp hready).1
  · exact hp.owns.slots.mem_iff.mpr (List.mem_append_right _ hx)

theorem choose_frame (cfg : Config) (hp : Pool s.rm s.tasks) :
    (∀ x ∈ (choose cfg s).rm.slots, x ∈ s.rm.slots) ∧ (choose cfg s).train.carries = false ∧
      (choose cfg s).checkpoints = s.checkpoints := by
  rcases choose_cases cfg hp with ⟨phase, stopping, heq, hi⟩ | ⟨chunk, rm, hsel, heq⟩
  · rw [heq]
    exact ⟨fun _ hx ↦ hx, TrainPhase.emptyHanded.carries hi.emptyHanded, rfl⟩
  · rw [heq]
    exact ⟨fun _ hx ↦ hp.mem_of_ready hsel.pool hsel.ready hx, rfl, rfl⟩

theorem nextStep_keeps (cfg : Config) (s : State ρ) (stop : Bool) :
    Keeps cfg s (nextStep cfg s stop) := by
  obtain ⟨phase, stopping, v, g, o, heq, hb⟩ := nextStep_eq cfg s stop
  rw [heq]
  exact .of_idle (fun _ hx ↦ hx) hb.idles.emptyHanded rfl

theorem closeStep_keeps (cfg : Config) (s : State ρ) : Keeps cfg s (closeStep cfg s) := by
  unfold closeStep
  split_ifs
  · exact .of_train (fun _ hx ↦ hx) rfl rfl
  · exact .of_train (fun _ hx ↦ hx) rfl rfl
  · exact .of_train (fun _ hx ↦ hx) rfl rfl
  · exact .of_train (fun _ hx ↦ hx) rfl rfl

def Event.dispatches : Event ρ → Bool
  | .startTask _ | .resumeTask _ _ | .resumeWaiting _ | .restart _ | .restored => true
  | _ => false

theorem keeps_of_step {e : Event ρ} (hp : Pool s.rm s.tasks) (he : e.dispatches = false)
    (h : step cfg s e = some s') : Keeps cfg s s' := by
  cases e with
  | startTask i => cases he
  | resumeTask i answer => cases he
  | resumeWaiting i => cases he
  | restart k => cases he
  | restored => cases he
  | pull n =>
    simp only [step] at h
    split at h
    · split_ifs at h <;> obtain rfl := Option.some.inj h <;> exact .of_eq rfl rfl rfl
    · cases h
  | endEpochs =>
    simp only [step] at h
    split at h
    · obtain rfl := Option.some.inj h
      exact .of_eq rfl rfl rfl
    · cases h
  | admitted =>
    simp only [step] at h
    split at h
    · split_ifs at h
      obtain rfl := Option.some.inj h
      exact .of_eq rfl rfl rfl
    · cases h
  | acquireBuffer =>
    simp only [step] at h
    split at h
    · split_ifs at h
      obtain rfl := Option.some.inj h
      exact .of_eq rfl rfl rfl
    · cases h
  | acquireSem =>
    simp only [step] at h
    split at h
    · split_ifs at h
      obtain rfl := Option.some.inj h
      exact .of_eq rfl rfl rfl
    · cases h
  | launch =>
    simp only [step] at h
    split at h
    · obtain rfl := Option.some.inj h
      exact .of_eq rfl rfl rfl
    · cases h
  | settle =>
    simp only [step] at h
    split at h
    · split_ifs at h <;> obtain rfl := Option.some.inj h <;> exact .of_eq rfl rfl rfl
    · cases h
  | drain =>
    simp only [step] at h
    split at h
    · split_ifs at h <;> obtain rfl := Option.some.inj h <;> exact .of_eq rfl rfl rfl
    · cases h
  | requestCancel i =>
    simp only [step] at h
    split at h
    · obtain rfl := Option.some.inj h
      exact .of_eq rfl rfl rfl
    · cases h
  | cancelCreated i =>
    simp only [step] at h
    split at h
    · obtain rfl := Option.some.inj h
      exact .of_eq rfl rfl rfl
    · cases h
  | cancelWaiting i =>
    simp only [step] at h
    split at h
    · obtain rfl := Option.some.inj h
      exact .of_eq rfl rfl rfl
    · cases h
  | cancelLaunch =>
    simp only [step] at h
    split at h
    · obtain rfl := Option.some.inj h
      exact .of_eq rfl rfl rfl
    · cases h
  | poll =>
    simp only [step] at h
    split at h
    · obtain rfl := Option.some.inj h
      rcases evict_cases cfg hp with ⟨heq, _⟩ | ⟨gone, rm, ids, hev, hne, heq⟩
      · rw [heq]
        obtain ⟨hslots, hcarries, hcheckpoints⟩ := choose_frame cfg hp
        exact .of_train hslots hcarries hcheckpoints
      · rw [heq]
        exact .of_train (fun _ hx ↦ hp.mem_of_ready hev.pool hev.ready hx) rfl rfl
    · cases h
  | evicted =>
    simp only [step] at h
    split at h
    · rename_i ids n htrain
      obtain rfl := Option.some.inj h
      obtain ⟨hslots, hcarries, hcheckpoints⟩ := choose_frame cfg
        (s := release (clearSamples s ids) n) (hp.withRows (s.rm.plane.dp.clear ids))
      exact .of_train hslots hcarries hcheckpoints
    · cases h
  | wake =>
    simp only [step] at h
    split at h
    · obtain rfl := Option.some.inj h
      obtain ⟨phase, stopping, heq, hi⟩ := loopHead_eq cfg s
      rw [heq]
      exact .of_idle (fun _ hx ↦ hx) hi.emptyHanded rfl
    · cases h
  | trained valid =>
    simp only [step] at h
    split at h
    · rename_i chunk htrain
      split_ifs at h
      · obtain rfl := Option.some.inj h
        exact .of_train (fun _ hx ↦ hx) rfl rfl
      · obtain rfl := Option.some.inj h
        obtain ⟨phase, stopping, heq, hi⟩ := loopHead_eq cfg
          { clearSamples s (chunk.flatMap Slot.rowIds) with
            groupsDispatched := s.groupsDispatched + chunk.length
            stepOpen := s.stepOpen || valid }
        rw [heq]
        exact .of_idle (fun _ hx ↦ hx) hi.emptyHanded rfl
    · cases h
  | closeStep =>
    simp only [step] at h
    split at h
    · obtain rfl := Option.some.inj h
      exact closeStep_keeps cfg s
    · cases h
  | synced =>
    simp only [step] at h
    split at h
    · split_ifs at h
      obtain rfl := Option.some.inj h
      exact .of_train (fun _ hx ↦ hx) rfl rfl
    · cases h
  | endStep save stop =>
    simp only [step] at h
    split at h
    · split_ifs at h
      · obtain rfl := Option.some.inj h
        exact .of_train (fun _ hx ↦ hx) rfl rfl
      · obtain rfl := Option.some.inj h
        exact nextStep_keeps cfg s stop
    · cases h
  | snapshot =>
    simp only [step] at h
    split at h
    · obtain rfl := Option.some.inj h
      refine ⟨fun _ hx ↦ hx, fun _ _ _ ht ↦ (by cases ht), fun save slots stop ht ↦ .inr ?_,
        fun _ hck ↦ .inl hck⟩
      obtain ⟨-, rfl, -⟩ := TrainPhase.fetching.inj ht
      exact fun x hx ↦ (List.mem_filter.mp hx).1
    · cases h
  | saved =>
    simp only [step] at h
    split at h
    · rename_i save slots stop htrain
      split at h
      · obtain rfl := Option.some.inj h
        exact .of_train (fun _ hx ↦ hx) rfl rfl
      · rename_i groups hgroups
        obtain rfl := Option.some.inj h
        obtain ⟨phase, stopping, v, g, o, heq, hb⟩ := nextStep_eq cfg { s with
          checkpoints := s.checkpoints ++ [⟨save, Envelope.ofSaved cfg.buffer.partitionId
            cfg.maxBufferedRollouts groups⟩] } stop
        have hcarries := TrainPhase.emptyHanded.carries hb.idles.emptyHanded
        rw [heq]
        refine ⟨fun _ hx ↦ hx, fun _ _ _ ht ↦ ?_, fun _ _ _ ht ↦ ?_, fun ck hck ↦ ?_⟩
        · obtain rfl : phase = _ := ht
          cases hcarries
        · obtain rfl : phase = _ := ht
          cases hcarries
        · rcases List.mem_append.mp hck with hck | hck
          · exact .inl hck
          · obtain rfl := List.mem_singleton.mp hck
            exact .inr ⟨save, slots, stop, groups, htrain, hgroups, rfl⟩
    · cases h
  | fail =>
    obtain rfl := Option.some.inj h
    exact .of_eq rfl rfl rfl
  | acquireRestored =>
    simp only [step] at h
    split at h
    · split_ifs at h
      obtain rfl := Option.some.inj h
      exact .of_train (fun _ hx ↦ hx) rfl rfl
    · cases h
  | startPumps =>
    simp only [step] at h
    split at h
    · obtain rfl := Option.some.inj h
      obtain ⟨phase, stopping, v, g, o, heq, hb⟩ := beginStep_eq cfg
        { s with replacementReserve := s.replacementReserve ++ _, pump := .idle }
      unfold startPumps
      rw [heq]
      exact .of_idle (fun _ hx ↦ hx) hb.idles.emptyHanded rfl
    · cases h

theorem weight_le_of_mem (hs : Sound cfg s) (hp : Punctual cfg s) :
    ∀ x ∈ s.rm.slots, x.startWeight ≤ s.rm.weightVersion := by
  intro x hx
  rcases List.mem_append.mp (hs.pool.owns.slots.mem_iff.mp hx) with hx | hx
  · exact (hp.ready x hx).1
  · obtain ⟨t, ht, hx⟩ := List.mem_flatMap.mp hx
    exact (hp.held t ht x (Option.mem_toList.mp hx)).1

theorem Ordered.turn (h : Ordered cfg s) (hrun : s.train.starting = false)
    (ha : Aligned (stamps s'.rm.slots)) (ht : s'.train = s.train)
    (hc : s'.checkpoints = s.checkpoints) : Ordered cfg s' where
  known := by
    refine ha.mono (stamps_mono fun x hx ↦ ?_)
    rcases List.mem_append.mp hx with hx | hx
    · exact hx
    · rw [← ht] at hrun
      cases htrain : s'.train with
      | restoring groups n reserve =>
        rw [htrain] at hrun
        cases hrun
      | _ =>
        rw [htrain] at hx
        exact absurd hx List.not_mem_nil
  fetching save slots stop htrain := h.fetching save slots stop (ht ▸ htrain)
  saved ck hck := h.saved ck (hc ▸ hck)

theorem startCall_slots (s : State ρ) (i : ℕ) (t : Task ρ) (prompt : ℕ) (target : Option ℕ) :
    (startCall s i t prompt target).rm.slots = s.rm.slots ++
      [TQReplayBuffer.reservation s.rm.weightVersion target ⟨s.rm.nextSerial, prompt⟩] :=
  TQReplayBuffer.slots_reserve _ _ _ _

/-- The slots after a resumption of a call: stamped as before, apart from one it reserves. -/
theorem resume_slots {i n : ℕ} {cancelled : Bool} {c : Call ρ} {answer : Answer ρ}
    {rm : RolloutManager.State ρ} {r : Progress (Call ρ) Outcome} (hp : Pool s.rm s.tasks)
    (hi : s.tasks[i]? = some ⟨n, cancelled, .calling c⟩)
    (h : RolloutManager.resume cfg.buffer cfg.policy s.rm c answer = some (rm, r)) :
    rm.weightVersion = s.rm.weightVersion ∧ ∃ others : List Slot,
      (∀ x ∈ c.held.toList ++ others, x ∈ s.rm.slots) ∧
      LeavesSlots c.held others rm.slots r ∧ Continues cfg.policy s.rm c r := by
  have hheld := Pool.flatMap_perm (fun t ↦ t.held.toList) hi
  obtain ⟨hleaves, -, -⟩ := hp.owns.resume hp.tidy hheld
    (hp.registry.trans (Pool.flatMap_perm (fun t ↦ t.registered.toList) hi)) h
  refine ⟨hleaves.weightVersion, _, fun x hx ↦ ?_, hleaves.slots, hleaves.continues⟩
  refine hp.owns.slots.mem_iff.mpr ?_
  rcases List.mem_append.mp hx with hx | hx
  · exact List.mem_append_right _ (hheld.mem_iff.mpr (List.mem_append_left _ hx))
  · rcases List.mem_append.mp hx with hx | hx
    · exact List.mem_append_left _ hx
    · exact List.mem_append_right _ (hheld.mem_iff.mpr (List.mem_append_right _ hx))

theorem Ordered.afterCall (h : Ordered cfg s) (hs : Sound cfg s) (hp : Punctual cfg s) {i n : ℕ}
    {cancelled : Bool} {c : Call ρ} {answer : Answer ρ} {rm : RolloutManager.State ρ}
    {r : Progress (Call ρ) Outcome} (hi : s.tasks[i]? = some ⟨n, cancelled, .calling c⟩)
    (hr : RolloutManager.resume cfg.buffer cfg.policy s.rm c answer = some (rm, r))
    (hn : ∀ c', r = .suspended c' → c'.held ≠ none → c'.held ≠ c.held →
      ∀ step ∈ c.target, NoneOlder s.rm.slots step s.rm.weightVersion) :
    Aligned (stamps rm.slots) := by
  obtain ⟨hweight, others, hmem, hslots, hcont⟩ := resume_slots hs.pool hi hr
  have hothers : ∀ x ∈ others, x ∈ s.rm.slots := fun x hx ↦ hmem x (List.mem_append_right _ hx)
  cases r with
  | suspended c' =>
    obtain ⟨-, htarget, hheld⟩ := hcont
    have hslots' : ∀ x ∈ rm.slots, x ∈ c'.held ∨ x ∈ others := by
      intro x hx
      rcases List.mem_append.mp (hslots.mem_iff.mp hx) with hx | hx
      · exact .inl (Option.mem_toList.mp hx)
      · exact .inr hx
    by_cases hold : c'.held = none ∨ c'.held = c.held
    · refine h.slots.mono (stamps_mono fun x hx ↦ ?_)
      rcases hslots' x hx with hx | hx
      · rcases hold with hnone | hsame
        · rw [hnone] at hx
          cases hx
        · rw [hsame] at hx
          exact hmem x (List.mem_append_left _ (Option.mem_toList.mpr hx))
      · exact hothers x hx
    · obtain ⟨hne, hnew⟩ := not_or.mp hold
      obtain ⟨x, hx⟩ := Option.ne_none_iff_exists'.mp hne
      have hstart : x.startWeight = s.rm.weightVersion := by
        rcases hheld x hx with hmine | ⟨hstart, -⟩
        · exact absurd (hx.trans hmine.symm) hnew
        · exact hstart
      have hstep : x.targetStep = c.target := (Call.targetStep_held hx).trans htarget
      have ha : Aligned (stamps (s.rm.slots ++ [x])) := by
        refine h.slots.reserve ?_ ?_
        · rw [hstart]
          exact weight_le_of_mem hs hp
        · rw [hstart, hstep]
          exact hn c' rfl hne hnew
      refine ha.mono (stamps_mono fun y hy ↦ ?_)
      rcases hslots' y hy with hy | hy
      · rw [hx] at hy
        obtain rfl := Option.some.inj hy
        exact List.mem_append_right _ (List.mem_singleton_self x)
      · exact List.mem_append_left _ (hothers y hy)
  | raised e =>
    exact h.slots.mono (stamps_mono fun x hx ↦ hothers x (hslots.mem_iff.mp hx))
  | returned o =>
    cases o with
    | skipped budget =>
      exact h.slots.mono (stamps_mono fun x hx ↦ hothers x (hslots.mem_iff.mp hx))
    | committed =>
      obtain ⟨x, m, e, hx, hperm⟩ := hslots
      refine h.slots.mono ?_
      rintro p ⟨y, hy, hstep, hstart⟩
      rcases List.mem_cons.mp (hperm.mem_iff.mp hy) with rfl | hy
      · refine ⟨x, hmem x (List.mem_append_left _ ?_), hstep, hstart⟩
        rw [hx]
        exact List.mem_singleton_self x
      · exact ⟨y, hothers y hy, hstep, hstart⟩

theorem promoteIntoStep_eq (s : State ρ) (target : Option ℕ) :
    let call := target.filter fun step ↦ s.trainerVersion ≤ step
    (promoteIntoStep s target).2 =
        (call.bind fun step ↦ (nextLender s.rm.slots step).bind Slot.targetStep).or target ∧
      (promoteIntoStep s target).1.rm.slots = call.elim s.rm.slots
        (fun step ↦ (s.rm.plane.buffer.promoteReadyGroup step).1.slots) ∧
      (promoteIntoStep s target).1.rm.weightVersion = s.rm.weightVersion ∧
      (promoteIntoStep s target).1.rolloutPermitted = s.rolloutPermitted := by
  unfold promoteIntoStep
  cases target with
  | none => exact ⟨rfl, rfl, rfl, rfl⟩
  | some step =>
    by_cases hlt : step < s.trainerVersion
    · have hcall : (some step).filter (fun step ↦ decide (s.trainerVersion ≤ step)) = none := by
        rw [Option.filter_some, if_neg]
        simpa using hlt
      simp only [hlt, if_true, hcall, Option.bind_none, Option.none_or, Option.elim_none, and_self]
    · have hcall : (some step).filter (fun step ↦ decide (s.trainerVersion ≤ step)) = some step := by
        rw [Option.filter_some, if_pos]
        simpa using hlt
      simp only [hlt, if_false, hcall, Option.bind_some, Option.elim_some]
      rcases promoteReadyGroup_cases s.rm.plane.buffer step with
        ⟨heq, hnext⟩ | ⟨k, lent, x, _, _, hlend, hnext, heq⟩
      · rw [heq]
        simp only [RolloutManager.State.slots, hnext, Option.bind_none, Option.none_or]
        exact ⟨trivial, trivial, trivial, trivial⟩
      · rw [heq]
        simp only [RolloutManager.State.slots, hnext, Option.bind_some, hlend.2.1, Option.some_or]
        exact ⟨trivial, rfl, rfl, trivial⟩

theorem noneOlder_promoted {b : TQReplayBuffer} {l : List Slot} {step version : ℕ}
    (hb : ∀ x ∈ b.slots, x ∈ l) {target : Option ℕ}
    (hn : ∀ t ∈ ((nextLender b.slots step).bind Slot.targetStep).or target,
      NoneOlder l t version) :
    ∀ t ∈ ((nextLender b.slots step).bind Slot.targetStep).or target,
      NoneOlder (b.promoteReadyGroup step).1.slots t version := by
  intro t ht y hy u hu hlt
  rcases promoteReadyGroup_cases b step with ⟨heq, -⟩ | ⟨k, lent, x, -, hx, hlend, hnext, heq⟩
  · rw [heq] at hy
    exact hn t ht y (hb y hy) u hu hlt
  · rw [heq, TQReplayBuffer.slots_retarget hx] at hy
    rcases List.mem_or_eq_of_mem_set hy with hy | rfl
    · exact hn t ht y (hb y hy) u hu hlt
    · -- the group that was borrowed now belongs to an earlier step
      rw [hnext, Option.bind_some, hlend.2.1, Option.some_or] at ht
      obtain rfl := Option.some.inj ht
      obtain rfl : step = u := Option.some.inj hu
      exact absurd (hlt.trans hlend.2.2) (lt_irrefl _)

theorem weight_le_promoted {b : TQReplayBuffer} {version : ℕ} (step : ℕ)
    (h : ∀ x ∈ b.slots, x.startWeight ≤ version) :
    ∀ x ∈ (b.promoteReadyGroup step).1.slots, x.startWeight ≤ version := by
  rcases promoteReadyGroup_cases b step with ⟨heq, -⟩ | ⟨k, lent, x, -, hx, -, -, heq⟩
  · rw [heq]
    exact h
  · rw [heq, TQReplayBuffer.slots_retarget hx]
    intro y hy
    rcases List.mem_or_eq_of_mem_set hy with hy | rfl
    · exact h y hy
    · exact h x (List.mem_of_getElem? hx)

/-- The slots once a spare has taken over: those of the promotion, and the
spare's own where the rollouts are not paused. -/
theorem dropped_slots {i : ℕ} {t : Task ρ} {spare : ℕ} {reserve : List ℕ}
    (htake : takeReplacement cfg s t.target t.replacements = some (spare, reserve)) :
    ∃ s₁ target, promoteIntoStep { s with replacementReserve := reserve } t.target = (s₁, target) ∧
      (dropped cfg s i t).rm.slots = s₁.rm.slots ++ if s₁.rolloutPermitted then
        [TQReplayBuffer.reservation s₁.rm.weightVersion target ⟨s₁.rm.nextSerial, spare⟩] else [] := by
  cases hpromote : promoteIntoStep { s with replacementReserve := reserve } t.target with
  | mk s₁ target =>
    refine ⟨s₁, target, rfl, ?_⟩
    unfold dropped
    rw [htake]
    simp only [hpromote]
    split_ifs
    · exact startCall_slots _ _ _ _ _
    · exact (List.append_nil _).symm

/-- A dropped prompt leaves the order of the slots as it is, whether a spare takes
over for the step itself or for a lender. -/
theorem Ordered.dropped {rm : RolloutManager.State ρ} {i : ℕ} {t : Task ρ}
    (ha : Aligned (stamps rm.slots)) (hmem : ∀ x ∈ rm.slots, x ∈ s.rm.slots)
    (hw : rm.weightVersion = s.rm.weightVersion)
    (hle : ∀ x ∈ s.rm.slots, x.startWeight ≤ s.rm.weightVersion)
    (hborrow : (takeReplacement cfg s t.target t.replacements).isSome →
      ∀ step ∈ t.target.filter fun step ↦ s.trainerVersion ≤ step,
        ∀ x ∈ nextLender rm.slots step, NoneOlder rm.slots step x.startWeight)
    (hspare : (takeReplacement cfg s t.target t.replacements).isSome → s.rolloutPermitted = true →
      ∀ step ∈ ((t.target.filter fun step ↦ s.trainerVersion ≤ step).bind fun step ↦
        (nextLender rm.slots step).bind Slot.targetStep).or t.target,
          NoneOlder s.rm.slots step s.rm.weightVersion) :
    Aligned (stamps (dropped cfg { s with rm := rm } i t).rm.slots) := by
  change (takeReplacement cfg { s with rm := rm } t.target t.replacements).isSome → _ at hborrow hspare
  cases htake : takeReplacement cfg { s with rm := rm } t.target t.replacements with
  | none =>
    unfold SingleController.dropped
    rw [htake]
    exact ha
  | some taken =>
    obtain ⟨spare, reserve⟩ := taken
    rw [htake] at hborrow hspare
    obtain ⟨htarget, hslots, hweight, hperm⟩ := promoteIntoStep_eq
      { s with rm := rm, replacementReserve := reserve } t.target
    obtain ⟨s₁, target, heq, hdropped⟩ := dropped_slots (i := i) htake
    rw [heq] at htarget hslots hweight hperm
    rw [hdropped]
    have hold : ∀ x ∈ rm.slots, x.startWeight ≤ s.rm.weightVersion := fun x hx ↦ hle x (hmem x hx)
    have hcall : Aligned (stamps s₁.rm.slots) ∧
        (∀ x ∈ s₁.rm.slots, x.startWeight ≤ s.rm.weightVersion) ∧
        (s.rolloutPermitted = true → ∀ step ∈ target,
          NoneOlder s₁.rm.slots step s.rm.weightVersion) := by
      have hspare' := hspare rfl
      have hborrow' := hborrow rfl
      simp only at htarget hslots
      rw [htarget, hslots]
      cases hstep : t.target.filter fun step ↦ decide (s.trainerVersion ≤ step) with
      | none =>
        rw [hstep] at hspare'
        exact ⟨ha, hold, fun hp step hs x hx ↦ hspare' hp step hs x (hmem x hx)⟩
      | some step =>
        rw [hstep] at hspare' hborrow'
        exact ⟨ha.promote (hborrow' step rfl), weight_le_promoted step hold,
          fun hp ↦ noneOlder_promoted hmem (hspare' hp)⟩
    obtain ⟨ha₁, hle₁, hn₁⟩ := hcall
    have hv : s₁.rm.weightVersion = s.rm.weightVersion := hweight.trans hw
    split_ifs with hp
    · refine ha₁.reserve (fun y hy ↦ ?_) fun step hstep ↦ ?_
      · exact (hle₁ y hy).trans hv.ge
      · show NoneOlder s₁.rm.slots step s₁.rm.weightVersion
        rw [hv]
        exact hn₁ (hperm ▸ hp) step hstep
    · rw [List.append_nil]
      exact ha₁

theorem Ordered.startCall (h : Ordered cfg s) (hs : Sound cfg s) (hp : Punctual cfg s) {i : ℕ}
    {t : Task ρ} (hi : s.tasks[i]? = some t) (prompt : ℕ) (target : Option ℕ)
    (hn : ∀ step ∈ target, NoneOlder s.rm.slots step s.rm.weightVersion) :
    Ordered cfg (startCall s i t prompt target) := by
  have hne : s.tasks ≠ [] := by
    intro hnil
    simp [hnil] at hi
  refine h.turn (hs.running (.inl hne)) ?_ rfl rfl
  rw [startCall_slots]
  exact h.slots.reserve (weight_le_of_mem hs hp) hn

theorem Ordered.resumeTask (h : Ordered cfg s) (hs : Sound cfg s) (hp : Punctual cfg s) {i : ℕ}
    {answer : Answer ρ} (ho : InOrder cfg s (.resumeTask i answer))
    (hstep : step cfg s (.resumeTask i answer) = some s') : Ordered cfg s' := by
  obtain ⟨hattempt, hpromote⟩ := ho
  simp only [step] at hstep
  split at hstep
  · rename_i n cancelled c hi
    split_ifs at hstep with hc
    obtain ⟨⟨rm, r⟩, hr, rfl⟩ := Option.map_eq_some_iff.mp hstep
    have hne : s.tasks ≠ [] := by
      intro hnil
      simp [hnil] at hi
    obtain ⟨-, -, -, -, htrain, -, -, -, hcheckpoints⟩ := (afterCall_turn hs.pool hi hc hr).2.frame
    have hle := weight_le_of_mem hs hp
    obtain ⟨hw, others, hmem, hslots, -⟩ := resume_slots hs.pool hi hr
    simp only [attempted, promoteCall, hi, hr] at hattempt hpromote
    have ha : Aligned (stamps rm.slots) := by
      refine h.afterCall hs hp hi hr fun c' hc' hnone hnew ↦ ?_
      subst hc'
      simp only [hnone, hnew, or_self, if_false] at hattempt
      exact hattempt
    refine h.turn (hs.running (.inl hne)) ?_ htrain hcheckpoints
    cases r with
    | suspended c' => exact ha
    | raised e => exact ha
    | returned o =>
      cases o with
      | committed => exact ha
      | skipped budget =>
        refine Ordered.dropped ha (fun x hx ↦ ?_) hw hle (fun htake step hfilter ↦ ?_)
          fun htake hperm ↦ ?_
        · exact hmem x (List.mem_append_right _ (hslots.mem_iff.mp hx))
        · simp only [Task.target] at htake hfilter
          simp only [htake, if_true] at hpromote
          refine hpromote (rm.plane.buffer, step) ?_
          exact Option.mem_map_of_mem _ hfilter
        · simp only [Task.target] at htake ⊢
          simp only [htake, hperm, and_self, if_true, Option.bind_map] at hattempt
          exact hattempt
  · cases hstep

theorem Ordered.boot (h : Ordered cfg s) (hs : Sound cfg s) {ck : Checkpoint ρ}
    {groups : List (SavedGroup ρ)} {n : ℕ} (hk : ck ∈ s.checkpoints)
    (hpre : TQReplayBuffer.preflight ck.buffer cfg.maxBufferedRollouts cfg.buffer.partitionId
      cfg.numGenerationsPerPrompt = .ok groups) :
    Ordered cfg (boot cfg n ck.toSaveState groups s.checkpoints) where
  known := by
    obtain ⟨saved, hck, hnd⟩ := hs.saved ck hk
    rw [hck] at hpre
    have hsub := (TQReplayBuffer.preflight_nodup hpre hnd).2
    refine (h.saved ck hk saved hck).mono (stamps_mono fun x hx ↦ ?_)
    obtain ⟨g, hg, rfl⟩ := List.mem_map.mp hx
    exact List.mem_map_of_mem (hsub g hg)
  fetching := by rintro save slots stop ⟨⟩
  saved := h.saved

theorem Ordered.restored (h : Ordered cfg s) {g : SavedGroup ρ} {rest : List (SavedGroup ρ)}
    {n : ℕ} {reserve : List ℕ} (htrain : s.train = .restoring (g :: rest) n reserve) :
    Ordered cfg { s with
      rm.plane := TQReplayBuffer.restoreGroup s.rm.plane g
      train := .restoring rest (n + 1) reserve } where
  known := by
    have hknown := h.known
    simp only [SingleController.known, htrain, List.map_cons] at hknown
    refine hknown.mono (stamps_mono fun x hx ↦ ?_)
    simp only [SingleController.known, RolloutManager.State.slots,
      TQReplayBuffer.slots_restoreGroup, List.append_assoc, List.singleton_append] at hx
    exact hx
  fetching := by rintro save slots stop ⟨⟩
  saved := h.saved

theorem Ordered.step_kept {e : Event ρ} (h : Ordered cfg s) (hs : Sound cfg s) (hp : Punctual cfg s)
    (ho : InOrder cfg s e) (hstep : step cfg s e = some s') : Ordered cfg s' := by
  cases e with
  | startTask i =>
    have hattempt := ho.1
    simp only [step] at hstep
    split at hstep
    · rename_i n prompt target hi
      obtain rfl := Option.some.inj hstep
      simp only [attempted, hi, Option.bind_some] at hattempt
      exact h.startCall hs hp hi prompt target hattempt
    · cases hstep
  | resumeWaiting i =>
    have hattempt := ho.1
    simp only [step] at hstep
    split at hstep
    · rename_i n prompt target hi
      obtain rfl := Option.some.inj hstep
      simp only [attempted, hi, Option.bind_some] at hattempt
      exact h.startCall hs hp hi prompt target hattempt
    · cases hstep
  | resumeTask i answer => exact h.resumeTask hs hp ho hstep
  | restart k =>
    simp only [step] at hstep
    split at hstep
    · cases hstep
    · rename_i checkpoint hk
      split at hstep
      · cases hstep
      · rename_i groups hpre
        obtain rfl := Option.some.inj hstep
        exact h.boot hs (List.mem_of_getElem? hk) hpre
  | restored =>
    simp only [step] at hstep
    split at hstep
    · rename_i g rest n reserve htrain
      obtain rfl := Option.some.inj hstep
      exact h.restored htrain
    · cases hstep
  | _ => exact h.keep (keeps_of_step hs.pool rfl hstep)

theorem ordered_init (cfg : Config) : Ordered cfg (init cfg : State ρ) := by
  obtain ⟨phase, stopping, v, g, o, heq, hb⟩ := beginStep_eq cfg
    { (fresh cfg : State ρ) with pump := .idle }
  unfold init startPumps
  rw [heq]
  refine Ordered.keep (s := fresh cfg) ⟨?_, ?_, ?_⟩
    (.of_idle (fun _ hx ↦ hx) hb.idles.emptyHanded rfl)
  · refine aligned_empty.mono ?_
    rintro p ⟨x, ⟨⟩, -⟩
  · rintro save slots stop ⟨⟩
  · rintro ck ⟨⟩

theorem ordered_of_reachable (h : ReachableBy (step cfg) (Initial cfg) (InOrder cfg) s) :
    Ordered cfg s := by
  refine h.invariant_of (I := Ordered cfg) ?_ fun s e t hr ho hok hstep ↦ ?_
  · rintro s rfl
    exact ordered_init cfg
  · obtain ⟨hs, -, hp⟩ := paced_of_reachable hr
    exact ho.step_kept hs hp hok hstep

theorem promoteCall_eq_some {e : Event ρ} {b : TQReplayBuffer} {step : ℕ}
    (h : promoteCall cfg s e = some (b, step)) :
    ∃ i answer n cancelled c rm budget, e = .resumeTask i answer ∧
      s.tasks[i]? = some ⟨n, cancelled, .calling c⟩ ∧
      RolloutManager.resume cfg.buffer cfg.policy s.rm c answer =
        some (rm, .returned (.skipped budget)) ∧
      (takeReplacement cfg s c.target n).isSome ∧ c.target = some step ∧
      s.trainerVersion ≤ step ∧ rm.plane.buffer = b := by
  unfold promoteCall at h
  split at h
  · rename_i i answer
    split at h
    · rename_i n cancelled c hi
      split at h
      · rename_i rm budget hr
        split_ifs at h with htake
        obtain ⟨t, ht, heq⟩ := Option.map_eq_some_iff.mp h
        obtain ⟨rfl, rfl⟩ := Prod.mk.inj heq
        obtain ⟨htarget, hle⟩ := Option.filter_eq_some_iff.mp ht
        exact ⟨i, answer, n, cancelled, c, rm, budget, rfl, hi, hr, htake, htarget,
          of_decide_eq_true hle, rfl⟩
      · cases h
    · cases h
  · cases h

theorem slots_of_promoteCall {e : Event ρ} {b : TQReplayBuffer} {step : ℕ}
    (hc : promoteCall cfg s e = some (b, step)) (hstep : SingleController.step cfg s e = some s') :
    ∃ spare : Option Slot, s'.rm.slots = (b.promoteReadyGroup step).1.slots ++ spare.toList ∧
      ∀ x ∈ spare, x.ready = false := by
  obtain ⟨i, answer, n, cancelled, c, rm, budget, rfl, hi, hr, htake, htarget, hle, rfl⟩ :=
    promoteCall_eq_some hc
  simp only [SingleController.step, hi] at hstep
  split_ifs at hstep
  obtain ⟨r, hr', rfl⟩ := Option.map_eq_some_iff.mp hstep
  obtain rfl := Option.some.inj (hr'.symm.trans hr)
  obtain ⟨⟨spare, reserve⟩, htake⟩ := Option.isSome_iff_exists.mp htake
  have htake' : takeReplacement cfg { s with rm := rm } c.target n = some (spare, reserve) := htake
  obtain ⟨-, hslots, -, -⟩ := promoteIntoStep_eq
    { s with rm := rm, replacementReserve := reserve } c.target
  have hfilter : c.target.filter (fun t ↦ decide (s.trainerVersion ≤ t)) = some step := by
    rw [htarget, Option.filter_some, if_pos (decide_eq_true hle)]
  simp only [hfilter, Option.elim_some] at hslots
  obtain ⟨s₁, target, heq, hdropped⟩ := dropped_slots (i := i)
    (t := ⟨n, false, .calling c⟩) htake'
  change promoteIntoStep _ c.target = _ at heq
  rw [heq] at hslots
  simp only [afterCall, hdropped, hslots]
  split_ifs
  · exact ⟨some _, rfl, by rintro x ⟨⟩; rfl⟩
  · exact ⟨none, rfl, by rintro x ⟨⟩⟩

/-- In a run that keeps to the order, promotion only makes a step fresher. -/
theorem promotes_fresher {e : Event ρ} {b : TQReplayBuffer} {step : ℕ}
    (h : ReachableBy (SingleController.step cfg) (Initial cfg) (InOrder cfg) s)
    (hc : promoteCall cfg s e = some (b, step)) : PromotesFresher b step := by
  obtain ⟨i, answer, n, cancelled, c, rm, budget, rfl, hi, hr, -, -, -, rfl⟩ :=
    promoteCall_eq_some hc
  obtain ⟨hs, -, -⟩ := paced_of_reachable h
  obtain ⟨-, others, hmem, hslots, -⟩ := resume_slots hs.pool hi hr
  have hold : ∀ x ∈ rm.slots, x ∈ s.rm.slots := fun x hx ↦
    hmem x (List.mem_append_right _ (hslots.mem_iff.mp hx))
  intro k lent x hlender hx y hy hstep
  have hlend := TQReplayBuffer.promoteLender_lenderOf rm.plane.buffer step
  rw [hlender] at hlend
  obtain ⟨⟨z, hz, -, htarget, hlt⟩, -⟩ := hlend
  obtain rfl : z = x := Option.some.inj (hz.symm.trans hx)
  have hy' : (step, y.startWeight) ∈ stamps s.rm.slots := ⟨y, hold y hy, hstep, rfl⟩
  have hx' : (lent, z.startWeight) ∈ stamps s.rm.slots :=
    ⟨z, hold z (List.mem_of_getElem? hx), htarget, rfl⟩
  exact (ordered_of_reachable h).slots _ hy' _ hx' hlt

section Runs

def twoAhead : Config where
  buffer := ⟨"rollout", false, none⟩
  policy := ⟨2, 1, 1, 1, Nat.two_pos, Nat.one_pos⟩
  sampler := .inOrder 2 none
  numPromptsPerStep := 2
  numGenerationsPerPrompt := 1
  maxNumSteps := 4
  maxBufferedRollouts := 6
  maxInflightPrompts := 6
  minGroupsForStreamingTrain := 1
  isPpo := false
  policyTrainingStartStep := 0
  useNemoGym := false
  replace := true
  maxReplacementAttempts := 1
  replacementReservePrompts := 1
  minStepBatchFraction := 1 / 2
  groups_le := Nat.two_pos
  fraction_pos := sparePool_fraction_pos
  capacity := by decide
  unstamped := by decide
  warmup := by decide
  ppo := by decide

def launched (i : ℕ) : List (Event Unit) := [.acquireBuffer, .acquireSem, .launch, .startTask i]

/-- The batches of three steps at version 0: step 0 is finished, the two prompts of
step 1 are in flight, and one of step 2 is finished. -/
def threeSteps : List (Event Unit) :=
  [.pull 2, .admitted] ++ generated 0 ++ generated 0 ++ [.pull 2, .pull 2, .admitted] ++
  launched 0 ++ launched 1 ++ [.pull 2, .admitted] ++ generated 2

def firstUpdate : List (Event Unit) :=
  [.poll, .trained true, .closeStep, .synced, .endStep false false]

/-- A prompt of step 1 fails with the fleet and is generated again at version 1. -/
def retriedRun : List (Event Unit) :=
  threeSteps ++ [.resumeTask 0 (.raise (.ofClasses [.timeoutError] none))] ++ firstUpdate ++
  [.resumeTask 0 .ok, .resumeTask 0 (.record ⟨[⟨(), 1, false⟩]⟩), .resumeTask 0 .ok]

def dropped₁ : Event Unit := .resumeTask 0 (.raise .valueError)

/-- Without the retry the group that is promoted is as old as the other one. -/
def orderedRun : List (Event Unit) := threeSteps ++ firstUpdate

theorem runs_promote :
    ((exec (step twoAhead) (init twoAhead) retriedRun).isSome ∧
      ∀ s ∈ exec (step twoAhead) (init twoAhead) retriedRun,
        (promoteCall twoAhead s dropped₁).isSome ∧ ∀ call ∈ promoteCall twoAhead s dropped₁,
          call.1.promoteLender call.2 = some (0, 2) ∧ (call.1.slots.map fun x ↦
            (decide (x.targetStep = some call.2), x.startWeight)) = [(false, 0), (true, 1)]) ∧
    (execBy (step twoAhead) (InOrder twoAhead) (init twoAhead) orderedRun).isSome ∧
      ∀ s ∈ execBy (step twoAhead) (InOrder twoAhead) (init twoAhead) orderedRun,
        (promoteCall twoAhead s dropped₁).isSome ∧ ∀ call ∈ promoteCall twoAhead s dropped₁,
          call.1.promoteLender call.2 = some (1, 2) := by
  decide +kernel

theorem retriedRun_ends : (exec (step twoAhead) (init twoAhead) retriedRun).isSome :=
  runs_promote.1.1

def retriedState : State Unit :=
  (exec (step twoAhead) (init twoAhead) retriedRun).get retriedRun_ends

theorem retriedRun_promotes : (promoteCall twoAhead retriedState dropped₁).isSome :=
  (runs_promote.1.2 _ (Option.get_mem retriedRun_ends)).1

def retriedCall : TQReplayBuffer × ℕ :=
  (promoteCall twoAhead retriedState dropped₁).get retriedRun_promotes

/-- The group of step 2 that is promoted was started at version 0, and the one
already in step 1 at version 1. -/
theorem promotion_not_fresher :
    ¬ ∀ (cfg : Config) (s : State Unit) (e : Event Unit) (b : TQReplayBuffer) (step : ℕ),
      cfg.sampler.stamps = true → Reachable (SingleController.step cfg) (Initial cfg) s →
      promoteCall cfg s e = some (b, step) → PromotesFresher b step := by
  intro h
  have hfresher := h twoAhead retriedState dropped₁ retriedCall.1 retriedCall.2 rfl
    (.run (initial_init twoAhead) retriedRun retriedRun_ends)
    (Option.some_get retriedRun_promotes).symm
  obtain ⟨hlender, hslots⟩ := (runs_promote.1.2 _ (Option.get_mem retriedRun_ends)).2 _
    (Option.get_mem retriedRun_promotes)
  obtain ⟨x, rest, hx, hold, hrest⟩ := List.map_eq_cons_iff.mp hslots
  obtain ⟨y, rest, rfl, hnew, -⟩ := List.map_eq_cons_iff.mp hrest
  obtain ⟨-, hold⟩ := Prod.mk.inj hold
  obtain ⟨hstep, hnew⟩ := Prod.mk.inj hnew
  have hle := hfresher 0 2 x hlender (by rw [retriedCall, hx]; rfl) y
    (by rw [retriedCall, hx]; simp) (of_decide_eq_true hstep)
  rw [hold, hnew] at hle
  exact absurd hle (by decide)

theorem orderedRun_ends :
    (execBy (step twoAhead) (InOrder twoAhead) (init twoAhead) orderedRun).isSome :=
  runs_promote.2.1

def orderedState : State Unit :=
  (execBy (step twoAhead) (InOrder twoAhead) (init twoAhead) orderedRun).get orderedRun_ends

theorem orderedRun_promotes : (promoteCall twoAhead orderedState dropped₁).isSome :=
  (runs_promote.2.2 _ (Option.get_mem orderedRun_ends)).1

def orderedCall : TQReplayBuffer × ℕ :=
  (promoteCall twoAhead orderedState dropped₁).get orderedRun_promotes

theorem promotes_fresher_ordered :
    promoteCall twoAhead orderedState dropped₁ = some orderedCall ∧
    orderedCall.1.promoteLender orderedCall.2 = some (1, 2) ∧
      PromotesFresher orderedCall.1 orderedCall.2 :=
  ⟨(Option.some_get orderedRun_promotes).symm,
    (runs_promote.2.2 _ (Option.get_mem orderedRun_ends)).2 _ (Option.get_mem orderedRun_promotes),
    promotes_fresher (s := orderedState)
      (.run (initial_init twoAhead) orderedRun orderedRun_ends)
      (Option.some_get orderedRun_promotes).symm⟩

end Runs

end NemoRL.SingleController
