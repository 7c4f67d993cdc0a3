import Mathlib
import NemoRL.SingleController.BatchTotals

namespace NemoRL.SingleController

open DataPlane AsyncUtils Experience Experience.RolloutManager
open Foundations Foundations.Positions Foundations.Transition

variable {ρ : Type} {cfg : Config} {s s' : State ρ} {W : ℕ}

section Live

def live (s : State ρ) : List Slot := readySlots s.rm ++ s.tasks.flatMap fun t ↦ t.held.toList

theorem slots_perm_live (hs : Sound cfg s) : s.rm.slots.Perm (live s) := hs.pool.owns.slots

def startedBy (w : ℕ) (slots : List Slot) : ℕ := slots.countP (·.startWeight ≤ w)

theorem startedBy_append (w : ℕ) (l l' : List Slot) :
    startedBy w (l ++ l') = startedBy w l + startedBy w l' := List.countP_append

theorem startedBy_perm {w : ℕ} {l l' : List Slot} (h : l.Perm l') :
    startedBy w l = startedBy w l' := h.countP_eq _

theorem startedBy_le_length (w : ℕ) (l : List Slot) : startedBy w l ≤ l.length :=
  List.countP_le_length

theorem startedBy_eq_length {w : ℕ} {l : List Slot} (h : ∀ x ∈ l, x.startWeight ≤ w) :
    startedBy w l = l.length := List.countP_eq_length.mpr fun x hx ↦ by simpa using h x hx

theorem length_held_le (tasks : List (Task ρ)) :
    (tasks.flatMap fun t ↦ t.held.toList).length ≤ tasks.length := by
  induction tasks with
  | nil => exact le_rfl
  | cons t tasks ih =>
    have hle : t.held.toList.length ≤ 1 := by
      cases t.held <;> simp
    rw [List.flatMap_cons, List.length_append, List.length_cons]
    omega

theorem length_live_le (s : State ρ) : (live s).length ≤ s.tasks.length + (readySlots s.rm).length := by
  have hle := length_held_le s.tasks
  rw [live, List.length_append]
  omega

/-- What a step may do to the live slots: forget some, and start one at the current weights. -/
structure Renews (s s' : State ρ) : Prop where
  mem : ∀ x' ∈ live s', (∃ x ∈ live s, x'.startWeight = x.startWeight) ∨
    x'.startWeight = s.rm.weightVersion ∧ s.tasks ≠ []
  startedBy : ∀ w < s.rm.weightVersion, startedBy w (live s') ≤ startedBy w (live s)

theorem live_perm {i : ℕ} {t : Task ρ} (hi : s.tasks[i]? = some t) :
    (live s).Perm (readySlots s.rm ++ (t.held.toList ++
      (s.tasks.eraseIdx i).flatMap fun t ↦ t.held.toList)) :=
  (Pool.flatMap_perm (fun t ↦ t.held.toList) hi).append_left _

theorem startedBy_held {t t' : Task ρ} {w : ℕ} (h : ∀ x ∈ t'.held, x ∈ t.held ∨ w < x.startWeight) :
    startedBy w t'.held.toList ≤ startedBy w t.held.toList := by
  cases ht' : t'.held with
  | none => exact Nat.zero_le _
  | some x =>
    rcases h x ht' with hx | hlt
    · rw [Option.mem_def.mp hx]
    · have hzero : startedBy w [x] = 0 := by
        simp only [startedBy, List.countP_singleton, decide_eq_true_eq]
        rw [if_neg (by omega)]
      simp only [Option.toList_some]
      omega

theorem Turn.renews {i : ℕ} {t : Task ρ} (hk : KeepsPrompts cfg) (hi : s.tasks[i]? = some t)
    (h : Turn cfg s i t s') : Renews s s' := by
  have hlive := live_perm hi
  have hne : s.tasks ≠ [] := by
    intro hnil
    simp [hnil] at hi
  have hcount : ∀ w, startedBy w (live s) = startedBy w (readySlots s.rm) +
      (startedBy w t.held.toList +
        startedBy w ((s.tasks.eraseIdx i).flatMap fun t ↦ t.held.toList)) := by
    intro w
    rw [startedBy_perm hlive, startedBy_append, startedBy_append]
  -- a slot of the rest, or of the task, is live
  have hready : ∀ x ∈ readySlots s.rm, x ∈ live s := fun x hx ↦ List.mem_append_left _ hx
  have hrest : ∀ x ∈ (s.tasks.eraseIdx i).flatMap fun t ↦ t.held.toList, x ∈ live s :=
    fun x hx ↦ hlive.mem_iff.mpr (List.mem_append_right _ (List.mem_append_right _ hx))
  have hheld : ∀ x ∈ t.held, x ∈ live s := fun x hx ↦
    hlive.mem_iff.mpr (List.mem_append_right _ (List.mem_append_left _ (by simpa using hx)))
  cases h with
  | moved rm t' hf hr =>
    have hlive' : (live { s with rm := rm, tasks := s.tasks.set i t' }).Perm
        (readySlots s.rm ++ (t'.held.toList ++
          (s.tasks.eraseIdx i).flatMap fun t ↦ t.held.toList)) :=
      hr.slots.append (Pool.flatMap_set_perm (fun t ↦ t.held.toList) hi)
    refine ⟨fun x hx ↦ ?_, fun w hw ↦ ?_⟩
    · rcases List.mem_append.mp (hlive'.mem_iff.mp hx) with hx | hx
      · exact .inl ⟨x, hready x hx, rfl⟩
      · rcases List.mem_append.mp hx with hx | hx
        · rcases hf.held x (by simpa using hx) with hold | hnew
          · exact .inl ⟨x, hheld x hold, rfl⟩
          · exact .inr ⟨hnew, hne⟩
        · exact .inl ⟨x, hrest x hx, rfl⟩
    · have hle : startedBy w t'.held.toList ≤ startedBy w t.held.toList :=
        startedBy_held fun x hx ↦ (hf.held x hx).imp id fun heq ↦ hw.trans_eq heq.symm
      rw [startedBy_perm hlive', startedBy_append, startedBy_append, hcount]
      omega
  | committed rm x m e counts hx hr =>
    have hlive' : (live { endTask { s with rm := rm } i with batchReplacements := counts }).Perm
        (x.filled m e :: readySlots s.rm ++
          (s.tasks.eraseIdx i).flatMap fun t ↦ t.held.toList) := hr.slots.append_right _
    refine ⟨fun y hy ↦ ?_, fun w hw ↦ ?_⟩
    · rcases List.mem_append.mp (hlive'.mem_iff.mp hy) with hy | hy
      · rcases List.mem_cons.mp hy with rfl | hy
        · exact .inl ⟨x, hheld x hx, rfl⟩
        · exact .inl ⟨y, hready y hy, rfl⟩
      · exact .inl ⟨y, hrest y hy, rfl⟩
    · have hone : startedBy w (x.filled m e :: readySlots s.rm) =
          startedBy w t.held.toList + startedBy w (readySlots s.rm) := by
        rw [hx, ← List.singleton_append, startedBy_append]
        rfl
      rw [startedBy_perm hlive', startedBy_append, hone, hcount]
      omega
  | shortened _ hb _ => exact absurd hk hb
  | replaced _ _ _ hsub _ _ => exact absurd hk hsub.budget
  | promoted _ _ _ _ _ _ _ _ hsub _ _ _ _ _ _ => exact absurd hk hsub.budget
  | ended rm stopping _ hr =>
    have hlive' : (live { endTask (release { s with rm := rm } 1) i with stopping := stopping }).Perm
        (readySlots s.rm ++ (s.tasks.eraseIdx i).flatMap fun t ↦ t.held.toList) :=
      hr.slots.append_right _
    refine ⟨fun y hy ↦ ?_, fun w hw ↦ ?_⟩
    · rcases List.mem_append.mp (hlive'.mem_iff.mp hy) with hy | hy
      · exact .inl ⟨y, hready y hy, rfl⟩
      · exact .inl ⟨y, hrest y hy, rfl⟩
    · rw [startedBy_perm hlive', startedBy_append, hcount]
      omega

end Live

section Fifo

def PumpPhase.launchable : PumpPhase → ℕ
  | .launching (_ :: _) _ (.permitted true) => 1
  | _ => 0

/-- The groups are trained in the order of their start weights, each within `W` versions,
because no more have started by a version than are trained within `W` of it. -/
structure Fifo (cfg : Config) (W : ℕ) (s : State ρ) : Prop where
  weights : ∀ x ∈ live s, x.startWeight ≤ s.rm.weightVersion
  trainedWeights : ∀ vx ∈ s.selected, vx.2.startWeight ≤ s.rm.weightVersion
  order : ∀ x ∈ live s, ∀ vx ∈ s.selected, vx.2.startWeight ≤ x.startWeight
  window : ∀ x ∈ live s, s.trainerVersion ≤ x.startWeight + W
  early : ∀ w < s.rm.weightVersion,
    startedBy w (live s) + startedBy w (s.selected.map Prod.snd) ≤
      cfg.numPromptsPerStep * (w + W + 1)
  launched : s.rm.weightVersion < s.trainerVersion →
    s.tasks.length + (readySlots s.rm).length + s.pump.launchable + s.selected.length ≤
      cfg.numPromptsPerStep * (s.rm.weightVersion + W + 1)
  age : ∀ vx ∈ s.selected, vx.2.startWeight ≤ vx.1 ∧ vx.1 ≤ vx.2.startWeight + W

theorem launchable_launchNext (prompts : List ℕ) (target : Option ℕ) :
    (launchNext prompts target).launchable = 0 := by
  unfold launchNext
  split_ifs with h
  · rfl
  · cases prompts <;> rfl

theorem launchable_le_unlaunched (p : PumpPhase) : p.launchable ≤ p.unlaunched := by
  unfold PumpPhase.launchable
  split
  · simp [PumpPhase.unlaunched]
  · exact Nat.zero_le _

theorem Fifo.keep (hf : Fifo cfg W s) (hlive : (live s').Perm (live s))
    (hsel : s'.selected = s.selected) (hv : s'.trainerVersion = s.trainerVersion)
    (hw : s'.rm.weightVersion = s.rm.weightVersion)
    (hlaunched : s.rm.weightVersion < s.trainerVersion →
      s'.tasks.length + (readySlots s'.rm).length + s'.pump.launchable ≤
        s.tasks.length + (readySlots s.rm).length + s.pump.launchable) : Fifo cfg W s' := by
  have hmem : ∀ x ∈ live s', x ∈ live s := fun x hx ↦ hlive.mem_iff.mp hx
  refine ⟨?_, ?_, ?_, ?_, ?_, ?_, ?_⟩
  · rw [hw]
    exact fun x hx ↦ hf.weights x (hmem x hx)
  · rw [hsel, hw]
    exact hf.trainedWeights
  · rw [hsel]
    exact fun x hx ↦ hf.order x (hmem x hx)
  · rw [hv]
    exact fun x hx ↦ hf.window x (hmem x hx)
  · intro w hlt
    rw [startedBy_perm hlive, hsel]
    exact hf.early w (hw ▸ hlt)
  · intro hlt
    rw [hv, hw] at hlt
    have hbefore := hf.launched hlt
    have hle := hlaunched hlt
    rw [hw, hsel]
    omega
  · rw [hsel]
    exact hf.age

/-- A turn of a task starts its slot at the current weights, unless all that could be started
at them has been trained. -/
theorem Fifo.turn (hf : Fifo cfg W s) (hk : KeepsPrompts cfg) (hp : Paced cfg s)
    (ht : Totals cfg s) {i : ℕ} {t : Task ρ} (hi : s.tasks[i]? = some t)
    (h : Turn cfg s i t s') : Fifo cfg W s' := by
  have hrenews := h.renews hk hi
  obtain ⟨hle, -, hpump, -, hsel⟩ := h.totals hk hi
  have hframe : s'.trainerVersion = s.trainerVersion ∧
      s'.rm.weightVersion = s.rm.weightVersion := by
    cases h with
    | moved _ _ _ hr => exact ⟨rfl, hr.weightVersion⟩
    | committed _ _ _ _ _ _ hr => exact ⟨rfl, hr.weightVersion⟩
    | shortened _ _ hr => exact ⟨rfl, hr.weightVersion⟩
    | replaced _ _ _ _ _ hr => exact ⟨rfl, hr.weightVersion⟩
    | promoted _ _ _ _ _ _ _ _ _ _ _ _ _ _ hr => exact ⟨rfl, hr.weightVersion⟩
    | ended _ _ _ hr => exact ⟨rfl, hr.weightVersion⟩
  obtain ⟨hv, hw⟩ := hframe
  refine ⟨?_, ?_, ?_, ?_, ?_, ?_, ?_⟩
  · intro x hx
    rw [hw]
    rcases hrenews.mem x hx with ⟨y, hy, heq⟩ | ⟨heq, -⟩
    · exact heq ▸ hf.weights y hy
    · exact heq.le
  · rw [hsel, hw]
    exact hf.trainedWeights
  · intro x hx vx hvx
    rw [hsel] at hvx
    rcases hrenews.mem x hx with ⟨y, hy, heq⟩ | ⟨heq, -⟩
    · exact heq ▸ hf.order y hy vx hvx
    · exact heq ▸ hf.trainedWeights vx hvx
  · intro x hx
    rw [hv]
    rcases hrenews.mem x hx with ⟨y, hy, heq⟩ | ⟨heq, hne⟩
    · exact heq ▸ hf.window y hy
    · rw [heq]
      by_contra hlate
      -- the weights lag behind and the window is empty, so no task is left
      have hweights : s.trainerVersion = s.rm.weightVersion + 1 ∧ W = 0 := by
        rcases hp.weights with ⟨-, hsync⟩ | ⟨-, -, hsync⟩ <;> omega
      obtain ⟨hlag, rfl⟩ := hweights
      have hlaunched := hf.launched (by omega)
      have htrained := ht.trained
      rw [hlag] at htrained
      have hpos := List.length_pos_iff.mpr hne
      simp only [Nat.add_zero] at hlaunched
      omega
  · intro w hlt
    rw [hw] at hlt
    have hbefore := hf.early w hlt
    have hafter := hrenews.startedBy w hlt
    rw [hsel]
    omega
  · intro hlt
    rw [hv, hw] at hlt
    have hbefore := hf.launched hlt
    rw [hw, hpump, hsel]
    omega
  · rw [hsel]
    exact hf.age

theorem Fifo.advance (hf : Fifo cfg W s) (hcfg : cfg.sampler = .weightFifo W)
    (hp : Paced cfg s) (ht : Totals cfg s) (hsync : s.train ≠ .syncing)
    (htrained : cfg.numPromptsPerStep * (s.trainerVersion + 1) ≤ s.selected.length) :
    ∀ x ∈ live s, s.trainerVersion + 1 ≤ x.startWeight + W := by
  intro x hx
  by_contra hlate
  have hwindow := hf.window x hx
  have hversion : s.trainerVersion = x.startWeight + W := by omega
  have hall : startedBy x.startWeight (s.selected.map Prod.snd) = s.selected.length := by
    rw [startedBy_eq_length, List.length_map]
    intro y hy
    obtain ⟨vx, hvx, rfl⟩ := List.mem_map.mp hy
    exact hf.order x hx vx hvx
  have hpos : 0 < startedBy x.startWeight (live s) :=
    List.countP_pos_iff.mpr ⟨x, hx, by simp⟩
  rcases Nat.lt_or_ge x.startWeight s.rm.weightVersion with hlt | hge
  · have hearly := hf.early x.startWeight hlt
    rw [hall, ← hversion] at hearly
    omega
  · have hweight := (hp.synced hsync).2
    obtain rfl : W = 0 := by
      have hle := hf.weights x hx
      omega
    have houtstanding := ht.admitted
    have hcursor := ht.cursor
    have hpeak : Sampler.peakWindow cfg.sampler = 0 := by
      rw [hcfg]
      rfl
    rw [hpeak] at hcursor
    have hbound : (groups s : ℤ) ≤ cfg.numPromptsPerStep * (s.trainerVersion + 1) :=
      houtstanding.trans (mul_le_mul_of_nonneg_left (by omega) (Int.natCast_nonneg _))
    have hnat : groups s ≤ cfg.numPromptsPerStep * (s.trainerVersion + 1) := by
      exact_mod_cast hbound
    have hlive := length_live_le s
    have hsome := startedBy_le_length x.startWeight (live s)
    simp only [groups] at hnat
    omega

theorem startWeight_le_of_eligible {x y : Slot} {version : ℕ} {slots : List Slot}
    {sampler : Sampler} (hcfg : sampler.config = .weightFifo W)
    (hx : sampler.eligible slots version x = true) (hy : y ∈ slots)
    (hyv : version ≤ y.startWeight + W ∧ y.startWeight ≤ version) :
    x.startWeight ≤ y.startWeight ∧ x.startWeight ≤ version ∧ version ≤ x.startWeight + W := by
  unfold Sampler.eligible at hx
  rw [hcfg] at hx
  simp only at hx
  cases hmin : (Sampler.inWindow W version slots).min? with
  | none =>
    rw [hmin] at hx
    cases hx
  | some w =>
    rw [hmin] at hx
    simp only [Bool.and_eq_true, decide_eq_true_eq] at hx
    obtain ⟨hmem, hle⟩ := List.min?_eq_some_iff.mp hmin
    have hwindow := (List.mem_filter.mp hmem).2
    simp only [decide_eq_true_eq] at hwindow
    have hymem : y.startWeight ∈ Sampler.inWindow W version slots := by
      refine List.mem_filter.mpr ⟨List.mem_map_of_mem hy, ?_⟩
      simp only [decide_eq_true_eq]
      omega
    have hley := hle _ hymem
    omega

theorem Fifo.select (hf : Fifo cfg W s) (hcfg : cfg.sampler = .weightFifo W) (hs : Sound cfg s)
    (hp : Paced cfg s) {chunk : List Slot} {rm : RolloutManager.State ρ}
    (hch : Selects cfg s chunk rm) (hsync : s.train ≠ .syncing)
    (hrm : s'.rm = rm) (htasks : s'.tasks = s.tasks) (hv : s'.trainerVersion = s.trainerVersion)
    (hsel : s'.selected = s.selected ++ chunk.map fun x ↦ (s.trainerVersion, x)) :
    Fifo cfg W s' := by
  have hweight := (hp.synced hsync).2
  have hw : s'.rm.weightVersion = s.rm.weightVersion := hrm ▸ hch.weightVersion
  have hlive : (live s).Perm (chunk ++ live s') := by
    rw [live, live, hrm, htasks, ← List.append_assoc]
    exact hch.ready.append_right _
  have hmem : ∀ x ∈ live s', x ∈ live s := fun x hx ↦
    hlive.mem_iff.mpr (List.mem_append_right _ hx)
  -- every slot is in the window, so the chunk is no newer than any of them
  have holdest : ∀ x ∈ chunk, ∀ y ∈ live s, x.startWeight ≤ y.startWeight ∧
      x.startWeight ≤ s.trainerVersion ∧ s.trainerVersion ≤ x.startWeight + W := by
    intro x hx y hy
    have hconfig : s.sampler.config = .weightFifo W := hp.config.trans hcfg
    have hle := hf.weights y hy
    exact startWeight_le_of_eligible hconfig (hch.eligible x hx)
      ((slots_perm_live hs).mem_iff.mpr hy) ⟨hf.window y hy, by omega⟩
  have hchunk : ∀ x ∈ chunk, x ∈ live s := fun x hx ↦
    hlive.mem_iff.mpr (List.mem_append_left _ hx)
  have hselected : ∀ vx ∈ s'.selected, vx ∈ s.selected ∨
      ∃ x ∈ chunk, vx = (s.trainerVersion, x) := by
    intro vx hvx
    rw [hsel] at hvx
    rcases List.mem_append.mp hvx with hvx | hvx
    · exact .inl hvx
    · obtain ⟨x, hx, rfl⟩ := List.mem_map.mp hvx
      exact .inr ⟨x, hx, rfl⟩
  refine ⟨?_, ?_, ?_, ?_, ?_, ?_, ?_⟩
  · rw [hw]
    exact fun x hx ↦ hf.weights x (hmem x hx)
  · intro vx hvx
    rw [hw]
    rcases hselected vx hvx with hvx | ⟨x, hx, rfl⟩
    · exact hf.trainedWeights vx hvx
    · exact hf.weights x (hchunk x hx)
  · intro y hy vx hvx
    rcases hselected vx hvx with hvx | ⟨x, hx, rfl⟩
    · exact hf.order y (hmem y hy) vx hvx
    · exact (holdest x hx y (hmem y hy)).1
  · rw [hv]
    exact fun x hx ↦ hf.window x (hmem x hx)
  · intro w hlt
    have hbefore := hf.early w (hw ▸ hlt)
    have hsplit := startedBy_perm (w := w) hlive
    have hmap : s'.selected.map Prod.snd = s.selected.map Prod.snd ++ chunk := by
      rw [hsel, List.map_append, List.map_map]
      simp
    rw [startedBy_append] at hsplit
    rw [hmap, startedBy_append]
    omega
  · intro hlt
    rw [hv, hw] at hlt
    omega
  · intro vx hvx
    rcases hselected vx hvx with hvx | ⟨x, hx, rfl⟩
    · exact hf.age vx hvx
    · exact (holdest x hx x (hchunk x hx)).2

theorem Fifo.not_stale (hf : Fifo cfg W s) (hcfg : cfg.sampler = .weightFifo W)
    (hp : Paced cfg s) {x : Slot} (hx : x ∈ live s) :
    s.sampler.stale s.trainerVersion x = false := by
  have hppo : cfg.isPpo = false := by
    by_contra hne
    have hstamps := (cfg.ppo (by simpa using hne)).1
    rw [hcfg] at hstamps
    cases hstamps
  have hsteady : s.sampler.gateWindow = W := by
    rw [hp.steady (by simp [policyStart, hppo]), hcfg]
    rfl
  have hconfig : s.sampler.config = .weightFifo W := hp.config.trans hcfg
  have hwindow := hf.window x hx
  have hnot : ¬ x.startWeight < s.trainerVersion - W := by omega
  simp only [Sampler.stale, hconfig, Sampler.evictionWindow, hsteady, hnot, decide_false,
    Bool.false_and]

theorem policyStart_eq_zero (hcfg : cfg.sampler = .weightFifo W) : policyStart cfg = 0 := by
  have hppo : cfg.isPpo = false := by
    by_contra hne
    have hstamps := (cfg.ppo (by simpa using hne)).1
    rw [hcfg] at hstamps
    cases hstamps
  simp [policyStart, hppo]

theorem held_flagged {tasks : List (Task ρ)} (h : Flagged s tasks) :
    (tasks.flatMap fun t ↦ t.held.toList) = s.tasks.flatMap fun t ↦ t.held.toList := by
  obtain ⟨f, rfl⟩ := h
  rw [List.flatMap_map]
  congr 1
  funext t
  split_ifs <;> rfl

theorem Fifo.steps {e : Event ρ} (hcfg : cfg.sampler = .weightFifo W) (hk : KeepsPrompts cfg)
    (hs : Sound cfg s) (hp : Paced cfg s) (ht : Totals cfg s) (hf : Fifo cfg W s)
    (hok : WholeBatches cfg s e) (ht' : Totals cfg s')
    (h : Steps cfg s e s') : Fifo cfg W s' := by
  have hlag : s.rm.weightVersion < s.trainerVersion → s.rolloutPermitted = false := by
    intro hlt
    rcases hp.weights with ⟨-, hsync⟩ | ⟨-, hperm, -⟩
    · omega
    · exact hperm
  cases h with
  | diverted n _ _ => exact hf.keep (.refl _) rfl rfl rfl fun _ ↦ le_rfl
  | pulled n _ _ =>
    exact hf.keep (.refl _) rfl rfl rfl fun _ ↦ Nat.add_le_add_left (Nat.zero_le _) _
  | settling _ =>
    exact hf.keep (.refl _) rfl rfl rfl fun _ ↦ Nat.add_le_add_left (Nat.zero_le _) _
  | admitted prompts _ _ =>
    refine hf.keep (.refl _) rfl rfl rfl fun _ ↦ ?_
    simp only [admitBatch, launchable_launchNext]
    omega
  | acquiredBuffer prompts target _ _ =>
    refine hf.keep (.refl _) rfl rfl rfl fun _ ↦ ?_
    have hzero : (PumpPhase.launching prompts target .sem).launchable = 0 := by
      cases prompts <;> rfl
    simp only [hzero]
    omega
  | acquiredSem prompts target _ _ =>
    refine hf.keep (.refl _) rfl rfl rfl fun hlt ↦ ?_
    have hzero : (PumpPhase.launching prompts target (.permitted false)).launchable = 0 := by
      cases prompts <;> rfl
    simp only [hlag hlt, hzero]
    omega
  | launched prompt rest target hpump =>
    refine hf.keep ?_ rfl rfl rfl fun _ ↦ ?_
    · simp only [live, List.flatMap_append, List.flatMap_singleton, Task.held,
        Option.toList_none, List.append_nil]
      exact .refl _
    · have hone : s.pump.launchable = 1 := by
        rw [hpump]
        rfl
      simp only [List.length_append, List.length_singleton, launchable_launchNext, hone]
      omega
  | settled pump draining exhausted _ _ hphase =>
    refine hf.keep (.refl _) rfl rfl rfl fun _ ↦ ?_
    have hzero : pump.launchable = 0 := by
      rcases hphase with ⟨rfl, _⟩ | ⟨rfl, _⟩ <;> rfl
    simp only [hzero]
    omega
  | drained _ _ _ =>
    exact hf.keep (.refl _) rfl rfl rfl fun _ ↦ Nat.add_le_add_left (Nat.zero_le _) _
  | turn i t hi hturn _ => exact hf.turn hk hp ht hi hturn
  | flagged i t _ hi =>
    refine hf.keep ?_ rfl rfl rfl fun _ ↦ ?_
    · have hset : ((s.tasks.set i { t with cancelRequested := true }).flatMap
          fun t ↦ t.held.toList).Perm (t.held.toList ++
            (s.tasks.eraseIdx i).flatMap fun t ↦ t.held.toList) :=
        Pool.flatMap_set_perm (fun t : Task ρ ↦ t.held.toList) hi
      exact (hset.trans (Pool.flatMap_perm (fun t : Task ρ ↦ t.held.toList) hi).symm).append_left _
    · simp only [List.length_set]
      exact le_rfl
  | leaked i t hi hheld _ _ =>
    refine hf.keep ?_ rfl rfl rfl fun _ ↦ ?_
    · have hperm := live_perm hi
      rw [hheld, Option.toList_none, List.nil_append] at hperm
      exact hperm.symm
    · have hle := List.length_eraseIdx_le s.tasks i
      simp only [endTask]
      omega
  | launchCancelled prompts target stage _ _ =>
    exact hf.keep (.refl _) rfl rfl rfl fun _ ↦ Nat.add_le_add_left (Nat.zero_le _) _
  | evicts gone rm ids htrain hev hne =>
    -- what is evicted would be live and stale
    obtain ⟨x, hx⟩ := List.exists_mem_of_length_pos (Nat.pos_of_ne_zero hne)
    have hlive : x ∈ live s :=
      List.mem_append_left _ (hev.ready.mem_iff.mpr (List.mem_append_left _ hx))
    have hfresh := hf.not_stale hcfg hp hlive
    rw [hev.stale x hx] at hfresh
    cases hfresh
  | waits dp phase stopping _ _ => exact hf.keep (.refl _) rfl rfl rfl fun _ ↦ le_rfl
  | selects chunk rm hsel _ hch =>
    refine hf.select hcfg hs hp hch ?_ rfl rfl rfl rfl
    intro hsync
    rw [hsync] at hsel
    cases hsel
  | trained chunk dp phase stopping opened _ _ =>
    exact hf.keep (.refl _) rfl rfl rfl fun _ ↦ le_rfl
  | finished _ _ _ => exact hf.keep (.refl _) rfl rfl rfl fun _ ↦ le_rfl
  | closed tasks htrain _ hflag _ =>
    have hsync : s.train ≠ .syncing := by simp [htrain]
    have hweight := (hp.synced hsync).2
    have hwindow := hf.advance hcfg hp ht hsync ht'.trained
    have hlive : live { advanceVersion s with
        rolloutPermitted := false, train := .syncing, tasks := tasks } = live s := by
      simp only [live, advanceVersion, held_flagged hflag]
    refine ⟨hlive ▸ hf.weights, hf.trainedWeights, hlive ▸ hf.order, hlive ▸ hwindow,
      hlive ▸ hf.early, fun _ ↦ ?_, hf.age⟩
    obtain ⟨f, rfl⟩ := hflag
    have hcursor := ht.cursor
    have hpeak : Sampler.peakWindow cfg.sampler = W := by
      rw [hcfg]
      rfl
    rw [hpeak] at hcursor
    have hbound : (groups s : ℤ) ≤ cfg.numPromptsPerStep * (s.trainerVersion + W + 1) :=
      ht.admitted.trans (mul_le_mul_of_nonneg_left (by omega) (Int.natCast_nonneg _))
    have hnat : groups s ≤ cfg.numPromptsPerStep * (s.trainerVersion + W + 1) := by
      exact_mod_cast hbound
    have hlaunchable := launchable_le_unlaunched s.pump
    simp only [groups] at hnat
    simp only [advanceVersion, List.length_map, hweight]
    omega
  | closedFrozen _ hfrozen =>
    rw [policyStart_eq_zero hcfg] at hfrozen
    exact absurd hfrozen (Nat.not_lt_zero _)
  | synced htrain =>
    have hlive : live (settleStep cfg (permit s)) = live s := by
      simp only [live, settleStep, permit, List.flatMap_map, (Task.held_granted _).1]
      rfl
    rcases hp.weights with ⟨-, hsync⟩ | ⟨-, -, hversion⟩
    · exact hf.keep (.of_eq hlive) rfl rfl hsync.symm fun hlt ↦ absurd hsync hlt.ne
    have hlt : s.rm.weightVersion < s.trainerVersion := by omega
    refine ⟨?_, ?_, hlive ▸ hf.order, hlive ▸ hf.window, ?_, ?_, hf.age⟩
    · rw [hlive]
      exact fun x hx ↦ (hf.weights x hx).trans hlt.le
    · exact fun vx hvx ↦ (hf.trainedWeights vx hvx).trans hlt.le
    · intro w hw
      rw [hlive]
      rcases Nat.lt_or_ge w s.rm.weightVersion with hold | hnew
      · exact hf.early w hold
      · obtain rfl : w = s.rm.weightVersion := by
          simp only [settleStep, permit] at hw
          omega
        have hlaunched := hf.launched hlt
        have hlen := length_live_le s
        have h₁ := startedBy_le_length s.rm.weightVersion (live s)
        have h₂ := startedBy_le_length s.rm.weightVersion (s.selected.map Prod.snd)
        rw [List.length_map] at h₂
        simp only [settleStep, permit]
        omega
    · intro h
      exact absurd h (lt_irrefl _)
  | saving _ _ => exact hf.keep (.refl _) rfl rfl rfl fun _ ↦ le_rfl
  | fetching _ _ _ => exact hf.keep (.refl _) rfl rfl rfl fun _ ↦ le_rfl
  | begins _ _ _ _ _ _ _ _ => exact hf.keep (.refl _) rfl rfl rfl fun _ ↦ le_rfl
  | failed => exact hf.keep (.refl _) rfl rfl rfl fun _ ↦ le_rfl
  | restarted _ _ _ _ _ => exact hok.elim
  | restored g rest n reserve htrain =>
    have hstart := ht.starting (by rw [htrain]; rfl)
    rw [htrain] at hstart
    cases hstart
  | acquiredRestored n reserve htrain _ => exact hf.keep (.refl _) rfl rfl rfl fun _ ↦ le_rfl
  | started _ _ _ _ _ _ _ _ =>
    exact hf.keep (.refl _) rfl rfl rfl fun _ ↦ Nat.add_le_add_left (Nat.zero_le _) _

theorem fifo_fresh (cfg : Config) (W : ℕ) : Fifo cfg W (fresh cfg : State ρ) where
  weights := by rintro x ⟨⟩
  trainedWeights := by rintro x ⟨⟩
  order := by rintro x ⟨⟩
  window := by rintro x ⟨⟩
  early := fun w h ↦ absurd h (Nat.not_lt_zero w)
  launched := fun h ↦ absurd h (lt_irrefl _)
  age := by rintro x ⟨⟩

/-- A `WeightFifoSampler` discards nothing: within one process no group is ever stale, and
each is trained at most `W` versions after the weights it was started at. -/
theorem weight_fifo_discards_nothing (cfg : Config) (hcfg : cfg.sampler = .weightFifo W)
    (s : State ρ) (h : ReachableBy (step cfg) (Initial cfg) (WholeBatches cfg) s) :
    s.sampler.staleIdxs s.rm.slots s.trainerVersion = [] ∧
      (∀ x ∈ s.rm.slots, s.trainerVersion ≤ x.startWeight + W) ∧
      ∀ vx ∈ s.selected, vx.2.startWeight ≤ vx.1 ∧ vx.1 ≤ vx.2.startWeight + W := by
  have hg : Gated cfg := fun w b hwindowed ↦ nomatch hcfg.symm.trans hwindowed
  have hk : KeepsPrompts cfg := cfg.unstamped (by rw [hcfg]; rfl)
  obtain ⟨hs, hp, -, -, hf⟩ := invariant_of_steps
    (I := fun s ↦ Paced cfg s ∧ Clocked cfg s ∧ Totals cfg s ∧ Fifo cfg W s)
    ⟨paced_fresh cfg, clocked_fresh cfg, totals_fresh cfg, fifo_fresh cfg W⟩ trivial
    (fun s e s' hs ⟨hp, hc, ht, hf⟩ ho hsteps ↦
      have ht' := ht.steps hg hk hp hc ho hsteps
      ⟨hp.steps_kept hsteps, hc.steps_kept hs hsteps, ht',
        hf.steps hcfg hk hs hp ht ho ht' hsteps⟩) h
  have hmem : ∀ x ∈ s.rm.slots, x ∈ live s := fun x hx ↦ (slots_perm_live hs).mem_iff.mp hx
  refine ⟨?_, fun x hx ↦ hf.window x (hmem x hx), hf.age⟩
  obtain ⟨-, -, -, hlength⟩ := s.sampler.staleIdxs_spec s.rm.slots s.trainerVersion
  refine List.length_eq_zero_iff.mp (hlength.trans (List.countP_eq_zero.mpr fun x hx ↦ ?_))
  simp [hf.not_stale hcfg hp (hmem x hx)]

theorem fifoPrompt_fraction_pos : (0 : ℚ) < 1 := one_pos

def fifoPrompt : Config where
  buffer := ⟨"rollout", false, none⟩
  policy := ⟨1, 1, 0, 0, Nat.one_pos, Nat.one_pos⟩
  sampler := .weightFifo 1
  numPromptsPerStep := 1
  numGenerationsPerPrompt := 1
  maxNumSteps := 4
  maxBufferedRollouts := 2
  maxInflightPrompts := 2
  minGroupsForStreamingTrain := 1
  isPpo := false
  policyTrainingStartStep := 0
  useNemoGym := false
  replace := false
  maxReplacementAttempts := 0
  replacementReservePrompts := 0
  minStepBatchFraction := 1
  groups_le := Nat.one_pos
  fraction_pos := fifoPrompt_fraction_pos
  capacity := by decide
  unstamped := by decide
  warmup := by decide
  ppo := by decide

/-- Two groups started at the first weights, one of which is trained on. -/
def fifoStart : List (Event Unit) :=
  [.pull 1, .admitted] ++ generated 0 ++ [.pull 1, .admitted] ++ generated 0 ++
  [.poll, .trained true, .closeStep, .synced]

theorem fifoStart_ends :
    (execBy (step fifoPrompt) (WholeBatches fifoPrompt) (init fifoPrompt) fifoStart).isSome := by
  decide +kernel

def fifoStarted : State Unit :=
  (execBy (step fifoPrompt) (WholeBatches fifoPrompt) (init fifoPrompt) fifoStart).get
    fifoStart_ends

theorem weight_fifo_discards_nothing_start :
    fifoStarted.sampler.staleIdxs fifoStarted.rm.slots fifoStarted.trainerVersion = [] ∧
      (∀ x ∈ fifoStarted.rm.slots, fifoStarted.trainerVersion ≤ x.startWeight + 1) ∧
      ∀ vx ∈ fifoStarted.selected, vx.2.startWeight ≤ vx.1 ∧ vx.1 ≤ vx.2.startWeight + 1 :=
  weight_fifo_discards_nothing fifoPrompt rfl fifoStarted
    (.run (initial_init fifoPrompt) fifoStart fifoStart_ends)

/-- The other group is saved and restored, and two more are started beside it. -/
def fifoResumed : List (Event Unit) :=
  fifoStart ++ [.endStep true false, .snapshot, .saved, .restart 0, .restored, .acquireRestored,
    .startPumps, .pull 1, .admitted] ++ generated 0 ++ [.pull 1, .admitted, .poll] ++
  generated 0 ++ [.trained true, .closeStep, .synced, .endStep false false,
    .poll, .trained true, .closeStep, .synced, .endStep false false]

theorem fifoResumed_ends : (exec (step fifoPrompt) (init fifoPrompt) fifoResumed).isSome := by
  decide +kernel

/-- A resumed process may discard groups: those it has restored come on top of those its gate
lets in. -/
theorem weight_fifo_discards_resumed : ∃ s : State Unit,
    Reachable (step fifoPrompt) (Initial fifoPrompt) s ∧
      s.sampler.staleIdxs s.rm.slots s.trainerVersion ≠ [] := by
  refine ⟨_, .run (initial_init fifoPrompt) fifoResumed fifoResumed_ends, ?_⟩
  decide +kernel

end Fifo

end NemoRL.SingleController
