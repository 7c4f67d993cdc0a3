import Mathlib
import NemoRL.Utils.CheckpointSound

namespace NemoRL.Utils.CheckpointDisk

open Foundations.Directories Foundations.Transition

section Recovery

variable {α β : Type} [DecidableEq β] [LinearOrder α] [BoundedOrder α] {m : CheckpointManager}
  {s t : State α β} {d : CheckpointDir α β} {c : Save α β}

def NoCrash (_ : State α β) : Event α β → Prop
  | .crash => False
  | _ => True

abbrev Continues (m : CheckpointManager) (s t : State α β) : Prop :=
  ReachableBy (step m) (· = s) NoCrash t

theorem Continues.next (h : Continues m s t) (thread : Thread) {u : State α β}
    (hu : step m t (.next thread) = some u) : Continues m s u :=
  h.step (e := .next thread) trivial hu

/-- No thread is at work on a save, and no overwrite was left unfinished. -/
structure Quiet (s : State α β) : Prop where
  writer : s.writer = .idle
  finalizer : s.finalizer = .idle
  leftover : ∀ n, s.disk.listdir (.old n) = ∅

theorem Quiet.exists_making (hs : Quiet s) (c : Save α β) :
    ∃ d : CheckpointDir α β, Continues m s { s with disk := d, writer := .making c } ∧
      ∀ p, p ≠ .tmp c.step → d.lookup p = s.disk.lookup p := by
  have hinit : step m s (.initTmpCheckpoint c) = if .tmp c.step ∈ s.disk then
      some { s with writer := .clearing c } else some { s with writer := .making c } := by
    simp [step, initTmpCheckpoint, hs.writer, hs.finalizer, Finalizer.pending]
  by_cases hstale : .tmp c.step ∈ s.disk
  · rw [if_pos hstale] at hinit
    obtain ⟨x, hx⟩ := Finmap.mem_iff.mp hstale
    obtain ⟨d, hempty, hd, hframe⟩ := Disk.exists_emptied (step m) NoCrash
      (fun d ↦ { s with disk := d, writer := .clearing c }) (.unlink .writer)
      (fun d e he ↦ ⟨trivial, by simp [step, rmtree, he]⟩) hx
    refine ⟨d.erase (.tmp c.step), ?_, fun p hp ↦ (Finmap.lookup_erase_ne hp).trans (hframe p hp)⟩
    have hclearing : Continues m s { s with writer := .clearing c } := .single (e := .initTmpCheckpoint c) trivial hinit
    refine Continues.next (hclearing.trans hempty) .writer ?_
    simp [step, Writer.next, Disk.listdir_of_lookup hd]
  · rw [if_neg hstale] at hinit
    exact ⟨s.disk, .single (e := .initTmpCheckpoint c) trivial hinit, fun _ _ ↦ rfl⟩

theorem Quiet.exists_saving (hs : Quiet s) (c : Save α β) :
    ∃ d : CheckpointDir α β, Continues m s { s with disk := d, writer := .saving c } ∧
      d.lookup (.tmp c.step) =
        some ⟨c, insert .trainingInfo (if c.runConfig then {.config} else ∅)⟩ ∧
      ∀ p, p ≠ .tmp c.step → d.lookup p = s.disk.lookup p := by
  obtain ⟨d, hmaking, hd⟩ := hs.exists_making (m := m) c
  have hmade : Continues m s { s with
      disk := d.mkdir (.tmp c.step) c, writer := .savingInfo c } := hmaking.next .writer rfl
  have hinfo : Continues m s { s with
      disk := (d.mkdir (.tmp c.step) c).write (.tmp c.step) .trainingInfo
      writer := if c.runConfig then .savingConfig c else .saving c } := hmade.next .writer rfl
  have hfirst : ((d.mkdir (.tmp c.step) c).write (.tmp c.step) .trainingInfo).lookup
      (.tmp c.step) = some ⟨c, {.trainingInfo}⟩ :=
    Disk.lookup_revise (Disk.lookup_mkdir _ _ _)
  have hframe : ∀ p, p ≠ .tmp c.step → ((d.mkdir (.tmp c.step) c).write (.tmp c.step)
      .trainingInfo).lookup p = s.disk.lookup p := fun p hp ↦
    (Disk.lookup_revise_of_ne hp).trans ((Disk.lookup_mkdir_of_ne _ _ hp).trans (hd p hp))
  cases hconfig : c.runConfig with
  | true =>
    rw [hconfig] at hinfo
    have hsaving := hinfo.next .writer rfl
    refine ⟨_, hsaving, ?_, fun p hp ↦ (Disk.lookup_revise_of_ne hp).trans (hframe p hp)⟩
    rw [Disk.write, Disk.lookup_revise hfirst, if_pos rfl, Finset.pair_comm]
  | false =>
    rw [hconfig] at hinfo
    exact ⟨_, hinfo, hfirst, hframe⟩

theorem Quiet.exists_checking (hs : Quiet s) (c : Save α β) :
    ∃ d : CheckpointDir α β,
      Continues m s { s with disk := d, writer := .idle, finalizer := .checking c.step } ∧
      d.lookup (.tmp c.step) = some ⟨c, c.entries⟩ ∧
      ∀ p, p ≠ .tmp c.step → d.lookup p = s.disk.lookup p := by
  obtain ⟨d₀, hsaving, hinfo, hd₀⟩ := hs.exists_saving (m := m) c
  obtain ⟨d, hfilled, hall, hd⟩ := Disk.exists_filled (step m) NoCrash
    (fun d ↦ { s with disk := d, writer := .saving c }) .file .write (F := c.files)
    (fun d f hf ↦ ⟨trivial, by simp [step, hf]⟩) hinfo
  have hentries : c.files.image Entry.file ∪
      insert .trainingInfo (if c.runConfig then {.config} else ∅) = c.entries := by
    rw [Save.entries, Finset.union_insert, Finset.union_comm]
  rw [hentries] at hall
  have hbegun : Continues m s { s with disk := d, writer := .idle, finalizer := .waiting c } := by
    refine Continues.next (hsaving.trans hfilled) .writer ?_
    simp [step, Writer.next, hs.finalizer]
  refine ⟨d, hbegun.next .finalizer ?_, hall, fun p hp ↦ (hd p hp).trans (hd₀ p hp)⟩
  simp [step, Finalizer.next, Disk.listdir_of_lookup hall]

omit [LinearOrder α] [BoundedOrder α] in
theorem rename_free {n : ℕ} {x : Dir (Save α β) (Entry β)} (hx : d.lookup (.tmp n) = some x)
    (hfree : .step n ∉ d) : ∃ d' : CheckpointDir α β,
      d.rename (.tmp n) (.step n) = some d' ∧ d'.lookup (.step n) = some x ∧
        ∀ k, d'.lookup (.old k) = d.lookup (.old k) := by
  refine ⟨_, Disk.rename_of_lookup hx (Disk.listdir_of_notMem hfree), Finmap.lookup_insert _,
    fun k ↦ ?_⟩
  rw [Finmap.lookup_insert_of_ne _ DirName.noConfusion, Finmap.lookup_erase_ne DirName.noConfusion]

theorem exists_overwritten {n : ℕ} {x y : Dir (Save α β) (Entry β)}
    (hx : d.lookup (.tmp n) = some x) (hy : d.lookup (.step n) = some y)
    (hold : ∀ k, d.listdir (.old k) = ∅) :
    ∃ d' : CheckpointDir α β,
      Continues m { s with disk := d, finalizer := .movingOld n } { s with
        disk := d', finalizer := .idle, queued := s.queued + 1, finalized := n :: s.finalized } ∧
      d'.lookup (.step n) = some x ∧ ∀ k, d'.listdir (.old k) = ∅ := by
  set d₁ : CheckpointDir α β := (d.erase (.step n)).insert (.old n) y with hd₁
  have hgap : Continues m { s with disk := d, finalizer := .movingOld n }
      { s with disk := d₁, finalizer := .movingNew n true } := by
    refine .single (e := .next .finalizer) trivial ?_
    simp [step, Finalizer.next, Disk.rename_of_lookup hy (hold n), hd₁]
  have hx₁ : d₁.lookup (.tmp n) = some x := by
    rw [hd₁, Finmap.lookup_insert_of_ne _ DirName.noConfusion,
      Finmap.lookup_erase_ne DirName.noConfusion, hx]
  have hfree : .step n ∉ d₁ := by simp [hd₁, Finmap.mem_insert, Finmap.mem_erase]
  obtain ⟨d₂, hrename, hplace, hold₂⟩ := rename_free hx₁ hfree
  have hrenamed : Continues m { s with disk := d, finalizer := .movingOld n } { s with
      disk := d₂, finalizer := .removingOld n, finalized := n :: s.finalized } := by
    refine hgap.next .finalizer ?_
    simp [step, Finalizer.next, hrename]
  -- `rmtree` of the old checkpoint
  obtain ⟨d₃, hemptied, hempty, hd₃⟩ := Disk.exists_emptied (step m) NoCrash
    (fun d ↦ { s with disk := d, finalizer := .removingOld n, finalized := n :: s.finalized })
    (.unlink .finalizer) (fun d e he ↦ ⟨trivial, by simp [step, rmtree, he]⟩)
    ((hold₂ n).trans (Finmap.lookup_insert _))
  refine ⟨d₃.erase (.old n), Continues.next (hrenamed.trans hemptied) .finalizer ?_, ?_,
    fun k ↦ ?_⟩
  · simp [step, Finalizer.next, submit, Finmap.mem_of_lookup_eq_some hempty,
      Disk.listdir_of_lookup hempty]
  · exact (Finmap.lookup_erase_ne DirName.noConfusion).trans
      ((hd₃ _ DirName.noConfusion).trans hplace)
  · by_cases hk : k = n
    · exact hk ▸ Disk.listdir_of_notMem (by simp [Finmap.mem_erase])
    · have hne : DirName.old k ≠ .old n := fun h ↦ hk (DirName.old.inj h)
      have hsame : (d₃.erase (.old n)).lookup (.old k) = d.lookup (.old k) := by
        rw [Finmap.lookup_erase_ne hne, hd₃ _ hne, hold₂, hd₁, Finmap.lookup_insert_of_ne _ hne,
          Finmap.lookup_erase_ne DirName.noConfusion]
      exact (Disk.listdir_congr hsame).trans (hold k)

/-- A save without a crash ends with its checkpoint in place, and again nothing is left over. -/
theorem Quiet.exists_finalized (hs : Quiet s) (c : Save α β) :
    ∃ t, Continues m s t ∧ Quiet t ∧ t.finalized = c.step :: s.finalized ∧
      t.disk.lookup (.step c.step) = some ⟨c, c.entries⟩ := by
  obtain ⟨d, hchecking, hnew, hd⟩ := hs.exists_checking (m := m) c
  have hold : ∀ n, d.listdir (.old n) = ∅ := fun n ↦
    (Disk.listdir_congr (hd _ DirName.noConfusion)).trans (hs.leftover n)
  by_cases hthere : .step c.step ∈ d
  · obtain ⟨y, hy⟩ := Finmap.mem_iff.mp hthere
    have hmoving : Continues m s { s with
        disk := d, writer := .idle, finalizer := .movingOld c.step } := by
      refine hchecking.next .finalizer ?_
      simp [step, Finalizer.next, hthere]
    obtain ⟨d', hdone, hplace, hold'⟩ :=
      exists_overwritten (m := m) (s := { s with writer := .idle }) hnew hy hold
    exact ⟨_, hmoving.trans hdone, ⟨rfl, rfl, hold'⟩, rfl, hplace⟩
  · have hmoving : Continues m s { s with
        disk := d, writer := .idle, finalizer := .movingNew c.step false } := by
      refine hchecking.next .finalizer ?_
      simp [step, Finalizer.next, hthere]
    obtain ⟨d', hrename, hplace, hold'⟩ := rename_free hnew hthere
    have hdone : Continues m s { s with
        disk := d', writer := .idle, finalizer := .idle
        queued := s.queued + 1, finalized := c.step :: s.finalized } := by
      refine hmoving.next .finalizer ?_
      simp [step, Finalizer.next, submit, hrename]
    exact ⟨_, hdone, ⟨rfl, rfl, fun n ↦ (Disk.listdir_congr (hold' n)).trans (hold n)⟩, rfl, hplace⟩

theorem Quiet.exists_run (hs : Quiet s) (cs : List (Save α β)) :
    ∃ t, Continues m s t ∧ Quiet t ∧ t.finalized = (cs.map Save.step).reverse ++ s.finalized ∧
      ∀ c ∈ cs.getLast?, t.disk.lookup (.step c.step) = some ⟨c, c.entries⟩ := by
  induction cs using List.reverseRecOn with
  | nil => exact ⟨s, .init rfl, hs, rfl, by rintro c ⟨⟩⟩
  | append_singleton cs c ih =>
    obtain ⟨u, hu, hquiet, hfinalized, _⟩ := ih
    obtain ⟨t, ht, hquiet, hrest, hplace⟩ := hquiet.exists_finalized (m := m) c
    refine ⟨t, hu.trans ht, hquiet, ?_, ?_⟩
    · rw [hrest, hfinalized, List.map_append, List.reverse_append]
      rfl
    · rw [List.getLast?_concat]
      rintro c' ⟨⟩
      exact hplace

def Finalizer.destination : Finalizer α β → Option DirName
  | movingOld n => some (.old n)
  | movingNew n _ => some (.step n)
  | _ => none

/-- What a crash has to leave behind: the latest checkpoint is complete and no older than any
that was finalized, and all later saves get through. -/
structure CrashSafe (m : CheckpointManager) (s : State α β) : Prop where
  latest : ∀ n ∈ s.finalized, ∃ latest x, getLatestCheckpointPath s.disk = some latest ∧
    n ≤ latest ∧ s.disk.lookup (.step latest) = some x ∧ Complete latest x
  saves : ∀ cs : List (Save α β), ∃ t, Continues m s t ∧
    t.finalized = (cs.map Save.step).reverse ++ s.finalized ∧
    ∀ c ∈ cs.getLast?, t.disk.lookup (.step c.step) = some ⟨c, c.entries⟩

def RenameBlocked (s : State α β) : Prop :=
  ∃ p ∈ s.finalizer.destination, (s.disk.listdir p).Nonempty

instance (s : State α β) : Decidable (RenameBlocked s) :=
  inferInstanceAs (Decidable (∃ p ∈ s.finalizer.destination, (s.disk.listdir p).Nonempty))

omit [LinearOrder α] [BoundedOrder α] in
theorem Sound.not_renameBlocked (hs : Sound s) : ¬ RenameBlocked s := by
  rintro ⟨p, hp, hfull⟩
  cases hf : s.finalizer with
  | movingOld n =>
    rw [hf] at hp
    obtain rfl := Option.some.inj hp
    have hleft := hs.leftover n hfull
    rw [hf] at hleft
    cases hleft
  | movingNew n swap =>
    rw [hf] at hp
    obtain rfl := Option.some.inj hp
    rw [Disk.listdir_of_notMem (hs.fresh n swap hf)] at hfull
    exact Finset.not_nonempty_empty hfull
  | _ =>
    rw [hf] at hp
    cases hp

omit [LinearOrder α] [BoundedOrder α] in
theorem exists_isLast {finalized : List ℕ} {n : ℕ} (hn : n ∈ finalized) :
    ∃ k, IsLast finalized k := by
  obtain ⟨k, hk⟩ := Option.isSome_iff_exists.mp
    (List.isSome_max?_of_ne_nil (List.ne_nil_of_mem hn))
  exact ⟨k, List.max?_eq_some_iff.mp hk⟩

omit [LinearOrder α] [BoundedOrder α] in
theorem Sound.getLatestCheckpointPath (hs : Sound s) {k : ℕ} (hk : IsLast s.finalized k)
    (hf : s.finalizer ≠ .movingNew k true) :
    ∃ x, getLatestCheckpointPath s.disk = some k ∧ s.disk.lookup (.step k) = some x ∧
      Complete k x := by
  obtain ⟨x, hx, hcomplete⟩ := hs.latest k hk hf
  have hmem : k ∈ stepDirs s.disk := mem_stepDirs.mpr (Finmap.mem_of_lookup_eq_some hx)
  refine ⟨x, ?_, hx, hcomplete⟩
  rw [CheckpointDisk.getLatestCheckpointPath, dif_pos ⟨k, hmem⟩]
  refine congrArg some (le_antisymm (Finset.max'_le _ _ _ fun j hj ↦ ?_) (Finset.le_max' _ _ hmem))
  exact hk.2 j (hs.named j (mem_stepDirs.mp hj))

end Recovery

section Theorem

variable {α β : Type} [DecidableEq β] [LinearOrder α] [BoundedOrder α] {m : CheckpointManager}
  {s : State α β}

theorem crash_safe (h : ReachableBy (step m) (· = .start) CrashesOutside s) :
    ¬ RenameBlocked s ∧
    ∀ t, CrashesOutside s .crash → step m s .crash = some t → CrashSafe m t := by
  have hs := sound_of_reachable h
  refine ⟨hs.not_renameBlocked, fun t hout ht ↦ ?_⟩
  have hsound : Sound t := hs.step hout ht
  obtain rfl := Option.some.inj ht
  have hquiet : Quiet { s with
      writer := .idle, finalizer := .idle, pruner := .idle, queued := 0 } := by
    refine ⟨rfl, rfl, fun n ↦ Finset.not_nonempty_iff_eq_empty.mp fun hn ↦ ?_⟩
    cases hsound.leftover n hn
  refine ⟨fun n hn ↦ ?_, fun cs ↦ ?_⟩
  · obtain ⟨k, hk⟩ := exists_isLast hn
    obtain ⟨x, hpath, hx, hcomplete⟩ := hsound.getLatestCheckpointPath hk (by rintro ⟨⟩)
    exact ⟨k, x, hpath, hk.2 n hn, hx, hcomplete⟩
  · obtain ⟨t, ht, _, hfinalized, hplace⟩ := hquiet.exists_run (m := m) cs
    exact ⟨t, ht, hfinalized, hplace⟩

end Theorem

section Runs

def latestOnly : CheckpointManager := ⟨none, true, some 1, 1, none, by decide⟩

def oneFile (step : ℕ) : Save (WithBot (WithTop ℕ)) Unit := ⟨step, [("loss", (3 : ℕ))], true, {()}⟩

def saveEvents (step : ℕ) : List (Event (WithBot (WithTop ℕ)) Unit) :=
  [.initTmpCheckpoint (oneFile step), .next .writer, .next .writer, .next .writer, .next .writer,
    .writeAsync (), .next .finalizer]

def renameEvents : List (Event (WithBot (WithTop ℕ)) Unit) := [.next .finalizer, .next .finalizer]

/-- Step 1 is overwritten, step 2 saved and step 1 half removed, while a save of step 3 is
under way. -/
def busyRun : List (Event (WithBot (WithTop ℕ)) Unit) :=
  saveEvents 1 ++ renameEvents ++ saveEvents 1 ++ renameEvents ++
  [.next .finalizer, .unlink .finalizer .config, .unlink .finalizer .trainingInfo,
    .unlink .finalizer (.file ()), .next .finalizer] ++
  saveEvents 2 ++ renameEvents ++
  [.list [2, 1], .next .pruner, .next .pruner, .next .pruner, .unlink .pruner .trainingInfo,
    .initTmpCheckpoint (oneFile 3), .next .writer, .next .writer]

theorem busyRun_ends :
    (execBy (step latestOnly) CrashesOutside .start busyRun).isSome := by
  decide

def busyState : State (WithBot (WithTop ℕ)) Unit :=
  (execBy (step latestOnly) CrashesOutside .start busyRun).get busyRun_ends

theorem busyState_reachable :
    ReachableBy (step latestOnly) (· = .start) CrashesOutside busyState :=
  .run (by rfl) busyRun busyRun_ends

theorem crash_safe_busyRun : busyState.finalized = [2, 1, 1] ∧
    ∃ t, step latestOnly busyState .crash = some t ∧ CrashSafe latestOnly t :=
  ⟨by decide, _, rfl,
    (crash_safe busyState_reachable).2 _ (by decide) rfl⟩

/-- Step 1 is saved twice, and the process ends between the two renames. -/
def gapRun : List (Event (WithBot (WithTop ℕ)) Unit) :=
  saveEvents 1 ++ renameEvents ++ saveEvents 1 ++ renameEvents

theorem gapRun_ends : (exec (step latestOnly) .start gapRun).isSome := by decide

def gapState : State (WithBot (WithTop ℕ)) Unit :=
  (exec (step latestOnly) .start gapRun).get gapRun_ends

theorem gapState_reachable : Reachable (step latestOnly) (· = .start) gapState :=
  .run (by rfl) gapRun gapRun_ends

/-- The process ends one operation later, and the next one saves step 1 again. -/
def blockedRun : List (Event (WithBot (WithTop ℕ)) Unit) :=
  gapRun ++ [.next .finalizer, .crash] ++ saveEvents 1 ++ [.next .finalizer]

theorem blockedRun_ends : (exec (step latestOnly) .start blockedRun).isSome := by decide

def blockedState : State (WithBot (WithTop ℕ)) Unit :=
  (exec (step latestOnly) .start blockedRun).get blockedRun_ends

theorem blockedState_reachable : Reachable (step latestOnly) (· = .start) blockedState :=
  .run (by rfl) blockedRun blockedRun_ends

/-- The first crash leaves no checkpoint under its own name, the second one an `old_step_1`
that the next save of step 1 does not get past. -/
theorem overwrite_not_crash_safe :
    (∃ s t : State (WithBot (WithTop ℕ)) Unit, Reachable (step latestOnly) (· = .start) s ∧
      step latestOnly s .crash = some t ∧ 1 ∈ t.finalized ∧ ¬ CrashSafe latestOnly t) ∧
    ∃ s t : State (WithBot (WithTop ℕ)) Unit, Reachable (step latestOnly) (· = .start) s ∧
      RenameBlocked s ∧ Finalizer.next s = some t ∧ t.finalizer = .failed 1 := by
  refine ⟨⟨gapState, _, gapState_reachable, rfl, by decide, fun h ↦ ?_⟩,
    ⟨blockedState, _, blockedState_reachable, by decide, rfl, rfl⟩⟩
  have hnone : getLatestCheckpointPath gapState.disk = none := by decide
  obtain ⟨latest, x, hpath, _⟩ := h.latest 1 (by decide)
  rw [hnone] at hpath
  cases hpath

end Runs

end NemoRL.Utils.CheckpointDisk
