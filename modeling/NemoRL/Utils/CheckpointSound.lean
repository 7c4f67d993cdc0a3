import Mathlib
import NemoRL.Utils.CheckpointDisk

namespace NemoRL.Utils

section Retention

variable {α : Type} [LinearOrder α] [BoundedOrder α] {m : CheckpointManager}
  {history : List (Checkpoint α)} {c : Checkpoint α}

theorem CheckpointManager.exists_later (hc : c ∈ history)
    (hgone : c ∉ m.removeOldCheckpoints true history) :
    ∃ k ∈ history.map Checkpoint.step, c.step < k := by
  have hmem : c.step ∈ history.map Checkpoint.step := List.mem_map_of_mem hc
  obtain ⟨latest, hlatest⟩ :=
    Option.isSome_iff_exists.mp (List.isSome_max?_of_ne_nil (List.ne_nil_of_mem hmem))
  obtain ⟨hin, hle⟩ := List.max?_eq_some_iff.mp hlatest
  refine ⟨latest, hin, lt_of_le_of_ne (hle _ hmem) fun heq ↦ hgone ?_⟩
  unfold removeOldCheckpoints
  split
  · exact hc
  · split
    · exact hc
    · simp only [List.mem_filter, hlatest, Option.getD_some, List.mem_append, decide_eq_true_eq,
        if_true]
      exact ⟨hc, .inl (.inl (List.mem_singleton.mpr heq))⟩

end Retention

namespace CheckpointDisk

open Foundations.Directories Foundations.Transition

section Invariant

variable {α β : Type} [DecidableEq β]

/-- The directory has everything that its save writes, and that save was of this step. -/
def Complete (step : ℕ) (x : Dir (Save α β) (Entry β)) : Prop :=
  x.tag.step = step ∧ x.entries = x.tag.entries

theorem Save.entries_nonempty (c : Save α β) : c.entries.Nonempty :=
  ⟨.trainingInfo, Finset.mem_insert_self _ _⟩

theorem Complete.nonempty {n : ℕ} {x : Dir (Save α β) (Entry β)} (h : Complete n x) :
    x.entries.Nonempty :=
  h.2 ▸ x.tag.entries_nonempty

def Writer.save? : Writer α β → Option (Save α β)
  | idle => none
  | clearing c | making c | savingInfo c | savingConfig c | saving c => some c

def Writer.made? : Writer α β → Option (Save α β)
  | idle | clearing _ | making _ => none
  | savingInfo c | savingConfig c | saving c => some c

def Finalizer.renames : Finalizer α β → Option ℕ
  | checking n | movingOld n | movingNew n _ => some n
  | idle | waiting _ | removingOld _ | failed _ => none

/-- The step whose old checkpoint may stand under `old_step_{step}`. -/
def Finalizer.overwrites : Finalizer α β → Option ℕ
  | movingNew n true | removingOld n | failed n => some n
  | _ => none

def Pruner.listed : Pruner α → List ℕ
  | loading dirs history => dirs ++ history.map Checkpoint.step
  | _ => []

def Pruner.paths : Pruner α → List ℕ
  | removing paths => paths
  | _ => []

/-- An overwrite has moved the old checkpoint away and not emptied it yet. -/
def MidOverwrite (s : State α β) : Prop :=
  ∃ n ∈ s.finalizer.overwrites, (s.disk.listdir (.old n)).Nonempty

instance (s : State α β) : Decidable (MidOverwrite s) :=
  inferInstanceAs (Decidable (∃ n ∈ s.finalizer.overwrites, (s.disk.listdir (.old n)).Nonempty))

def CrashesOutside (s : State α β) : Event α β → Prop
  | .crash => ¬ MidOverwrite s
  | _ => True

instance (s : State α β) : ∀ e, Decidable (CrashesOutside s e)
  | .crash => inferInstanceAs (Decidable (¬ MidOverwrite s))
  | .initTmpCheckpoint _ | .next _ | .unlink _ _ | .unlinkMoved _ | .write _ | .writeAsync _
  | .list _ | .abort _ => inferInstanceAs (Decidable True)

def IsLast (finalized : List ℕ) (n : ℕ) : Prop := n ∈ finalized ∧ ∀ k ∈ finalized, k ≤ n

structure Sound (s : State α β) : Prop where
  named : ∀ n, .step n ∈ s.disk → n ∈ s.finalized
  latest : ∀ n, IsLast s.finalized n → s.finalizer ≠ .movingNew n true →
    ∃ x, s.disk.lookup (.step n) = some x ∧ Complete n x
  held : ∀ n, IsLast s.finalized n → s.finalizer = .movingNew n true →
    (s.disk.listdir (.old n)).Nonempty
  made : ∀ c, s.writer.made? = some c ∨ s.finalizer = .waiting c →
    ∃ E, s.disk.lookup (.tmp c.step) = some ⟨c, E⟩
  ready : ∀ n, s.finalizer.renames = some n →
    ∃ x, s.disk.lookup (.tmp n) = some x ∧ Complete n x
  apart : ∀ c, s.writer.save? = some c → s.finalizer.pending ≠ some c.step
  fresh : ∀ n swap, s.finalizer = .movingNew n swap → .step n ∉ s.disk
  leftover : ∀ n, (s.disk.listdir (.old n)).Nonempty → s.finalizer.overwrites = some n
  listed : ∀ n ∈ s.pruner.listed, n ∈ s.finalized
  victims : ∀ n ∈ s.pruner.paths, ∃ k ∈ s.finalized, n < k

theorem Sound.start : Sound (.start : State α β) where
  named n h := absurd h Finmap.notMem_empty
  latest n h := absurd h.1 List.not_mem_nil
  held n h := absurd h.1 List.not_mem_nil
  made := by rintro c (h | h) <;> cases h
  ready n h := by cases h
  apart c h := by cases h
  fresh n swap h := by cases h
  leftover n h := by
    simp [State.start, Disk.listdir] at h
  listed n h := absurd h List.not_mem_nil
  victims n h := absurd h List.not_mem_nil

variable {s t : State α β} {d : CheckpointDir α β} {n : ℕ}

omit [DecidableEq β] in
theorem Writer.save_of_made {w : Writer α β} {c : Save α β} (h : w.made? = some c) :
    w.save? = some c := by
  cases w <;> first | exact h | cases h

omit [DecidableEq β] in
theorem Finalizer.pending_of_renames {f : Finalizer α β} (h : f.renames = some n) :
    f.pending = some n := by
  cases f <;> first | exact h | cases h

omit [DecidableEq β] in
/-- A finalization with nothing left to rename is past its `wait_fn` and its swap. -/
theorem Finalizer.past {f : Finalizer α β} (h : f.pending = none) :
    f.renames = none ∧ (∀ c, f ≠ .waiting c) ∧ ∀ k swap, f ≠ .movingNew k swap := by
  refine ⟨?_, ?_, ?_⟩
  · cases hr : f.renames with
    | none => rfl
    | some k =>
      rw [Finalizer.pending_of_renames hr] at h
      cases h
  · rintro c rfl
    cases h
  · rintro k swap rfl
    cases h

theorem Sound.made_of_past (hs : Sound s) {f : Finalizer α β} (hf : ∀ c, f ≠ .waiting c) :
    ∀ c, s.writer.made? = some c ∨ f = .waiting c →
      ∃ E, s.disk.lookup (.tmp c.step) = some ⟨c, E⟩ :=
  fun c hc ↦ hs.made c (.inl (hc.resolve_right (hf c)))

/-- A step of the writer, or of the writes behind `wait_fn`, changes one temporary directory. -/
theorem Sound.tmp (hs : Sound s) {w : Writer α β}
    (hd : ∀ p, p ≠ .tmp n → d.lookup p = s.disk.lookup p) (hn : s.finalizer.renames ≠ some n)
    (hmade : ∀ c, w.made? = some c ∨ s.finalizer = .waiting c →
      ∃ E, d.lookup (.tmp c.step) = some ⟨c, E⟩)
    (hapart : ∀ c, w.save? = some c → s.finalizer.pending ≠ some c.step) :
    Sound { s with disk := d, writer := w } where
  named k h := hs.named k ((Disk.mem_congr (hd _ DirName.noConfusion)).mp h)
  latest k hk hf := by
    rw [hd _ DirName.noConfusion]
    exact hs.latest k hk hf
  held k hk hf := by
    rw [Disk.listdir_congr (hd _ DirName.noConfusion)]
    exact hs.held k hk hf
  made := hmade
  ready k hk := by
    have hne : k ≠ n := fun h ↦ hn (h ▸ hk)
    rw [hd _ fun h ↦ hne (DirName.tmp.inj h)]
    exact hs.ready k hk
  apart := hapart
  fresh k swap hf h := hs.fresh k swap hf ((Disk.mem_congr (hd _ DirName.noConfusion)).mp h)
  leftover k h := by
    rw [Disk.listdir_congr (hd _ DirName.noConfusion)] at h
    exact hs.leftover k h
  listed := hs.listed
  victims := hs.victims

/-- A step of the pruner takes things out of a directory that is not the last one. -/
theorem Sound.prune (hs : Sound s) {p : Pruner α} {queued : ℕ}
    (hd : ∀ q, q ≠ .step n → q ≠ .old n → d.lookup q = s.disk.lookup q)
    (hstep : .step n ∈ d → .step n ∈ s.disk)
    (hold : d.listdir (.old n) ⊆ s.disk.listdir (.old n))
    (hn : ∃ k ∈ s.finalized, n < k)
    (hlisted : ∀ k ∈ p.listed, k ∈ s.finalized)
    (hpaths : ∀ k ∈ p.paths, ∃ j ∈ s.finalized, k < j) :
    Sound { s with disk := d, pruner := p, queued := queued } := by
  have hlast : ∀ k, IsLast s.finalized k → k ≠ n := by
    rintro k hk rfl
    obtain ⟨j, hj, hlt⟩ := hn
    exact absurd (hk.2 j hj) (not_le.mpr hlt)
  have hname : ∀ k, .step k ∈ d → .step k ∈ s.disk := by
    intro k hk
    by_cases hkn : k = n
    · exact hkn ▸ hstep (hkn ▸ hk)
    · exact (Disk.mem_congr (hd _ (fun h ↦ hkn (DirName.step.inj h)) DirName.noConfusion)).mp hk
  exact {
    named := fun k h ↦ hs.named k (hname k h)
    latest := fun k hk hf ↦ by
      rw [hd _ (fun h ↦ hlast k hk (DirName.step.inj h)) DirName.noConfusion]
      exact hs.latest k hk hf
    held := fun k hk hf ↦ by
      rw [Disk.listdir_congr (hd _ DirName.noConfusion fun h ↦ hlast k hk (DirName.old.inj h))]
      exact hs.held k hk hf
    made := fun c hc ↦ by
      rw [hd _ DirName.noConfusion DirName.noConfusion]
      exact hs.made c hc
    ready := fun k hk ↦ by
      rw [hd _ DirName.noConfusion DirName.noConfusion]
      exact hs.ready k hk
    apart := hs.apart
    fresh := fun k swap hf h ↦ hs.fresh k swap hf (hname k h)
    leftover := fun k h ↦ by
      by_cases hkn : k = n
      · subst hkn
        exact hs.leftover k (h.mono hold)
      · rw [Disk.listdir_congr (hd _ DirName.noConfusion fun h ↦ hkn (DirName.old.inj h))] at h
        exact hs.leftover k h
    listed := hlisted
    victims := hpaths }

/-- Where the finalizer is only counts for what it has yet to rename and to remove. -/
theorem Sound.finalizer (hs : Sound s) {w : Writer α β} {f : Finalizer α β}
    (hf : ∀ k, s.finalizer ≠ .movingNew k true)
    (hmade : ∀ c, w.made? = some c ∨ f = .waiting c →
      ∃ E, s.disk.lookup (.tmp c.step) = some ⟨c, E⟩)
    (hready : ∀ k, f.renames = some k →
      ∃ x, s.disk.lookup (.tmp k) = some x ∧ Complete k x)
    (hapart : ∀ c, w.save? = some c → f.pending ≠ some c.step)
    (hfresh : ∀ k swap, f = .movingNew k swap → swap = false ∧ .step k ∉ s.disk)
    (hleft : ∀ k, s.finalizer.overwrites = some k → (s.disk.listdir (.old k)).Nonempty →
      f.overwrites = some k) :
    Sound { s with writer := w, finalizer := f } where
  named := hs.named
  latest k hk _ := hs.latest k hk (hf k)
  held k _ hm := absurd (hfresh k true hm).1 Bool.noConfusion
  made := hmade
  ready := hready
  apart := hapart
  fresh k swap hm := (hfresh k swap hm).2
  leftover k h := hleft k (hs.leftover k h) h
  listed := hs.listed
  victims := hs.victims

theorem Sound.initTmpCheckpoint (hs : Sound s) {c : Save α β}
    (h : initTmpCheckpoint s c = some t) : Sound t := by
  unfold CheckpointDisk.initTmpCheckpoint at h
  split at h
  · split_ifs at h with hpending _ <;>
    · obtain rfl := Option.some.inj h
      refine hs.tmp (n := c.step) (fun _ _ ↦ rfl)
        (fun hr ↦ hpending (Finalizer.pending_of_renames hr)) ?_ ?_
      · rintro c' (hc | hc)
        · cases hc
        · exact hs.made c' (.inr hc)
      · rintro c' ⟨⟩
        exact hpending
  · cases h

theorem Sound.writer (hs : Sound s) {c : Save α β} {w : Writer α β}
    (hc : s.writer.save? = some c) (hw : w.save? = some c)
    (hd : ∀ p, p ≠ .tmp c.step → d.lookup p = s.disk.lookup p)
    (hmade : w.made? = some c → ∃ E, d.lookup (.tmp c.step) = some ⟨c, E⟩) :
    Sound { s with disk := d, writer := w } := by
  have hapart := hs.apart c hc
  refine hs.tmp hd (fun hr ↦ hapart (Finalizer.pending_of_renames hr)) ?_ ?_
  · rintro c' (h | h)
    · obtain rfl : c = c' := Option.some.inj (hw.symm.trans (Writer.save_of_made h))
      exact hmade h
    · have hne : c'.step ≠ c.step := by
        intro heq
        rw [h] at hapart
        exact hapart (congrArg some heq)
      rw [hd _ fun heq ↦ hne (DirName.tmp.inj heq)]
      exact hs.made c' (.inr h)
  · intro c' h
    obtain rfl : c = c' := Option.some.inj (hw.symm.trans h)
    exact hapart

theorem Sound.writerNext (hs : Sound s) (h : Writer.next s = some t) : Sound t := by
  unfold Writer.next at h
  split at h
  · next c hw =>
    split_ifs at h
    obtain rfl := Option.some.inj h
    refine hs.writer (by rw [hw]; rfl) rfl (fun p hp ↦ Finmap.lookup_erase_ne hp) ?_
    rintro ⟨⟩
  · next c hw =>
    obtain rfl := Option.some.inj h
    exact hs.writer (by rw [hw]; rfl) rfl (fun p hp ↦ Disk.lookup_mkdir_of_ne _ _ hp)
      fun _ ↦ ⟨_, Disk.lookup_mkdir _ _ _⟩
  · next c hw =>
    obtain rfl := Option.some.inj h
    obtain ⟨E, hE⟩ := hs.made c (.inl (by rw [hw]; rfl))
    refine hs.writer (by rw [hw]; rfl) ?_ (fun p hp ↦ Disk.lookup_revise_of_ne hp)
      fun _ ↦ ⟨_, Disk.lookup_revise hE⟩
    split_ifs <;> rfl
  · next c hw =>
    obtain rfl := Option.some.inj h
    obtain ⟨E, hE⟩ := hs.made c (.inl (by rw [hw]; rfl))
    exact hs.writer (by rw [hw]; rfl) rfl (fun p hp ↦ Disk.lookup_revise_of_ne hp)
      fun _ ↦ ⟨_, Disk.lookup_revise hE⟩
  · next c hw =>
    -- `begin_finalization` hands the save over
    split at h
    · next hf =>
      obtain rfl := Option.some.inj h
      refine hs.finalizer (by rw [hf]; rintro k ⟨⟩) ?_ (by rintro k ⟨⟩) (by rintro c ⟨⟩)
        (by rintro k swap ⟨⟩) (by rw [hf]; rintro k ⟨⟩)
      rintro c' (hc | hc)
      · cases hc
      · obtain rfl := Finalizer.waiting.inj hc
        exact hs.made c (.inl (by rw [hw]; rfl))
    · cases h
  · cases h

/-- The checkpoint in the way is moved aside: as far as it is the last one, it is complete. -/
theorem Sound.movedOld (hs : Sound s) (hf : s.finalizer = .movingOld n)
    (hd : s.disk.rename (.step n) (.old n) = some d) :
    Sound { s with disk := d, finalizer := .movingNew n true } := by
  obtain ⟨x, hx, _, rfl⟩ := Disk.rename_eq_some hd
  have hother : ∀ p, p ≠ .step n → p ≠ .old n →
      ((s.disk.erase (.step n)).insert (.old n) x).lookup p = s.disk.lookup p := by
    intro p hstep hold
    rw [Finmap.lookup_insert_of_ne _ hold, Finmap.lookup_erase_ne hstep]
  have hgone : .step n ∉ (s.disk.erase (.step n)).insert (.old n) x := by
    simp [Finmap.mem_insert, Finmap.mem_erase]
  have hmoved : Disk.listdir ((s.disk.erase (.step n)).insert (.old n) x) (.old n) = x.entries :=
    Disk.listdir_of_lookup (Finmap.lookup_insert _)
  refine {
    named := fun k h ↦ ?_
    latest := fun k hk hne ↦ ?_
    held := fun k hk hk' ↦ ?_
    made := fun c hc ↦ ?_
    ready := fun k hk ↦ ?_
    apart := fun c hc ↦ ?_
    fresh := fun k swap hk ↦ ?_
    leftover := fun k h ↦ ?_
    listed := hs.listed
    victims := hs.victims }
  · by_cases hkn : k = n
    · exact absurd (hkn ▸ h) hgone
    · exact hs.named k ((Disk.mem_congr (hother _ (fun h ↦ hkn (DirName.step.inj h))
        DirName.noConfusion)).mp h)
  · have hkn : k ≠ n := by
      rintro rfl
      exact hne rfl
    rw [hother _ (fun h ↦ hkn (DirName.step.inj h)) DirName.noConfusion]
    exact hs.latest k hk (by rw [hf]; rintro ⟨⟩)
  · obtain ⟨rfl, _⟩ := Finalizer.movingNew.inj hk'
    obtain ⟨y, hy, hcomplete⟩ := hs.latest n hk (by rw [hf]; rintro ⟨⟩)
    obtain rfl : x = y := Option.some.inj (hx.symm.trans hy)
    rw [hmoved]
    exact hcomplete.nonempty
  · rw [hother _ DirName.noConfusion DirName.noConfusion]
    exact hs.made_of_past (by rintro c ⟨⟩) c hc
  · rw [hother _ DirName.noConfusion DirName.noConfusion]
    exact hs.ready k (by rw [hf]; exact hk)
  · have hapart := hs.apart c hc
    rw [hf] at hapart
    exact hapart
  · obtain ⟨rfl, _⟩ := Finalizer.movingNew.inj hk
    exact hgone
  · by_cases hkn : k = n
    · exact hkn ▸ rfl
    · rw [Disk.listdir_congr (hother _ DirName.noConfusion fun h ↦ hkn (DirName.old.inj h))] at h
      have hleft := hs.leftover k h
      rw [hf] at hleft
      cases hleft

theorem Sound.movedNew (hs : Sound s) {swap : Bool} (hf : s.finalizer = .movingNew n swap)
    (hd : s.disk.rename (.tmp n) (.step n) = some d) {f : Finalizer α β} {queued : ℕ}
    (hidle : f = if swap then .removingOld n else .idle) :
    Sound { s with disk := d, finalizer := f, queued := queued, finalized := n :: s.finalized } := by
  obtain ⟨x, hx, _, rfl⟩ := Disk.rename_eq_some hd
  have hother : ∀ p, p ≠ .step n → p ≠ .tmp n →
      ((s.disk.erase (.tmp n)).insert (.step n) x).lookup p = s.disk.lookup p := by
    intro p hstep htmp
    rw [Finmap.lookup_insert_of_ne _ hstep, Finmap.lookup_erase_ne htmp]
  have hpending : f.pending = none := by
    subst hidle
    cases swap <;> rfl
  obtain ⟨hrenames, hwaiting, hmoving⟩ := Finalizer.past hpending
  refine {
    named := fun k h ↦ ?_
    latest := fun k hk _ ↦ ?_
    held := fun k _ hk ↦ absurd hk (hmoving k true)
    made := fun c hc ↦ ?_
    ready := fun k hk ↦ ?_
    apart := fun c _ ↦ ?_
    fresh := fun k b hk ↦ absurd hk (hmoving k b)
    leftover := fun k h ↦ ?_
    listed := fun k hk ↦ List.mem_cons_of_mem n (hs.listed k hk)
    victims := fun k hk ↦ ?_ }
  · by_cases hkn : k = n
    · exact hkn ▸ List.mem_cons_self
    · exact List.mem_cons_of_mem n (hs.named k ((Disk.mem_congr (hother _
        (fun h ↦ hkn (DirName.step.inj h)) DirName.noConfusion)).mp h))
  · by_cases hkn : k = n
    · subst hkn
      obtain ⟨y, hy, hcomplete⟩ := hs.ready k (by rw [hf]; rfl)
      obtain rfl : x = y := Option.some.inj (hx.symm.trans hy)
      exact ⟨x, Finmap.lookup_insert _, hcomplete⟩
    · -- the last one is one of those finalized before
      have hlast : IsLast s.finalized k :=
        ⟨(List.mem_cons.mp hk.1).resolve_left hkn, fun j hj ↦ hk.2 j (List.mem_cons_of_mem n hj)⟩
      rw [hother _ (fun h ↦ hkn (DirName.step.inj h)) DirName.noConfusion]
      refine hs.latest k hlast fun h ↦ hkn ?_
      rw [hf] at h
      exact (Finalizer.movingNew.inj h).1.symm
  · rcases hc with hc | hc
    · have hne : c.step ≠ n := by
        intro heq
        have hapart := hs.apart c (Writer.save_of_made hc)
        rw [hf] at hapart
        exact hapart (congrArg some heq.symm)
      rw [hother _ DirName.noConfusion fun h ↦ hne (DirName.tmp.inj h)]
      exact hs.made c (.inl hc)
    · exact absurd hc (hwaiting c)
  · rw [hrenames] at hk
    cases hk
  · rw [hpending]
    exact Option.some_ne_none _ |>.symm
  · rw [Disk.listdir_congr (hother _ DirName.noConfusion DirName.noConfusion)] at h
    have hleft := hs.leftover k h
    rw [hf] at hleft
    subst hidle
    cases swap
    · cases hleft
    · exact hleft
  · obtain ⟨j, hj, hlt⟩ := hs.victims k hk
    exact ⟨j, List.mem_cons_of_mem n hj, hlt⟩

theorem Sound.removedOld (hs : Sound s) (hf : s.finalizer = .removingOld n)
    (hd : ∀ p, p ≠ .old n → d.lookup p = s.disk.lookup p) {f : Finalizer α β} {queued : ℕ}
    (hidle : f = .removingOld n ∨ f = .idle ∧ d.listdir (.old n) = ∅) :
    Sound { s with disk := d, finalizer := f, queued := queued } := by
  have hpending : f.pending = none := by
    rcases hidle with rfl | ⟨rfl, _⟩ <;> rfl
  obtain ⟨hrenames, hwaiting, hmoving⟩ := Finalizer.past hpending
  refine {
    named := fun k h ↦ hs.named k ((Disk.mem_congr (hd _ DirName.noConfusion)).mp h)
    latest := fun k hk _ ↦ ?_
    held := fun k _ hk ↦ absurd hk (hmoving k true)
    made := fun c hc ↦ ?_
    ready := fun k hk ↦ ?_
    apart := fun c _ ↦ ?_
    fresh := fun k b hk ↦ absurd hk (hmoving k b)
    leftover := fun k h ↦ ?_
    listed := hs.listed
    victims := hs.victims }
  · rw [hd _ DirName.noConfusion]
    exact hs.latest k hk (by rw [hf]; rintro ⟨⟩)
  · rw [hd _ DirName.noConfusion]
    exact hs.made_of_past hwaiting c hc
  · rw [hrenames] at hk
    cases hk
  · rw [hpending]
    exact Option.some_ne_none _ |>.symm
  · by_cases hkn : k = n
    · subst hkn
      rcases hidle with rfl | ⟨_, hempty⟩
      · rfl
      · rw [hempty] at h
        exact absurd h Finset.not_nonempty_empty
    · rw [Disk.listdir_congr (hd _ fun h ↦ hkn (DirName.old.inj h))] at h
      have hleft := hs.leftover k h
      rw [hf] at hleft
      exact absurd (Option.some.inj hleft).symm hkn

theorem Sound.finalizerNext (hs : Sound s) (h : Finalizer.next s = some t) : Sound t := by
  unfold Finalizer.next at h
  split at h
  · next c hf =>
    split_ifs at h with hall
    obtain rfl := Option.some.inj h
    have hnot : ∀ k, s.finalizer ≠ .movingNew k true := by
      rw [hf]
      rintro k ⟨⟩
    refine hs.finalizer hnot (hs.made_of_past (by rintro c ⟨⟩)) ?_ ?_
      (by rintro k swap ⟨⟩) (by rw [hf]; rintro k ⟨⟩)
    · rintro k ⟨⟩
      obtain ⟨E, hE⟩ := hs.made c (.inr hf)
      rw [Disk.listdir_of_lookup hE] at hall
      exact ⟨_, hE, rfl, hall⟩
    · have hapart := hs.apart
      rw [hf] at hapart
      exact hapart
  · next k hf =>
    have hnot : ∀ j, s.finalizer ≠ .movingNew j true := by
      rw [hf]
      rintro j ⟨⟩
    have hready := hs.ready
    have hapart := hs.apart
    rw [hf] at hready hapart
    split_ifs at h with hin
    · obtain rfl := Option.some.inj h
      exact hs.finalizer hnot (hs.made_of_past (by rintro c ⟨⟩)) hready hapart
        (by rintro j swap ⟨⟩) (by rw [hf]; rintro j ⟨⟩)
    · obtain rfl := Option.some.inj h
      refine hs.finalizer hnot (hs.made_of_past (by rintro c ⟨⟩)) hready hapart
        ?_ (by rw [hf]; rintro j ⟨⟩)
      rintro j swap ⟨⟩
      exact ⟨rfl, hin⟩
  · next k hf =>
    split at h
    · next d hd =>
      obtain rfl := Option.some.inj h
      exact hs.movedOld hf hd
    · -- the pruner has taken the checkpoint away after the check
      obtain rfl := Option.some.inj h
      exact hs.finalizer (by rw [hf]; rintro j ⟨⟩) (hs.made_of_past (by rintro c ⟨⟩))
        (by rintro j ⟨⟩) (by rintro c _ ⟨⟩) (by rintro j swap ⟨⟩) (by rw [hf]; rintro j ⟨⟩)
  · next k swap hf =>
    split at h
    · next d hd =>
      cases swap <;>
      · obtain rfl := Option.some.inj h
        exact hs.movedNew hf hd rfl
    · next hd =>
      obtain ⟨x, hx, _⟩ := hs.ready k (by rw [hf]; rfl)
      rw [Disk.rename_of_lookup hx (Disk.listdir_of_notMem (hs.fresh k swap hf))] at hd
      cases hd
  · next k hf =>
    split_ifs at h with hin hempty
    · obtain rfl := Option.some.inj h
      refine hs.removedOld hf (fun p hp ↦ Finmap.lookup_erase_ne hp) (.inr ⟨rfl, ?_⟩)
      exact Disk.listdir_of_notMem (by simp [Finmap.mem_erase])
    · obtain rfl := Option.some.inj h
      exact hs.removedOld hf (fun _ _ ↦ rfl) (.inr ⟨rfl, Disk.listdir_of_notMem hin⟩)
  · cases h
  · cases h

omit [DecidableEq β] in
theorem mem_stepDirs : n ∈ stepDirs d ↔ .step n ∈ d := by
  simp only [stepDirs, Finset.mem_biUnion, Finmap.mem_keys]
  constructor
  · rintro ⟨p, hp, hn⟩
    cases p with
    | step k =>
      obtain rfl := Finset.mem_singleton.mp hn
      exact hp
    | tmp k => exact absurd hn (Finset.notMem_empty n)
    | old k => exact absurd hn (Finset.notMem_empty n)
  · exact fun h ↦ ⟨.step n, h, Finset.mem_singleton_self n⟩

theorem Sound.pruner (hs : Sound s) {p : Pruner α} {queued : ℕ}
    (hlisted : ∀ k ∈ p.listed, k ∈ s.finalized)
    (hpaths : ∀ k ∈ p.paths, ∃ j ∈ s.finalized, k < j) :
    Sound { s with pruner := p, queued := queued } :=
  { named := hs.named, latest := hs.latest, held := hs.held, made := hs.made, ready := hs.ready,
    apart := hs.apart, fresh := hs.fresh, leftover := hs.leftover, listed := hlisted,
    victims := hpaths }

theorem Sound.list (hs : Sound s) {dirs : List ℕ} {queued : ℕ}
    (hdirs : dirs.toFinset = stepDirs s.disk) :
    Sound { s with pruner := .loading dirs [], queued := queued } := by
  refine hs.pruner (fun k hk ↦ ?_) (by rintro k ⟨⟩)
  have hk : k ∈ dirs := by simpa [Pruner.listed] using hk
  exact hs.named k (mem_stepDirs.mp (hdirs ▸ List.mem_toFinset.mpr hk))

theorem Sound.prunerNext [LinearOrder α] [BoundedOrder α] {m : CheckpointManager} (hs : Sound s)
    (h : Pruner.next m s = some t) : Sound t := by
  unfold Pruner.next at h
  split at h
  · next k dirs history hp =>
    have hlisted := hs.listed
    rw [hp] at hlisted
    have hskip : ∀ j ∈ (Pruner.loading dirs history).listed, j ∈ s.finalized :=
      fun j hj ↦ hlisted j (List.mem_cons_of_mem k hj)
    split at h
    · next x hx =>
      split_ifs at h with hinfo
      · obtain rfl := Option.some.inj h
        refine hs.pruner (fun j hj ↦ hlisted j ?_) (by rintro j ⟨⟩)
        simp only [Pruner.listed, List.map_append, List.map_cons, List.map_nil, List.mem_append,
          List.mem_cons, List.not_mem_nil, or_false] at hj ⊢
        tauto
      · obtain rfl := Option.some.inj h
        exact hs.pruner hskip (by rintro j ⟨⟩)
    · obtain rfl := Option.some.inj h
      exact hs.pruner hskip (by rintro j ⟨⟩)
  · next history hp =>
    obtain rfl := Option.some.inj h
    have hlisted := hs.listed
    rw [hp] at hlisted
    refine hs.pruner (by rintro j ⟨⟩) fun j hj ↦ ?_
    obtain ⟨c, hc, rfl⟩ := List.mem_map.mp hj
    obtain ⟨hin, hgone⟩ := List.mem_filter.mp hc
    obtain ⟨k, hk, hlt⟩ := CheckpointManager.exists_later hin (of_decide_eq_true hgone)
    exact ⟨k, hlisted k hk, hlt⟩
  · next k paths hp =>
    have hvictims := hs.victims
    rw [hp] at hvictims
    split_ifs at h with hin hempty
    · obtain rfl := Option.some.inj h
      refine hs.prune (n := k) (fun q hq _ ↦ Finmap.lookup_erase_ne hq) (fun _ ↦ hin) ?_
        (hvictims k List.mem_cons_self) (by rintro j ⟨⟩)
        fun j hj ↦ hvictims j (List.mem_cons_of_mem k hj)
      rw [Disk.listdir_congr (Finmap.lookup_erase_ne DirName.noConfusion)]
    · obtain rfl := Option.some.inj h
      exact hs.pruner (by rintro j ⟨⟩) (by rintro j ⟨⟩)
  · obtain rfl := Option.some.inj h
    exact hs.pruner (by rintro j ⟨⟩) (by rintro j ⟨⟩)
  · cases h

theorem Sound.crash (hs : Sound s) (hout : ¬ MidOverwrite s) : Sound { s with
    writer := .idle, finalizer := .idle, pruner := .idle, queued := 0 } where
  named := hs.named
  latest k hk _ := hs.latest k hk fun hf ↦ hout ⟨k, by rw [hf]; rfl, hs.held k hk hf⟩
  held := by rintro k _ ⟨⟩
  made := by rintro c (h | h) <;> cases h
  ready := by rintro k ⟨⟩
  apart := by rintro c ⟨⟩
  fresh := by rintro k swap ⟨⟩
  leftover k h := absurd ⟨k, hs.leftover k h, h⟩ hout
  listed := by rintro k ⟨⟩
  victims := by rintro k ⟨⟩

theorem Sound.unlink (hs : Sound s) {thread : Thread} {p : DirName} (hp : rmtree s thread = some p)
    (e : Entry β) : Sound { s with disk := s.disk.unlink p e } := by
  unfold rmtree at hp
  cases thread with
  | writer =>
    dsimp only at hp
    split at hp
    · next c hw =>
      obtain rfl := Option.some.inj hp
      refine hs.writer (w := s.writer) (by rw [hw]; rfl) (by rw [hw]; rfl)
        (fun q hq ↦ Disk.lookup_revise_of_ne hq) ?_
      rw [hw]
      rintro ⟨⟩
    · cases hp
  | finalizer =>
    dsimp only at hp
    split at hp
    · next k hf =>
      obtain rfl := Option.some.inj hp
      have h : Sound { s with
          disk := s.disk.unlink (.old k) e, finalizer := .removingOld k } :=
        hs.removedOld hf (fun q hq ↦ Disk.lookup_revise_of_ne hq) (.inl rfl)
      rwa [← hf] at h
    · cases hp
  | pruner =>
    dsimp only at hp
    split at hp
    · next k paths hpr =>
      obtain rfl := Option.some.inj hp
      have hvictims := hs.victims
      rw [hpr] at hvictims
      exact hs.prune (n := k) (fun q hq _ ↦ Disk.lookup_revise_of_ne hq) Disk.mem_revise.mp
        (Disk.listdir_revise_subset (fun E ↦ Finset.erase_subset e E) _)
        (hvictims k List.mem_cons_self) hs.listed hs.victims
    · cases hp

theorem Sound.unlinkMoved (hs : Sound s) {paths : List ℕ} (hp : s.pruner = .removing (n :: paths))
    (e : Entry β) : Sound { s with disk := s.disk.unlink (.old n) e } := by
  have hvictims := hs.victims
  rw [hp] at hvictims
  refine hs.prune (n := n) (fun q _ hq ↦ Disk.lookup_revise_of_ne hq) Disk.mem_revise.mp ?_
    (hvictims n List.mem_cons_self) hs.listed hs.victims
  exact Disk.listdir_revise_subset (fun E ↦ Finset.erase_subset e E) _

theorem Sound.write (hs : Sound s) {c : Save α β} (e : Entry β)
    (hc : s.writer.made? = some c ∨ s.finalizer = .waiting c) :
    Sound { s with disk := s.disk.write (.tmp c.step) e } := by
  obtain ⟨E, hE⟩ := hs.made c hc
  have hrenames : s.finalizer.renames ≠ some c.step := by
    rcases hc with hw | hf
    · exact fun hr ↦
        hs.apart c (Writer.save_of_made hw) (Finalizer.pending_of_renames hr)
    · rw [hf]
      rintro ⟨⟩
  refine hs.tmp (w := s.writer) (fun p hp ↦ Disk.lookup_revise_of_ne hp) hrenames
    (fun c' hc' ↦ ?_) hs.apart
  obtain ⟨E', hE'⟩ := hs.made c' hc'
  by_cases heq : c'.step = c.step
  · rw [heq] at hE' ⊢
    obtain ⟨rfl, rfl⟩ := Dir.mk.inj (Option.some.inj (hE'.symm.trans hE))
    exact ⟨_, Disk.lookup_revise hE⟩
  · exact ⟨E', (Disk.lookup_revise_of_ne fun h ↦ heq (DirName.tmp.inj h)).trans hE'⟩

theorem Sound.step [LinearOrder α] [BoundedOrder α] {m : CheckpointManager} {e : Event α β}
    (hs : Sound s) (hout : CrashesOutside s e) (h : step m s e = some t) : Sound t := by
  cases e with
  | initTmpCheckpoint c => exact hs.initTmpCheckpoint h
  | next thread =>
    cases thread with
    | writer => exact hs.writerNext h
    | finalizer => exact hs.finalizerNext h
    | pruner => exact hs.prunerNext h
  | unlink thread e =>
    simp only [CheckpointDisk.step] at h
    split at h
    · next p hp =>
      split_ifs at h
      obtain rfl := Option.some.inj h
      exact hs.unlink hp e
    · cases h
  | unlinkMoved e =>
    simp only [CheckpointDisk.step] at h
    split at h
    · next n paths hp =>
      obtain rfl := Option.some.inj h
      exact hs.unlinkMoved hp e
    · cases h
  | write f =>
    simp only [CheckpointDisk.step] at h
    split at h
    · next c hw =>
      split_ifs at h
      obtain rfl := Option.some.inj h
      exact hs.write (.file f) (.inl (by rw [hw]; rfl))
    · cases h
  | writeAsync f =>
    simp only [CheckpointDisk.step] at h
    split at h
    · next c hf =>
      split_ifs at h
      obtain rfl := Option.some.inj h
      exact hs.write (.file f) (.inr hf)
    · cases h
  | list dirs =>
    simp only [CheckpointDisk.step] at h
    split at h
    · split_ifs at h with hdirs
      obtain rfl := Option.some.inj h
      exact hs.list hdirs.2.2
    · cases h
  | abort thread =>
    cases thread with
    | writer => cases h
    | finalizer =>
      simp only [CheckpointDisk.step] at h
      split at h
      · next n hf =>
        obtain rfl := Option.some.inj h
        exact hs.finalizer (by rw [hf]; rintro k ⟨⟩) (hs.made_of_past (by rintro c ⟨⟩))
          (by rintro k ⟨⟩) (by rintro c _ ⟨⟩) (by rintro k swap ⟨⟩) (by rw [hf]; exact fun k h _ ↦ h)
      · cases h
    | pruner =>
      obtain rfl := Option.some.inj h
      exact hs.pruner (by rintro k ⟨⟩) (by rintro k ⟨⟩)
  | crash =>
    obtain rfl := Option.some.inj h
    exact hs.crash hout

theorem sound_of_reachable [LinearOrder α] [BoundedOrder α] {m : CheckpointManager}
    (h : ReachableBy (step m) (· = .start) CrashesOutside s) : Sound s :=
  h.invariant (fun _ h ↦ h ▸ .start) fun _ _ _ hs hout hstep ↦ hs.step hout hstep

end Invariant

end CheckpointDisk

end NemoRL.Utils
