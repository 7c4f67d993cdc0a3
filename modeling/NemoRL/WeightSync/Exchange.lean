import Mathlib
import NemoRL.WeightSync.Plan

namespace NemoRL.WeightSync

open Foundations.Boxes

variable {α : Type*}

/-- What a rank has done and queued once it has gone through the plan: its
destination tensor with the local copies made, its sends and its receives. -/
structure Staged (α : Type*) where
  dstLocal : Block α
  sends : List (ℕ × Block α)
  receives : List (ℕ × Box)

def Staged.push (rank : ℕ) (srcLocal : Block α) (srcRegion dstRegion : Box) (s : Staged α)
    (t : Transfer) : Staged α :=
  if t.source = t.receiver then
    if rank = t.source then
      { s with dstLocal := writeView s.dstLocal t.overlap dstRegion
                (readView srcLocal t.overlap srcRegion) }
    else s
  else if rank = t.source then
    { s with sends := s.sends ++ [(t.receiver, readView srcLocal t.overlap srcRegion)] }
  else if rank = t.receiver then
    { s with receives := s.receives ++ [(t.source, t.overlap)] }
  else s

def stageRankOperations (rank : ℕ) (srcLocal dstLocal : Block α) (srcRegion dstRegion : Box)
    (ts : List Transfer) : Staged α :=
  ts.foldl (Staged.push rank srcLocal srcRegion dstRegion) ⟨dstLocal, [], []⟩

/-- The receives of a rank in order, each taking the next message of its peer.
Nothing where a message is missing or has another shape than its buffer. -/
def receiveAll (dstRegion : Box) : List (ℕ × Box) → (ℕ → List (Block α)) → Block α →
    Option (Block α × (ℕ → List (Block α)))
  | [], inbox, dstLocal => some (dstLocal, inbox)
  | (peer, overlap) :: rest, inbox, dstLocal =>
    match inbox peer with
    | [] => none
    | block :: later =>
      if block.shape = sizes overlap then
        receiveAll dstRegion rest (Function.update inbox peer later)
          (writeView dstLocal overlap dstRegion block)
      else none

def inboxOf (sends : ℕ → List (ℕ × Block α)) (rank : ℕ) : ℕ → List (Block α) :=
  fun peer ↦ ((sends peer).filter (·.1 = rank)).map Prod.snd

/-- The destination tensor of a rank after the exchange, with what is left
unreceived of the messages to it. -/
def exchangeOverlaps (srcRegions dstRegions : ℕ → Box) (srcLocal dstLocal : ℕ → Block α)
    (ts : List Transfer) (rank : ℕ) : Option (Block α × (ℕ → List (Block α))) :=
  let staged := fun r ↦ stageRankOperations r (srcLocal r) (dstLocal r) (srcRegions r)
    (dstRegions r) ts
  receiveAll (dstRegions rank) (staged rank).receives (inboxOf (fun r ↦ (staged r).sends) rank)
    (staged rank).dstLocal

section Staging

variable {rank : ℕ} {srcLocal dstLocal : Block α} {srcRegion dstRegion : Box}

def Transfer.From (rank : ℕ) (t : Transfer) : Prop := t.source ≠ t.receiver ∧ t.source = rank

def Transfer.Into (rank : ℕ) (t : Transfer) : Prop := t.source ≠ t.receiver ∧ t.receiver = rank

def Transfer.Copy (rank : ℕ) (t : Transfer) : Prop := t.source = t.receiver ∧ t.source = rank

instance (rank : ℕ) (t : Transfer) : Decidable (t.From rank) := inferInstanceAs (Decidable (_ ∧ _))

instance (rank : ℕ) (t : Transfer) : Decidable (t.Into rank) := inferInstanceAs (Decidable (_ ∧ _))

instance (rank : ℕ) (t : Transfer) : Decidable (t.Copy rank) := inferInstanceAs (Decidable (_ ∧ _))

theorem stage_spec (rank : ℕ) (srcLocal dstLocal : Block α) (srcRegion dstRegion : Box)
    (ts : List Transfer) :
    (stageRankOperations rank srcLocal dstLocal srcRegion dstRegion ts).sends =
      (ts.filter (Transfer.From rank)).map
        (fun t ↦ (t.receiver, readView srcLocal t.overlap srcRegion)) ∧
    (stageRankOperations rank srcLocal dstLocal srcRegion dstRegion ts).receives =
      (ts.filter (Transfer.Into rank)).map (fun t ↦ (t.source, t.overlap)) ∧
    (stageRankOperations rank srcLocal dstLocal srcRegion dstRegion ts).dstLocal =
      (ts.filter (Transfer.Copy rank)).foldl (fun d t ↦ writeView d t.overlap dstRegion
        (readView srcLocal t.overlap srcRegion)) dstLocal := by
  induction ts using List.reverseRecOn with
  | nil => exact ⟨rfl, rfl, rfl⟩
  | append_singleton ts t ih =>
    obtain ⟨hsends, hreceives, hdst⟩ := ih
    have hpush : stageRankOperations rank srcLocal dstLocal srcRegion dstRegion (ts ++ [t]) =
        (stageRankOperations rank srcLocal dstLocal srcRegion dstRegion ts).push rank srcLocal
          srcRegion dstRegion t := List.foldl_concat ..
    rw [hpush, Staged.push]
    by_cases h : t.source = t.receiver
    · have hfrom : ¬ t.From rank := fun hf ↦ hf.1 h
      have hinto : ¬ t.Into rank := fun hi ↦ hi.1 h
      rw [if_pos h]
      by_cases hr : rank = t.source
      · have hcopy : t.Copy rank := ⟨h, hr.symm⟩
        rw [if_pos hr]
        simp [hfrom, hinto, hcopy, hsends, hreceives, hdst]
      · have hcopy : ¬ t.Copy rank := fun hc ↦ hr hc.2.symm
        rw [if_neg hr]
        simp [hfrom, hinto, hcopy, hsends, hreceives, hdst]
    · have hcopy : ¬ t.Copy rank := fun hc ↦ h hc.1
      rw [if_neg h]
      by_cases hr : rank = t.source
      · have hfrom : t.From rank := ⟨h, hr.symm⟩
        have hinto : ¬ t.Into rank := fun hi ↦ h (hr.symm.trans hi.2.symm)
        rw [if_pos hr]
        simp [hfrom, hinto, hcopy, hsends, hreceives, hdst]
      · have hfrom : ¬ t.From rank := fun hf ↦ hr hf.2.symm
        rw [if_neg hr]
        by_cases hd : rank = t.receiver
        · have hinto : t.Into rank := ⟨h, hd.symm⟩
          rw [if_pos hd]
          simp [hfrom, hinto, hcopy, hsends, hreceives, hdst]
        · have hinto : ¬ t.Into rank := fun hi ↦ hd hi.2.symm
          rw [if_neg hd]
          simp [hfrom, hinto, hcopy, hsends, hreceives, hdst]

end Staging

section Delivery

variable {whole : List ℕ → α} {dstRegion : Box}

theorem foldl_writeView {us : List Transfer} {block : Transfer → Block α} {d : Block α}
    (hwithin : ∀ t ∈ us, Within t.overlap dstRegion)
    (hblock : ∀ t ∈ us, Holds whole t.overlap (block t)) :
    (us.foldl (fun d t ↦ writeView d t.overlap dstRegion (block t)) d).shape = d.shape ∧
    ∀ x, InBox dstRegion x →
      (d.data (toLocal dstRegion x) = whole x ∨ ∃ t ∈ us, InBox t.overlap x) →
      (us.foldl (fun d t ↦ writeView d t.overlap dstRegion (block t)) d).data
        (toLocal dstRegion x) = whole x := by
  induction us generalizing d with
  | nil => exact ⟨rfl, fun x _ h ↦ by simpa using h⟩
  | cons t us ih =>
    obtain ⟨hw, hws⟩ := List.forall_mem_cons.mp hwithin
    obtain ⟨hb, hbs⟩ := List.forall_mem_cons.mp hblock
    obtain ⟨hshape, hdata⟩ := ih (d := writeView d t.overlap dstRegion (block t)) hws hbs
    refine ⟨hshape, fun x hx h ↦ hdata x hx ?_⟩
    rw [data_writeView hw hx]
    split_ifs with ht
    · exact .inl (hb.2 x ht)
    · rcases h with h | ⟨u, hu, hux⟩
      · exact .inl h
      · rcases List.mem_cons.mp hu with rfl | hu
        · exact absurd hux ht
        · exact .inr ⟨u, hu, hux⟩

/-- Where each peer has sent what the rank expects of it, in the order it
expects it, every receive finds its message and none is left. -/
theorem receiveAll_eq {us : List Transfer} {block : Transfer → Block α}
    (hshape : ∀ t ∈ us, (block t).shape = sizes t.overlap) (d : Block α) :
    receiveAll dstRegion (us.map fun t ↦ (t.source, t.overlap))
        (fun peer ↦ (us.filter (·.source = peer)).map block) d =
      some (us.foldl (fun d t ↦ writeView d t.overlap dstRegion (block t)) d, fun _ ↦ []) := by
  induction us generalizing d with
  | nil => rfl
  | cons t us ih =>
    obtain ⟨ht, hts⟩ := List.forall_mem_cons.mp hshape
    have hlater : Function.update (fun peer ↦ ((t :: us).filter (·.source = peer)).map block)
        t.source ((us.filter (·.source = t.source)).map block) =
        fun peer ↦ (us.filter (·.source = peer)).map block := by
      funext peer
      by_cases hp : peer = t.source
      · subst hp
        rw [Function.update_self]
      · rw [Function.update_of_ne hp, List.filter_cons_of_neg (by simpa using Ne.symm hp)]
    simp only [List.map_cons, receiveAll]
    rw [List.filter_cons_of_pos (by simp)]
    simp only [List.map_cons, if_pos ht, List.foldl_cons]
    have h := ih hts (writeView d t.overlap dstRegion (block t))
    rw [← hlater] at h
    exact h

end Delivery

section Exchange

variable {srcRanks dstRanks : List ℕ} {srcRegions dstRegions : ℕ → Box} {ts : List Transfer}
  {srcLocal dstLocal : ℕ → Block α} {whole : List ℕ → α}

theorem inboxOf_staged (rank : ℕ) :
    inboxOf (fun r ↦ (stageRankOperations r (srcLocal r) (dstLocal r) (srcRegions r)
      (dstRegions r) ts).sends) rank =
    fun peer ↦ ((ts.filter (Transfer.Into rank)).filter (·.source = peer)).map
      fun t ↦ readView (srcLocal t.source) t.overlap (srcRegions t.source) := by
  funext peer
  simp only [inboxOf, (stage_spec peer _ _ _ _ ts).1, List.filter_map, List.filter_filter,
    List.map_map]
  have hfilter : ts.filter (fun t ↦ ((fun m : ℕ × Block α ↦ decide (m.1 = rank)) ∘
      fun t : Transfer ↦ (t.receiver, readView (srcLocal peer) t.overlap (srcRegions peer))) t &&
        decide (Transfer.From peer t)) =
      ts.filter fun t ↦ decide (t.source = peer) && decide (Transfer.Into rank t) := by
    refine List.filter_congr fun t _ ↦ ?_
    rw [Bool.eq_iff_iff]
    simp only [Function.comp_apply, Bool.and_eq_true, decide_eq_true_eq]
    unfold Transfer.From Transfer.Into
    tauto
  rw [hfilter]
  refine List.map_congr_left fun t ht ↦ ?_
  have hsource : t.source = peer := by
    have h := (List.mem_filter.mp ht).2
    simp only [Bool.and_eq_true, decide_eq_true_eq] at h
    exact h.1
  simp only [Function.comp_apply, hsource]

theorem exchange_spec (dstLocal : ℕ → Block α)
    (hroutes : Routes srcRanks dstRanks srcRegions dstRegions ts)
    (hheld : ∀ r ∈ srcRanks, Holds whole (srcRegions r) (srcLocal r)) (rank : ℕ) :
    ∃ out, exchangeOverlaps srcRegions dstRegions srcLocal dstLocal ts rank =
        some (out, fun _ ↦ []) ∧ out.shape = (dstLocal rank).shape ∧
      ∀ x, InBox (dstRegions rank) x → (∃ t ∈ ts, t.receiver = rank ∧ InBox t.overlap x) →
        out.data (toLocal (dstRegions rank) x) = whole x := by
  set block := fun t : Transfer ↦ readView (srcLocal t.source) t.overlap (srcRegions t.source)
    with hblockdef
  have hblock : ∀ t ∈ ts, Holds whole t.overlap (block t) := fun t ht ↦
    (hheld t.source (hroutes t ht).1).readView (hroutes t ht).2.2.1
  have hwithin : ∀ t ∈ ts, t.receiver = rank → Within t.overlap (dstRegions rank) :=
    fun t ht hr ↦ hr ▸ (hroutes t ht).2.2.2
  obtain ⟨-, hreceives, hcopies⟩ := stage_spec rank (srcLocal rank) (dstLocal rank)
    (srcRegions rank) (dstRegions rank) ts
  have hcopy : ∀ t ∈ ts.filter (Transfer.Copy rank), t ∈ ts ∧ t.source = rank ∧
      t.receiver = rank := by
    intro t ht
    obtain ⟨hmem, hc⟩ := List.mem_filter.mp ht
    rw [decide_eq_true_eq] at hc
    exact ⟨hmem, hc.2, hc.1 ▸ hc.2⟩
  have hinto : ∀ t ∈ ts.filter (Transfer.Into rank), t ∈ ts ∧ t.receiver = rank := by
    intro t ht
    obtain ⟨hmem, hc⟩ := List.mem_filter.mp ht
    rw [decide_eq_true_eq] at hc
    exact ⟨hmem, hc.2⟩
  have hstaged : (ts.filter (Transfer.Copy rank)).foldl (fun d t ↦ writeView d t.overlap
      (dstRegions rank) (readView (srcLocal rank) t.overlap (srcRegions rank))) (dstLocal rank) =
      (ts.filter (Transfer.Copy rank)).foldl (fun d t ↦ writeView d t.overlap
      (dstRegions rank) (block t)) (dstLocal rank) := by
    refine List.foldl_ext _ _ _ fun d t ht ↦ ?_
    rw [hblockdef]
    simp only [(hcopy t ht).2.1]
  obtain ⟨hshape₁, hdata₁⟩ := foldl_writeView (d := dstLocal rank)
    (fun t ht ↦ hwithin t (hcopy t ht).1 (hcopy t ht).2.2)
    (fun t ht ↦ hblock t (hcopy t ht).1)
  obtain ⟨hshape₂, hdata₂⟩ := foldl_writeView
    (d := (ts.filter (Transfer.Copy rank)).foldl (fun d t ↦ writeView d t.overlap
      (dstRegions rank) (block t)) (dstLocal rank))
    (fun t ht ↦ hwithin t (hinto t ht).1 (hinto t ht).2)
    (fun t ht ↦ hblock t (hinto t ht).1)
  refine ⟨_, ?_, hshape₂.trans hshape₁, fun x hx ⟨t, ht, hr, htx⟩ ↦ hdata₂ x hx ?_⟩
  · simp only [exchangeOverlaps]
    rw [inboxOf_staged, hreceives, hcopies, hstaged]
    exact receiveAll_eq (fun t ht ↦ (hblock t (hinto t ht).1).1) _
  · by_cases hsame : t.source = t.receiver
    · refine .inl (hdata₁ x hx (.inr ⟨t, ?_, htx⟩))
      rw [List.mem_filter, decide_eq_true_eq]
      exact ⟨ht, hsame, hsame.trans hr⟩
    · refine .inr ⟨t, ?_, htx⟩
      rw [List.mem_filter, decide_eq_true_eq]
      exact ⟨ht, hsame, hr⟩

theorem sends_match_receives (a b : ℕ) :
    (((stageRankOperations a (srcLocal a) (dstLocal a) (srcRegions a) (dstRegions a) ts).sends.filter
      (·.1 = b)).map fun m ↦ m.2.shape) =
    (((stageRankOperations b (srcLocal b) (dstLocal b) (srcRegions b) (dstRegions b)
      ts).receives.filter (·.1 = a)).map fun m ↦ sizes m.2) := by
  rw [(stage_spec a _ _ _ _ ts).1, (stage_spec b _ _ _ _ ts).2.1]
  simp only [List.filter_map, List.filter_filter, List.map_map]
  have hfilter : ts.filter (fun t ↦ ((fun m : ℕ × Block α ↦ decide (m.1 = b)) ∘
      fun t : Transfer ↦ (t.receiver, readView (srcLocal a) t.overlap (srcRegions a))) t &&
        decide (Transfer.From a t)) =
      ts.filter fun t ↦ ((fun m : ℕ × Box ↦ decide (m.1 = a)) ∘
        fun t : Transfer ↦ (t.source, t.overlap)) t && decide (Transfer.Into b t) := by
    refine List.filter_congr fun t _ ↦ ?_
    rw [Bool.eq_iff_iff]
    simp only [Function.comp_apply, Bool.and_eq_true, decide_eq_true_eq]
    unfold Transfer.From Transfer.Into
    tauto
  rw [hfilter]
  rfl

end Exchange

end NemoRL.WeightSync
