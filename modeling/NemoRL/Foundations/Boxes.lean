import Mathlib

namespace NemoRL.Foundations.Boxes

abbrev Box := List (ℕ × ℕ)

def InBox (b : Box) (x : List ℕ) : Prop := List.Forall₂ (fun iv i ↦ iv.1 ≤ i ∧ i < iv.2) b x

def Within (b owner : Box) : Prop := List.Forall₂ (fun o w ↦ w.1 ≤ o.1 ∧ o.2 ≤ w.2) b owner

def sizes (b : Box) : List ℕ := b.map fun iv ↦ iv.2 - iv.1

def toLocal (b : Box) (x : List ℕ) : List ℕ := List.zipWith (fun i iv ↦ i - iv.1) x b

/-- A box counted from the corner of the box that owns it. -/
def localSlices (b owner : Box) : Box := List.zipWith (fun o w ↦ (o.1 - w.1, o.2 - w.1)) b owner

def intersect : Box → Box → Option Box
  | a :: left, b :: right =>
    if max a.1 b.1 ≥ min a.2 b.2 then none
    else (intersect left right).map ((max a.1 b.1, min a.2 b.2) :: ·)
  | _, _ => some []

/-- A dense array: its sizes, and its entries by their indices. -/
structure Block (α : Type*) where
  shape : List ℕ
  data : List ℕ → α

variable {α : Type*}

instance (b : Box) (x : List ℕ) : Decidable (InBox b x) :=
  inferInstanceAs (Decidable (List.Forall₂ _ _ _))

/-- The part of an array that lies in a box, as an array of its own. -/
def readView (owned : Block α) (b owner : Box) : Block α :=
  ⟨sizes b, fun v ↦ owned.data (List.zipWith (fun i iv ↦ i + iv.1) v (localSlices b owner))⟩

def writeView (owned : Block α) (b owner : Box) (block : Block α) : Block α :=
  { owned with data := fun v ↦ if InBox (localSlices b owner) v then
      block.data (toLocal (localSlices b owner) v) else owned.data v }

def Holds (whole : List ℕ → α) (b : Box) (block : Block α) : Prop :=
  block.shape = sizes b ∧ ∀ x, InBox b x → block.data (toLocal b x) = whole x

def restrict (whole : List ℕ → α) (b : Box) : Block α :=
  ⟨sizes b, fun v ↦ whole (List.zipWith (fun i iv ↦ i + iv.1) v b)⟩

theorem holds_restrict (whole : List ℕ → α) (b : Box) : Holds whole b (restrict whole b) := by
  refine ⟨rfl, fun x hx ↦ ?_⟩
  have hback : List.zipWith (fun i iv ↦ i + iv.1) (toLocal b x) b = x := by
    unfold InBox at hx
    induction hx with
    | nil => rfl
    | cons hi _ ih =>
      simp only [toLocal, List.zipWith_cons_cons, List.cons.injEq] at ih ⊢
      exact ⟨by omega, ih⟩
  simp only [restrict, hback]

theorem Within.inBox {b owner : Box} (h : Within b owner) {x : List ℕ} (hx : InBox b x) :
    InBox owner x := by
  induction h generalizing x with
  | nil => exact hx
  | cons h _ ih =>
    cases hx with
    | cons hi hx => exact .cons ⟨h.1.trans hi.1, hi.2.trans_le h.2⟩ (ih hx)

theorem Within.refl (b : Box) : Within b b := List.forall₂_same.mpr fun _ _ ↦ ⟨le_rfl, le_rfl⟩

theorem Within.trans {a b c : Box} (h : Within a b) (h' : Within b c) : Within a c := by
  unfold Within at h
  induction h generalizing c with
  | nil => exact h'
  | cons h _ ih =>
    cases h' with
    | cons hc htail => exact .cons ⟨hc.1.trans h.1, h.2.trans hc.2⟩ (ih htail)

theorem intersect_within {a b c : Box} (hlen : a.length = b.length) (h : intersect a b = some c) :
    Within c a ∧ Within c b := by
  induction a generalizing b c with
  | nil =>
    obtain rfl : b = [] := List.length_eq_zero_iff.mp hlen.symm
    obtain rfl : [] = c := by simpa [intersect] using h
    exact ⟨.nil, .nil⟩
  | cons p a ih =>
    cases b with
    | nil => simp at hlen
    | cons q b =>
      unfold intersect at h
      split_ifs at h with hempty
      obtain ⟨d, hd, rfl⟩ := Option.map_eq_some_iff.mp h
      obtain ⟨hl, hr⟩ := ih (by simpa using hlen) hd
      exact ⟨.cons ⟨le_max_left _ _, min_le_left _ _⟩ hl,
        .cons ⟨le_max_right _ _, min_le_right _ _⟩ hr⟩

theorem intersect_of_mem {a b : Box} {x : List ℕ} (ha : InBox a x) (hb : InBox b x) :
    ∃ c, intersect a b = some c ∧ InBox c x := by
  induction ha generalizing b with
  | nil =>
    cases hb
    exact ⟨[], rfl, .nil⟩
  | @cons p i _ _ hi _ ih =>
    cases hb with
    | @cons q _ _ _ hj hb =>
      obtain ⟨c, hc, hx⟩ := ih hb
      refine ⟨(max p.1 q.1, min p.2 q.2) :: c, ?_, .cons ⟨max_le hi.1 hj.1, lt_min hi.2 hj.2⟩ hx⟩
      unfold intersect
      rw [if_neg (by omega), hc]
      rfl

theorem inBox_localSlices {b owner : Box} (h : Within b owner) {x : List ℕ}
    (hx : InBox owner x) : InBox (localSlices b owner) (toLocal owner x) ↔ InBox b x := by
  induction h generalizing x with
  | nil =>
    cases hx
    exact Iff.rfl
  | cons h _ ih =>
    cases hx with
    | cons hi hx =>
      simp only [localSlices, toLocal, InBox, List.zipWith_cons_cons, List.forall₂_cons] at ih ⊢
      exact and_congr (by omega) (ih hx)

theorem toLocal_localSlices {b owner : Box} (h : Within b owner) {x : List ℕ} (hx : InBox b x) :
    toLocal (localSlices b owner) (toLocal owner x) = toLocal b x := by
  induction h generalizing x with
  | nil =>
    cases hx
    rfl
  | cons h _ ih =>
    cases hx with
    | cons hi hx =>
      simp only [localSlices, toLocal, List.zipWith_cons_cons, List.cons.injEq] at ih ⊢
      exact ⟨by omega, ih hx⟩

theorem add_localSlices {b owner : Box} (h : Within b owner) {x : List ℕ} (hx : InBox b x) :
    List.zipWith (fun i iv ↦ i + iv.1) (toLocal b x) (localSlices b owner) = toLocal owner x := by
  induction h generalizing x with
  | nil =>
    cases hx
    rfl
  | cons h _ ih =>
    cases hx with
    | cons hi hx =>
      simp only [localSlices, toLocal, List.zipWith_cons_cons, List.cons.injEq] at ih ⊢
      exact ⟨by omega, ih hx⟩

theorem data_readView (owned : Block α) {b owner : Box} (hw : Within b owner) {x : List ℕ}
    (hx : InBox b x) : (readView owned b owner).data (toLocal b x) =
      owned.data (toLocal owner x) := by
  simp only [readView, add_localSlices hw hx]

theorem Holds.readView {whole : List ℕ → α} {b owner : Box} {owned : Block α}
    (h : Holds whole owner owned) (hw : Within b owner) : Holds whole b (readView owned b owner) := by
  refine ⟨rfl, fun x hx ↦ ?_⟩
  rw [data_readView owned hw hx, h.2 x (hw.inBox hx)]

/-- Every index within the sizes of a box is that of an element of it. -/
theorem exists_inBox {b : Box} {v : List ℕ} (h : List.Forall₂ (· < ·) v (sizes b)) :
    ∃ x, InBox b x ∧ toLocal b x = v := by
  induction b generalizing v with
  | nil =>
    cases h
    exact ⟨[], .nil, rfl⟩
  | cons iv b ih =>
    cases h with
    | @cons i _ v _ hi h =>
      obtain ⟨x, hx, rfl⟩ := ih h
      have hsize : i < iv.2 - iv.1 := hi
      have hlt : iv.1 + i < iv.2 := by omega
      refine ⟨(iv.1 + i) :: x, .cons ⟨Nat.le_add_right _ _, hlt⟩ hx, ?_⟩
      simp [toLocal]

/-- Two arrays that hold the same part agree wherever they can be read. -/
theorem Holds.agree {whole : List ℕ → α} {b : Box} {block block' : Block α}
    (h : Holds whole b block) (h' : Holds whole b block') : block.shape = block'.shape ∧
      ∀ v, List.Forall₂ (· < ·) v block.shape → block.data v = block'.data v := by
  refine ⟨h.1.trans h'.1.symm, fun v hv ↦ ?_⟩
  rw [h.1] at hv
  obtain ⟨x, hx, rfl⟩ := exists_inBox hv
  rw [h.2 x hx, h'.2 x hx]

theorem data_writeView {owned block : Block α} {b owner : Box} (hw : Within b owner) {x : List ℕ}
    (hx : InBox owner x) : (writeView owned b owner block).data (toLocal owner x) =
      if InBox b x then block.data (toLocal b x) else owned.data (toLocal owner x) := by
  simp only [writeView, inBox_localSlices hw hx]
  split_ifs with hb
  · rw [toLocal_localSlices hw hb]
  · rfl

@[simp] theorem shape_writeView (owned block : Block α) (b owner : Box) :
    (writeView owned b owner block).shape = owned.shape := rfl

/-- Of a list in which no two entries satisfy a test together, one does if any does. -/
theorem countP_eq_one {β : Type*} {p : β → Bool} {l : List β}
    (hpair : l.Pairwise fun a b ↦ ¬ (p a = true ∧ p b = true)) (h : ∃ a ∈ l, p a = true) :
    l.countP p = 1 := by
  induction l with
  | nil => simp at h
  | cons a l ih =>
    obtain ⟨hfirst, hrest⟩ := List.pairwise_cons.mp hpair
    by_cases ha : p a = true
    · have hnone : l.countP p = 0 := List.countP_eq_zero.mpr fun b hb hpb ↦ hfirst b hb ⟨ha, hpb⟩
      rw [List.countP_cons_of_pos ha, hnone]
    · rw [List.countP_cons_of_neg ha]
      refine ih hrest ?_
      obtain ⟨b, hb, hpb⟩ := h
      rcases List.mem_cons.mp hb with rfl | hb
      · exact absurd hpb ha
      · exact ⟨b, hb, hpb⟩

end NemoRL.Foundations.Boxes
