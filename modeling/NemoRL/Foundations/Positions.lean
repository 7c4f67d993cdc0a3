import Mathlib

namespace NemoRL.Foundations.Positions

variable {α β : Type*}

/-- The positions of the entries that satisfy a test, in increasing order. -/
def indicesWhere (p : α → Bool) (l : List α) : List ℕ :=
  (l.zipIdx.filter fun x ↦ p x.1).map Prod.snd

/-- The entries at the given positions, in the order of the positions. -/
def entriesAt (l : List α) (idxs : List ℕ) : List α := idxs.filterMap (l[·]?)

/-- Delete the entries at the given positions, largest position first. -/
def dropAll (l : List α) (idxs : List ℕ) : List α :=
  (idxs.insertionSort (· ≥ ·)).foldl List.eraseIdx l

/-- The slice `l[start::step]`, for a start below the step. -/
def stripe (l : List α) (start step : ℕ) : List α :=
  (l.zipIdx.filter fun x ↦ x.2 % step = start).map Prod.fst

theorem perm_cons_eraseIdx {l : List α} {i : ℕ} {a : α} (h : l[i]? = some a) :
    l.Perm (a :: l.eraseIdx i) := by
  obtain ⟨hi, rfl⟩ := List.getElem?_eq_some_iff.mp h
  exact (List.getElem_cons_eraseIdx_perm hi).symm

theorem set_perm {l : List α} {i : ℕ} {a : α} (h : l[i]? = some a) (b : α) :
    (l.set i b).Perm (b :: l.eraseIdx i) :=
  List.set_perm_cons_eraseIdx (List.getElem?_eq_some_iff.mp h).1 b

theorem countP_set {l : List α} {i : ℕ} {a : α} (p : α → Bool) (h : l[i]? = some a)
    (b : α) : (l.set i b).countP p + (if p a then 1 else 0) =
      l.countP p + (if p b then 1 else 0) := by
  have h₁ := (set_perm h b).countP_eq p
  have h₂ := (perm_cons_eraseIdx h).countP_eq p
  rw [List.countP_cons] at h₁ h₂
  omega

theorem countP_eraseIdx {l : List α} {i : ℕ} {a : α} (p : α → Bool)
    (h : l[i]? = some a) : (l.eraseIdx i).countP p + (if p a then 1 else 0) = l.countP p := by
  have h₂ := (perm_cons_eraseIdx h).countP_eq p
  rw [List.countP_cons] at h₂
  omega

theorem map_set_of_eq (f : α → β) {l : List α} {i : ℕ} {s : α} (h : l[i]? = some s)
    (s' : α) (hf : f s' = f s) : (l.set i s').map f = l.map f := by
  rw [List.map_set, hf]
  refine List.ext_getElem? fun j ↦ ?_
  rw [List.getElem?_set]
  split_ifs with hij hj
  · subst hij
    rw [List.getElem?_map, h]
    rfl
  · subst hij
    exact (List.getElem?_eq_none (by omega)).symm
  · rfl

theorem mem_indicesWhere {p : α → Bool} {l : List α} {i : ℕ} :
    i ∈ indicesWhere p l ↔ ∃ a, l[i]? = some a ∧ p a = true := by
  simp [indicesWhere, List.mem_zipIdx_iff_getElem?]

theorem nodup_indicesWhere (p : α → Bool) (l : List α) : (indicesWhere p l).Nodup := by
  have h : (l.zipIdx.map Prod.snd).Nodup := by
    rw [List.zipIdx_map_snd]
    exact List.nodup_range'
  exact h.sublist (List.filter_sublist.map _)

theorem entriesAt_indicesWhere {p : α → Bool} {l : List α} {idxs : List ℕ}
    (hi : ∀ i ∈ idxs, i ∈ indicesWhere p l) :
    ∀ a ∈ entriesAt l idxs, a ∈ l ∧ p a = true := by
  intro a ha
  obtain ⟨i, hmem, hget⟩ := List.mem_filterMap.mp ha
  obtain ⟨b, hb, hp⟩ := mem_indicesWhere.mp (hi i hmem)
  obtain rfl : a = b := by simpa [hget] using hb
  exact ⟨List.mem_of_getElem? hget, hp⟩

theorem length_entriesAt {l : List α} {idxs : List ℕ} (hi : ∀ i ∈ idxs, i < l.length) :
    (entriesAt l idxs).length = idxs.length := by
  induction idxs with
  | nil => rfl
  | cons i idxs ih =>
    have h := hi i (by simp)
    have hrest := ih fun j hj ↦ hi j (by simp [hj])
    simp only [entriesAt] at hrest
    simp [entriesAt, h, hrest]

theorem nodup_map_entriesAt {f : α → β} {l : List α} (hl : (l.map f).Nodup) {idxs : List ℕ}
    (hi : idxs.Nodup) : ((entriesAt l idxs).map f).Nodup := by
  induction idxs with
  | nil => exact List.nodup_nil
  | cons i idxs ih =>
    obtain ⟨hnot, hi⟩ := List.nodup_cons.mp hi
    have hrest := ih hi
    cases ha : l[i]? with
    | none =>
      have hcons : entriesAt l (i :: idxs) = entriesAt l idxs := by simp [entriesAt, ha]
      rwa [hcons]
    | some a =>
      have hcons : entriesAt l (i :: idxs) = a :: entriesAt l idxs := by simp [entriesAt, ha]
      rw [hcons, List.map_cons]
      refine List.nodup_cons.mpr ⟨fun hmem ↦ hnot ?_, hrest⟩
      obtain ⟨b, hb, hfb⟩ := List.mem_map.mp hmem
      obtain ⟨j, hj, hget⟩ := List.mem_filterMap.mp hb
      have hlt : i < (l.map f).length := by
        rw [List.length_map]
        exact (List.getElem?_eq_some_iff.mp ha).1
      have hsame : (l.map f)[i]? = (l.map f)[j]? := by
        rw [List.getElem?_map, List.getElem?_map, ha, hget, Option.map_some, Option.map_some, hfb]
      obtain rfl := (List.getElem?_inj hlt hl).mp hsame
      exact hj

theorem lt_length_of_mem_indicesWhere {p : α → Bool} {l : List α} {i : ℕ}
    (h : i ∈ indicesWhere p l) : i < l.length := by
  obtain ⟨a, ha, _⟩ := mem_indicesWhere.mp h
  exact (List.getElem?_eq_some_iff.mp ha).1

theorem length_indicesWhere (p : α → Bool) (l : List α) :
    (indicesWhere p l).length = l.countP p := by
  have h : l.countP p = l.zipIdx.countP fun x ↦ p x.1 := by
    conv_lhs => rw [← List.zipIdx_map_fst 0 l, List.countP_map]
    rfl
  rw [h, indicesWhere, List.length_map, List.countP_eq_length_filter]

/-- Deleting positions in decreasing order deletes exactly the entries that
stood there: the positions still to come are not shifted. -/
theorem foldl_eraseIdx_perm {idxs : List ℕ} (hs : idxs.Pairwise (· > ·)) :
    ∀ {l : List α}, (∀ i ∈ idxs, i < l.length) →
      l.Perm (entriesAt l idxs ++ idxs.foldl List.eraseIdx l) := by
  induction idxs with
  | nil => intro l _; exact List.Perm.refl l
  | cons i idxs ih =>
    intro l hl
    have hi : i < l.length := hl i (by simp)
    obtain ⟨hlt, hs⟩ := List.pairwise_cons.mp hs
    have hget : ∀ j ∈ idxs, (l.eraseIdx i)[j]? = l[j]? := fun j hj ↦
      List.getElem?_eraseIdx_of_lt (hlt j hj)
    have hlen : ∀ j ∈ idxs, j < (l.eraseIdx i).length := by
      intro j hj
      have hji := hlt j hj
      rw [List.length_eraseIdx_of_lt hi]
      omega
    have hentries : entriesAt (l.eraseIdx i) idxs = entriesAt l idxs :=
      List.filterMap_congr hget
    have h := ih hs hlen
    rw [hentries] at h
    have hi? : l[i]? = some l[i] := List.getElem?_eq_getElem hi
    have hcons : entriesAt l (i :: idxs) = l[i] :: entriesAt l idxs := by
      simp [entriesAt, hi?]
    rw [hcons, List.foldl_cons, List.cons_append]
    exact (perm_cons_eraseIdx hi?).trans (h.cons _)

theorem dropAll_perm {l : List α} {idxs : List ℕ} (hnd : idxs.Nodup)
    (hl : ∀ i ∈ idxs, i < l.length) : l.Perm (entriesAt l idxs ++ dropAll l idxs) := by
  have hp := List.perm_insertionSort (· ≥ ·) idxs
  have hpair : (idxs.insertionSort (· ≥ ·)).Pairwise (· > ·) := by
    have hge := List.pairwise_insertionSort (· ≥ ·) idxs
    have hne : (idxs.insertionSort (· ≥ ·)).Pairwise (· ≠ ·) := hp.nodup_iff.mpr hnd
    exact (hge.and hne).imp fun ⟨h₁, h₂⟩ ↦ lt_of_le_of_ne h₁ (Ne.symm h₂)
  have h := foldl_eraseIdx_perm hpair (l := l) fun i hi ↦ hl i (hp.mem_iff.mp hi)
  exact h.trans ((hp.filterMap _).append_right _)

theorem foldl_eraseIdx_sublist (l : List α) (idxs : List ℕ) :
    (idxs.foldl List.eraseIdx l).Sublist l := by
  induction idxs generalizing l with
  | nil => exact List.Sublist.refl l
  | cons i idxs ih => exact (ih _).trans (List.eraseIdx_sublist l i)

theorem dropAll_sublist (l : List α) (idxs : List ℕ) : (dropAll l idxs).Sublist l :=
  foldl_eraseIdx_sublist l _

theorem map_dropAll (f : α → β) (l : List α) (idxs : List ℕ) :
    (dropAll l idxs).map f = dropAll (l.map f) idxs := by
  unfold dropAll
  induction idxs.insertionSort (· ≥ ·) generalizing l with
  | nil => rfl
  | cons i idxs ih => rw [List.foldl_cons, List.foldl_cons, ih, List.eraseIdx_map]

theorem entriesAt_map (f : α → β) (l : List α) (idxs : List ℕ) :
    entriesAt (l.map f) idxs = (entriesAt l idxs).map f := by
  simp only [entriesAt, List.getElem?_map, List.map_filterMap]

theorem indicesWhere_map (f : α → β) (p : β → Bool) (l : List α) :
    indicesWhere p (l.map f) = indicesWhere (fun a ↦ p (f a)) l := by
  simp only [indicesWhere, List.zipIdx_map, List.filter_map, List.map_map]
  rfl

theorem indicesWhere_append_singleton (p : α → Bool) (l : List α) (a : α) :
    indicesWhere p (l ++ [a]) = indicesWhere p l ++ if p a then [l.length] else [] := by
  simp only [indicesWhere, List.zipIdx_append, List.filter_append, List.map_append]
  by_cases h : p a = true <;> simp [h]

/-- Reading the entries back at the positions of a test filters the list. -/
theorem entriesAt_indicesWhere_eq (p : α → Bool) (l : List α) :
    entriesAt l (indicesWhere p l) = l.filter p := by
  induction l using List.reverseRecOn with
  | nil => rfl
  | append_singleton l a ih =>
    have hold : entriesAt (l ++ [a]) (indicesWhere p l) = entriesAt l (indicesWhere p l) := by
      refine List.filterMap_congr fun i hi ↦ ?_
      exact List.getElem?_append_left (lt_length_of_mem_indicesWhere hi)
    rw [indicesWhere_append_singleton, List.filter_append]
    simp only [entriesAt, List.filterMap_append] at hold ih ⊢
    rw [hold, ih]
    cases h : p a <;> simp [h]

theorem pairwise_indicesWhere (p : α → Bool) (l : List α) :
    (indicesWhere p l).Pairwise (· < ·) := by
  have h : (l.zipIdx.map Prod.snd).Pairwise (· < ·) := by
    rw [List.zipIdx_map_snd]
    exact List.pairwise_lt_range'
  exact h.sublist (List.filter_sublist.map _)

theorem dropAll_of_pairwise {l : List α} {idxs : List ℕ} (h : idxs.Pairwise (· < ·)) :
    dropAll l idxs = idxs.reverse.foldl List.eraseIdx l := by
  have hs : idxs.insertionSort (· ≥ ·) = idxs.reverse := by
    refine List.Perm.eq_of_pairwise' (List.pairwise_insertionSort _ _) ?_
      ((List.perm_insertionSort _ _).trans idxs.reverse_perm.symm)
    rw [List.pairwise_reverse]
    exact h.imp fun h ↦ h.le
  rw [dropAll, hs]

theorem dropAll_indicesWhere (p : α → Bool) (l : List α) :
    dropAll l (indicesWhere p l) = l.filter fun a ↦ !p a := by
  rw [dropAll_of_pairwise (pairwise_indicesWhere p l)]
  induction l using List.reverseRecOn with
  | nil => rfl
  | append_singleton l a ih =>
    have hkeep : ∀ (idxs : List ℕ) (l : List α), (∀ i ∈ idxs, i < l.length) →
        idxs.Pairwise (· > ·) →
        idxs.foldl List.eraseIdx (l ++ [a]) = idxs.foldl List.eraseIdx l ++ [a] := by
      intro idxs
      induction idxs with
      | nil => intros; rfl
      | cons i idxs ih =>
        intro l hlt hp
        obtain ⟨hgt, hp⟩ := List.pairwise_cons.mp hp
        have hi := hlt i (by simp)
        rw [List.foldl_cons, List.foldl_cons, List.eraseIdx_append_of_lt_length hi]
        refine ih _ (fun j hj ↦ ?_) hp
        have hji := hgt j hj
        rw [List.length_eraseIdx_of_lt hi]
        omega
    have hlt : ∀ i ∈ (indicesWhere p l).reverse, i < l.length := fun i hi ↦
      lt_length_of_mem_indicesWhere (List.mem_reverse.mp hi)
    have hpair : (indicesWhere p l).reverse.Pairwise (· > ·) := by
      rw [List.pairwise_reverse]
      exact pairwise_indicesWhere p l
    rw [indicesWhere_append_singleton, List.filter_append, ← ih]
    cases h : p a with
    | false => simp [h, hkeep _ l hlt hpair]
    | true =>
      have hlast : (l ++ [a]).eraseIdx l.length = l := by
        rw [List.eraseIdx_append_of_length_le le_rfl]
        simp
      simp [h, hlast]

theorem entriesAt_take {l : List α} {idxs : List ℕ} (h : ∀ i ∈ idxs, i < l.length) (n : ℕ) :
    entriesAt l (idxs.take n) = (entriesAt l idxs).take n := by
  induction idxs generalizing n with
  | nil => simp [entriesAt]
  | cons i idxs ih =>
    have hi := h i (by simp)
    have hrest := ih fun j hj ↦ h j (List.mem_cons_of_mem _ hj)
    cases n with
    | zero => simp [entriesAt]
    | succ n =>
      have hget : l[i]? = some l[i] := List.getElem?_eq_getElem hi
      simp only [entriesAt, List.take_succ_cons, List.filterMap_cons, hget] at hrest ⊢
      rw [hrest n]

/-- Entries read at increasing positions stand in the order of the list. -/
theorem entriesAt_sublist {l : List α} {idxs : List ℕ} (hp : idxs.Pairwise (· < ·))
    (hlt : ∀ i ∈ idxs, i < l.length) : (entriesAt l idxs).Sublist l := by
  have hall : idxs ⊆ indicesWhere (fun _ ↦ true) l := fun i hi ↦
    mem_indicesWhere.mpr ⟨_, List.getElem?_eq_getElem (hlt i hi), rfl⟩
  have hnd : idxs.Nodup := hp.imp fun h ↦ h.ne
  have hsub : idxs.Sublist (indicesWhere (fun _ ↦ true) l) :=
    List.sublist_of_subperm_of_pairwise (List.subperm_of_subset hnd hall) hp
      (pairwise_indicesWhere _ l)
  have hentries : (entriesAt l idxs).Sublist (entriesAt l (indicesWhere (fun _ ↦ true) l)) :=
    hsub.filterMap _
  rwa [entriesAt_indicesWhere_eq, List.filter_true] at hentries

theorem filter_indicesWhere (p q : α → Bool) (l : List α) :
    (indicesWhere p l).filter (fun i ↦ (l[i]?).any q) = indicesWhere (fun a ↦ p a && q a) l := by
  induction l using List.reverseRecOn with
  | nil => rfl
  | append_singleton l a ih =>
    rw [indicesWhere_append_singleton, indicesWhere_append_singleton, List.filter_append, ← ih]
    congr 1
    · refine List.filter_congr fun i hi ↦ ?_
      rw [List.getElem?_append_left (lt_length_of_mem_indicesWhere hi)]
    · cases hp : p a <;> cases hq : q a <;> simp [hq]

theorem mapM_eq_some {α β : Type*} {f : α → Option β} {l : List α} {r : List β}
    (h : List.Forall₂ (fun a b ↦ f a = some b) l r) : l.mapM f = some r := by
  induction h with
  | nil => rfl
  | cons ha _ ih =>
    rw [List.mapM_cons, ha, ih]
    rfl

theorem forall₂_of_mapM {α β : Type*} {f : α → Option β} {l : List α} {r : List β}
    (h : l.mapM f = some r) : List.Forall₂ (fun a b ↦ f a = some b) l r := by
  induction l generalizing r with
  | nil =>
    obtain rfl := Option.some.inj h
    exact .nil
  | cons a l ih =>
    rw [List.mapM_cons] at h
    obtain ⟨b, hb, h⟩ := Option.bind_eq_some_iff.mp h
    obtain ⟨bs, hbs, h⟩ := Option.bind_eq_some_iff.mp h
    obtain rfl := Option.some.inj h
    exact .cons hb (ih hbs)

theorem exists_of_mapM {α β : Type*} {f : α → Option β} {l : List α} {r : List β}
    (h : l.mapM f = some r) {i : ℕ} {b : β} (hb : r[i]? = some b) :
    ∃ a, l[i]? = some a ∧ f a = some b := by
  have hall := forall₂_of_mapM h
  have hlt : i < l.length := hall.length_eq ▸ (List.getElem?_eq_some_iff.mp hb).1
  have hzip : (l[i], b) ∈ l.zip r := by
    refine List.mem_iff_getElem?.mpr ⟨i, ?_⟩
    rw [List.getElem?_zip_eq_some]
    exact ⟨List.getElem?_eq_getElem hlt, hb⟩
  exact ⟨l[i], List.getElem?_eq_getElem hlt, (List.forall₂_iff_zip.mp hall).2 hzip⟩

theorem exists_forall₂ {α β : Type*} {R : α → β → Prop} {l : List α} (h : ∀ a ∈ l, ∃ b, R a b) :
    ∃ r, List.Forall₂ R l r ∧ ∀ b ∈ r, ∃ a ∈ l, R a b := by
  induction l with
  | nil => exact ⟨[], .nil, by simp⟩
  | cons a l ih =>
    obtain ⟨b, hb⟩ := h a (by simp)
    obtain ⟨r, hr, hback⟩ := ih fun a' h' ↦ h a' (List.mem_cons_of_mem _ h')
    refine ⟨b :: r, .cons hb hr, List.forall_mem_cons.mpr ⟨⟨a, by simp, hb⟩, fun c hc ↦ ?_⟩⟩
    obtain ⟨a', ha', hR⟩ := hback c hc
    exact ⟨a', List.mem_cons_of_mem _ ha', hR⟩

theorem map_modify_of_comm {f : α → α} {g : β → β} {p : α → β} (l : List α) (i : ℕ)
    (h : ∀ a, p (f a) = g (p a)) : (l.modify i f).map p = (l.map p).modify i g := by
  refine List.ext_getElem? fun j ↦ ?_
  rw [List.getElem?_map, List.getElem?_modify, List.getElem?_modify, List.getElem?_map]
  split_ifs <;> cases l[j]? <;> simp [h]

theorem mem_modify {f : α → α} {l : List α} {i : ℕ} {a : α} (h : a ∈ l.modify i f) :
    a ∈ l ∨ ∃ b, l[i]? = some b ∧ a = f b := by
  obtain ⟨j, hj⟩ := List.mem_iff_getElem?.mp h
  rw [List.getElem?_modify] at hj
  obtain ⟨b, hb, rfl⟩ := Option.map_eq_some_iff.mp hj
  split_ifs with hij
  · exact .inr ⟨b, hij ▸ hb, rfl⟩
  · exact .inl (List.mem_of_getElem? hb)

/-- Changing one entry takes out its image, if it has one, and puts in the new one. -/
theorem filterMap_set_perm {α β : Type*} (g : α → Option β) {l : List α} {i : ℕ} {a : α}
    (h : l[i]? = some a) (b : α) :
    ((l.set i b).filterMap g ++ (g a).toList).Perm (l.filterMap g ++ (g b).toList) := by
  have h₁ := (set_perm h b).filterMap g
  have h₂ := (perm_cons_eraseIdx h).filterMap g
  rw [← List.singleton_append, List.filterMap_append] at h₁ h₂
  have hone (c : α) : [c].filterMap g = (g c).toList := by cases hc : g c <;> simp [hc]
  rw [hone] at h₁ h₂
  refine (h₁.append_right _).trans (.trans ?_ (h₂.symm.append_right _))
  rw [← Multiset.coe_eq_coe]
  simp only [← Multiset.coe_add]
  ac_rfl

/-- An entry of a list in which one place was written is the new one or an old one. -/
theorem getElem?_set_cases {l : List α} {i j : ℕ} {a b : α} (h : (l.set i a)[j]? = some b) :
    j = i ∧ b = a ∨ j ≠ i ∧ l[j]? = some b := by
  rcases eq_or_ne i j with rfl | hij
  · obtain ⟨hi, _⟩ := List.getElem?_eq_some_iff.mp h
    rw [List.length_set] at hi
    rw [List.getElem?_set_self hi] at h
    exact .inl ⟨rfl, (Option.some.inj h).symm⟩
  · rw [List.getElem?_set_ne hij] at h
    exact .inr ⟨hij.symm, h⟩

theorem getElem?_append_singleton_cases {l : List α} {j : ℕ} {a b : α}
    (h : (l ++ [a])[j]? = some b) : j = l.length ∧ b = a ∨ l[j]? = some b := by
  rcases Nat.lt_or_ge j l.length with hj | hj
  · rw [List.getElem?_append_left hj] at h
    exact .inr h
  · rw [List.getElem?_append_right hj, List.getElem?_singleton] at h
    split_ifs at h with hz
    exact .inl ⟨by omega, (Option.some.inj h).symm⟩

theorem modify_eq_set {f : α → α} {l : List α} {i : ℕ} {a : α} (h : l[i]? = some a) :
    l.modify i f = l.set i (f a) := by
  rw [List.modify_eq_set_getElem?, h]
  rfl

theorem flatMap_filter_perm {f : α → ℕ} {w : ℕ} {l : List α} (h : ∀ a ∈ l, f a < w) :
    ((List.range w).flatMap fun k ↦ l.filter fun a ↦ f a = k).Perm l := by
  induction w generalizing l with
  | zero =>
    cases l with
    | nil => exact .nil
    | cons a l => exact absurd (h a List.mem_cons_self) (Nat.not_lt_zero _)
  | succ w ih =>
    have hlow : ∀ a ∈ l.filter fun a ↦ f a ≠ w, f a < w := by
      intro a ha
      obtain ⟨hmem, hne⟩ := List.mem_filter.mp ha
      have hlt := h a hmem
      have hne' : f a ≠ w := by simpa using hne
      omega
    have hsame : ((List.range w).flatMap fun k ↦ l.filter fun a ↦ f a = k) =
        (List.range w).flatMap fun k ↦ (l.filter fun a ↦ f a ≠ w).filter fun a ↦ f a = k := by
      refine List.flatMap_congr fun k hk ↦ ?_
      rw [List.filter_filter]
      refine List.filter_congr fun a _ ↦ ?_
      have hlt := List.mem_range.mp hk
      by_cases he : f a = k
      · simp [he, hlt.ne]
      · simp [he]
    rw [List.range_succ, List.flatMap_append, hsame]
    have hsplit := List.filter_append_perm (fun a ↦ decide (f a ≠ w)) l
    refine ((ih hlow).append_right _).trans (.trans (.append_left _ ?_) hsplit)
    refine .of_eq ?_
    simp

theorem flatMap_stripe_perm (l : List α) {w : ℕ} (h : l ≠ [] → 0 < w) :
    ((List.range w).flatMap fun k ↦ stripe l k w).Perm l := by
  have hlow : ∀ x ∈ l.zipIdx, x.2 % w < w := by
    intro x hx
    refine Nat.mod_lt _ (h ?_)
    rintro rfl
    cases hx
  have hperm := (flatMap_filter_perm hlow).map Prod.fst
  rw [List.map_flatMap, List.zipIdx_map_fst] at hperm
  exact hperm

section Ordered

variable [DecidableEq α]

theorem countP_eq_idxOf {R : α → α → Prop} [DecidableRel R]
    (hasymm : ∀ a b, R a b → ¬ R b a) {l : List α} (h : l.Pairwise R) {a : α} (ha : a ∈ l) :
    l.countP (fun b ↦ R b a) = l.idxOf a := by
  induction l with
  | nil => cases ha
  | cons b l ih =>
    obtain ⟨hb, hl⟩ := List.pairwise_cons.mp h
    by_cases he : b = a
    · subst he
      have hnone : ∀ c ∈ b :: l, ¬ R c b := by
        refine List.forall_mem_cons.mpr ⟨fun hself ↦ hasymm b b hself hself, fun c hc ↦ ?_⟩
        exact hasymm b c (hb c hc)
      rw [List.idxOf_cons_self, List.countP_eq_zero.mpr fun c hc ↦ by simpa using hnone c hc]
    · have hmem : a ∈ l := (List.mem_cons.mp ha).resolve_left (Ne.symm he)
      rw [List.idxOf_cons_ne l he, List.countP_cons_of_pos (by simpa using hb a hmem), ih hl hmem]

theorem findIdx_of_nodup {parts : List (List α)} (h : parts.flatten.Nodup) {b : ℕ} {a : α}
    {part : List α} (hpart : parts[b]? = some part) (ha : a ∈ part) :
    parts.findIdx (a ∈ ·) = b := by
  induction parts generalizing b with
  | nil => cases hpart
  | cons first parts ih =>
    rw [List.flatten_cons] at h
    obtain ⟨-, hrest, hapart⟩ := List.nodup_append.mp h
    cases b with
    | zero =>
      obtain rfl := Option.some.inj hpart
      rw [List.findIdx_cons, decide_eq_true ha, cond_true]
    | succ b =>
      have hnot : a ∉ first := fun hfirst ↦ hapart a hfirst a
        (List.mem_flatten.mpr ⟨part, List.mem_of_getElem? hpart, ha⟩) rfl
      rw [List.findIdx_cons, decide_eq_false hnot, cond_false, ih hrest hpart]

theorem orderedInsert_lex {f : ℕ → ℕ} {a : ℕ} {l : List ℕ} (ha : ∀ b ∈ l, a < b)
    (h : l.Pairwise fun i j ↦ f i < f j ∨ f i = f j ∧ i < j) :
    (l.orderedInsert (fun i j ↦ f i ≤ f j) a).Pairwise
      fun i j ↦ f i < f j ∨ f i = f j ∧ i < j := by
  induction l with
  | nil => exact List.pairwise_singleton _ _
  | cons b l ih =>
    obtain ⟨hb, hl⟩ := List.pairwise_cons.mp h
    obtain ⟨hab, hal⟩ := List.forall_mem_cons.mp ha
    rw [List.orderedInsert_cons]
    split_ifs with hle
    · refine List.pairwise_cons.mpr ⟨List.forall_mem_cons.mpr ⟨?_, fun c hc ↦ ?_⟩, h⟩
      · omega
      · have hbc := hb c hc
        have hac := hal c hc
        omega
    · refine List.pairwise_cons.mpr ⟨fun c hc ↦ ?_, ih hal hl⟩
      rcases (List.mem_orderedInsert _).mp hc with rfl | hc
      · exact .inl (not_le.mp hle)
      · exact hb c hc

theorem insertionSort_lex (f : ℕ → ℕ) {l : List ℕ} (h : l.Pairwise (· < ·)) :
    (l.insertionSort fun i j ↦ f i ≤ f j).Pairwise fun i j ↦ f i < f j ∨ f i = f j ∧ i < j := by
  induction l with
  | nil => exact .nil
  | cons a l ih =>
    obtain ⟨ha, hl⟩ := List.pairwise_cons.mp h
    refine orderedInsert_lex (fun b hb ↦ ha b ?_) (ih hl)
    exact (List.perm_insertionSort _ l).mem_iff.mp hb

end Ordered

section Maxima

variable {α : Type*} [LinearOrder α]

theorem start_le_foldl_max (l : List α) (start : α) : start ≤ l.foldl max start := by
  induction l generalizing start with
  | nil => exact le_rfl
  | cons a l ih =>
    rw [List.foldl_cons]
    exact (le_max_left start a).trans (ih _)

theorem le_foldl_max {l : List α} {a : α} (start : α) (h : a ∈ l) : a ≤ l.foldl max start := by
  induction l generalizing start with
  | nil => cases h
  | cons b l ih =>
    rw [List.foldl_cons]
    rcases List.mem_cons.mp h with rfl | h
    · exact (le_max_right start a).trans (start_le_foldl_max l _)
    · exact ih _ h

end Maxima

end NemoRL.Foundations.Positions
