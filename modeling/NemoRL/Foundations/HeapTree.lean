import Mathlib

/-! A complete binary tree over `n` places on a circle, numbered from its root. -/

namespace NemoRL.Foundations.HeapTree

/-- The number of a place in the tree with the given root. -/
def nodeIndex (n root own : ℕ) : ℕ := (((own : ℤ) - root) % n).toNat

/-- The place of a node of the tree. -/
def place (n root node : ℕ) : ℕ := (root + node) % n

/-- The nodes below a node. -/
def childNodes (n node : ℕ) : List ℕ := [2 * node + 1, 2 * node + 2].filter (· < n)

/-- The places below a place. -/
def childPlaces (n root own : ℕ) : List ℕ := (childNodes n (nodeIndex n root own)).map (place n root)

variable {n root own p c k : ℕ}

theorem mem_childNodes : c ∈ childNodes n k ↔ (c = 2 * k + 1 ∨ c = 2 * k + 2) ∧ c < n := by
  simp [childNodes]

theorem nodup_childNodes (n k : ℕ) : (childNodes n k).Nodup := by
  apply List.Nodup.filter
  simp

theorem nodeIndex_lt (hn : 0 < n) (root own : ℕ) : nodeIndex n root own < n := by
  have h₀ := Int.emod_nonneg ((own : ℤ) - root) (by omega : (n : ℤ) ≠ 0)
  have h₁ := Int.emod_lt_of_pos ((own : ℤ) - root) (by omega : (0 : ℤ) < n)
  unfold nodeIndex
  omega

theorem place_lt (hn : 0 < n) (root k : ℕ) : place n root k < n := Nat.mod_lt _ hn

theorem place_nodeIndex (h : own < n) (root : ℕ) : place n root (nodeIndex n root own) = own := by
  have h₀ := Int.emod_nonneg ((own : ℤ) - root) (by omega : (n : ℤ) ≠ 0)
  have h₁ : ((place n root (nodeIndex n root own) : ℕ) : ℤ) = own := by
    unfold place nodeIndex
    rw [Int.natCast_mod, Int.natCast_add, Int.toNat_of_nonneg h₀, Int.add_emod_emod,
      add_sub_cancel]
    exact Int.emod_eq_of_lt (by omega) (by omega)
  exact_mod_cast h₁

theorem nodeIndex_place (h : k < n) (root : ℕ) : nodeIndex n root (place n root k) = k := by
  unfold nodeIndex place
  rw [Int.natCast_mod, Int.natCast_add, Int.emod_sub_emod, add_sub_cancel_left,
    Int.emod_eq_of_lt (by omega) (by omega), Int.toNat_natCast]

theorem nodeIndex_self (n root : ℕ) : nodeIndex n root root = 0 := by
  simp [nodeIndex]

theorem nodeIndex_inj (hp : p < n) (hc : c < n) :
    nodeIndex n root p = nodeIndex n root c ↔ p = c := by
  constructor
  · intro h
    rw [← place_nodeIndex hp root, h, place_nodeIndex hc root]
  · rintro rfl
    rfl

theorem mem_childPlaces (hc : c < n) :
    c ∈ childPlaces n root p ↔ nodeIndex n root c ∈ childNodes n (nodeIndex n root p) := by
  unfold childPlaces
  constructor
  · intro h
    obtain ⟨k, hk, rfl⟩ := List.mem_map.mp h
    rwa [nodeIndex_place (mem_childNodes.mp hk).2]
  · intro h
    exact List.mem_map.mpr ⟨_, h, place_nodeIndex hc root⟩

theorem nodup_childPlaces (n root own : ℕ) : (childPlaces n root own).Nodup := by
  apply (nodup_childNodes _ _).map_on
  intro j hj k hk h
  rw [← nodeIndex_place (mem_childNodes.mp hj).2 root, h, nodeIndex_place (mem_childNodes.mp hk).2]

theorem lt_of_mem_childPlaces (h : c ∈ childPlaces n root p) : c < n := by
  obtain ⟨k, hk, rfl⟩ := List.mem_map.mp h
  exact place_lt (by have := (mem_childNodes.mp hk).2; omega) root k

theorem root_not_child (h : root ∈ childPlaces n root p) : False := by
  rw [mem_childPlaces (lt_of_mem_childPlaces h), nodeIndex_self, mem_childNodes] at h
  omega

theorem parent_unique {p' : ℕ} (hp : p < n) (hp' : p' < n) (h : c ∈ childPlaces n root p)
    (h' : c ∈ childPlaces n root p') : p = p' := by
  have hc := lt_of_mem_childPlaces h
  rw [mem_childPlaces hc, mem_childNodes] at h h'
  apply (nodeIndex_inj hp hp').mp (?_ : nodeIndex n root p = nodeIndex n root p')
  omega

theorem exists_parent (hc : c < n) (hr : c ≠ root) (hroot : root < n) :
    ∃ p < n, c ∈ childPlaces n root p ∧ nodeIndex n root p < nodeIndex n root c := by
  have hpos : nodeIndex n root c ≠ 0 := by
    rw [← nodeIndex_self n root]
    exact fun h ↦ hr ((nodeIndex_inj hc hroot).mp h)
  have hlt := nodeIndex_lt (by omega : 0 < n) root c
  have hk : (nodeIndex n root c - 1) / 2 < n := by omega
  refine ⟨place n root ((nodeIndex n root c - 1) / 2), place_lt (by omega) _ _, ?_, ?_⟩
  · rw [mem_childPlaces hc, nodeIndex_place hk, mem_childNodes]
    omega
  · rw [nodeIndex_place hk]
    omega

theorem reaches (hc : c < n) (hroot : root < n) :
    Relation.ReflTransGen (fun p c ↦ p < n ∧ c ∈ childPlaces n root p) root c := by
  generalize hk : nodeIndex n root c = k
  induction k using Nat.strong_induction_on generalizing c with
  | _ k ih =>
    by_cases hr : c = root
    · subst hr
      exact .refl
    · obtain ⟨p, hp, hm, hlt⟩ := exists_parent hc hr hroot
      exact (ih _ (hk ▸ hlt) hp rfl).tail ⟨hp, hm⟩

end NemoRL.Foundations.HeapTree
