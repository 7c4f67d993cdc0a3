import Mathlib

namespace NemoRL.Foundations.Blocks

variable {α β : Type*}

def slice (l : List α) (start stop : ℕ) : List α := (l.drop start).take (stop - start)

/-- The `i`-th of the blocks of one length that a list is cut into. -/
def block (size : ℕ) (l : List α) (i : ℕ) : List α := slice l (i * size) ((i + 1) * size)

section Ranges

theorem flatMap_take_drop (l : List α) (m k : ℕ) :
    ((List.range k).flatMap fun i ↦ (l.drop (i * m)).take m) = l.take (k * m) := by
  induction k with
  | zero => simp
  | succ k ih =>
    rw [List.range_succ, List.flatMap_append, ih, List.flatMap_singleton, Nat.succ_mul]
    exact List.take_add.symm

theorem flatMap_range_add (m k : ℕ) :
    ((List.range k).flatMap fun i ↦ (List.range m).map (· + i * m)) = List.range (k * m) := by
  induction k with
  | zero => simp
  | succ k ih =>
    rw [List.range_succ, List.flatMap_append, ih, List.flatMap_singleton, Nat.succ_mul,
      List.range_add]
    simp only [Nat.add_comm]

theorem length_flatMap_range {f : ℕ → List α} {m k : ℕ} (hf : ∀ i < k, (f i).length = m) :
    ((List.range k).flatMap f).length = k * m := by
  rw [List.length_flatMap, List.map_congr_left fun i hi ↦ hf i (List.mem_range.mp hi)]
  simp

theorem getElem?_flatMap_range {f : ℕ → List α} {m k i o : ℕ} (hf : ∀ i < k, (f i).length = m)
    (hi : i < k) (ho : o < m) : ((List.range k).flatMap f)[i * m + o]? = (f i)[o]? := by
  induction k with
  | zero => omega
  | succ k ih =>
    have hlen : ((List.range k).flatMap f).length = k * m :=
      length_flatMap_range fun i hi ↦ hf i (by omega)
    rw [List.range_succ, List.flatMap_append, List.flatMap_singleton]
    rcases Nat.lt_or_ge i k with hlt | hge
    · have hle : (i + 1) * m ≤ k * m := Nat.mul_le_mul_right m hlt
      rw [Nat.succ_mul] at hle
      rw [List.getElem?_append_left (by omega)]
      exact ih (fun i hi ↦ hf i (by omega)) hlt
    · obtain rfl : i = k := by omega
      rw [List.getElem?_append_right (by omega), hlen, Nat.add_sub_cancel_left]

/-- A walk over `k` rows of `m` positions is a walk over the positions. -/
theorem flatMap_range_mul (f : ℕ → List α) (m k : ℕ) :
    (List.range (k * m)).flatMap f =
      (List.range k).flatMap fun i ↦ (List.range m).flatMap fun j ↦ f (i * m + j) := by
  rw [← flatMap_range_add, List.flatMap_assoc]
  congr 1
  funext i
  rw [List.flatMap_map]
  simp only [Nat.add_comm]

theorem map_range_mul (f : ℕ → α) (m k : ℕ) :
    (List.range (k * m)).map f =
      (List.range k).flatMap fun i ↦ (List.range m).map fun j ↦ f (i * m + j) := by
  simp only [List.map_eq_flatMap]
  exact flatMap_range_mul _ m k

end Ranges

section Slices

variable {l : List α}

theorem length_slice {start stop : ℕ} (h : stop ≤ l.length) :
    (slice l start stop).length = stop - start := by
  rw [slice, List.length_take, List.length_drop]
  omega

theorem getElem?_slice {start stop k : ℕ} (h : k < stop - start) :
    (slice l start stop)[k]? = l[start + k]? := by
  rw [slice, List.getElem?_take_of_lt h, List.getElem?_drop]

theorem slice_eq_map (d : α) {start stop : ℕ} (h : stop ≤ l.length) :
    slice l start stop = (List.range (stop - start)).map fun k ↦ l.getD (start + k) d := by
  apply List.ext_getElem?
  intro k
  rcases Nat.lt_or_ge k (stop - start) with hk | hk
  · rw [getElem?_slice hk, List.getElem?_map, List.getElem?_range hk, Option.map_some,
      List.getD_eq_getElem?_getD, List.getElem?_eq_getElem (by omega), Option.getD_some]
  · rw [List.getElem?_eq_none (by rw [length_slice h]; exact hk),
      List.getElem?_eq_none (by rw [List.length_map, List.length_range]; exact hk)]

theorem getD_slice {d : α} {start stop k : ℕ} (hk : k < stop - start) :
    (slice l start stop).getD k d = l.getD (start + k) d := by
  rw [List.getD_eq_getElem?_getD, getElem?_slice hk, List.getD_eq_getElem?_getD]

theorem slice_slice {start stop a b : ℕ} (h : b ≤ stop - start) :
    slice (slice l start stop) a b = slice l (start + a) (start + b) := by
  rw [slice, slice, slice, List.drop_take, List.drop_drop, List.take_take]
  congr 1
  omega

theorem map_slice (f : α → β) (l : List α) (start stop : ℕ) :
    (slice l start stop).map f = slice (l.map f) start stop := by
  rw [slice, slice, List.map_take, List.map_drop]

theorem length_block {size i : ℕ} (h : (i + 1) * size ≤ l.length) :
    (block size l i).length = size := by
  rw [block, length_slice h, Nat.succ_mul, Nat.add_sub_cancel_left]

theorem block_eq (size : ℕ) (l : List α) (i : ℕ) :
    block size l i = (l.drop (i * size)).take size := by
  rw [block, slice, Nat.succ_mul, Nat.add_sub_cancel_left]

theorem getElem?_block {size i k : ℕ} (h : k < size) :
    (block size l i)[k]? = l[i * size + k]? := by
  rw [block_eq, List.getElem?_take_of_lt h, List.getElem?_drop]

theorem block_zero {c : ℕ} (h : l.length ≤ c) : block c l 0 = l := by
  rw [block_eq, Nat.zero_mul, List.drop_zero, List.take_of_length_le h]

theorem block_block {c k r i : ℕ} (h : i < k) :
    block c (block (k * c) l r) i = block c l (r * k + i) := by
  have hle : (i + 1) * c ≤ k * c := Nat.mul_le_mul_right c h
  have hsize : (r + 1) * (k * c) - r * (k * c) = k * c := by
    rw [Nat.succ_mul, Nat.add_sub_cancel_left]
  have hinside : (i + 1) * c ≤ (r + 1) * (k * c) - r * (k * c) := hsize.symm ▸ hle
  rw [block, block, slice_slice hinside, block]
  congr 1 <;> ring

/-- A block of a concatenation lies in one of the parts. -/
theorem block_flatMap {f : ℕ → List α} {c k w a i : ℕ} (hf : ∀ a < w, (f a).length = k * c)
    (ha : a < w) (hi : i < k) :
    block c ((List.range w).flatMap f) (a * k + i) = block c (f a) i := by
  have hle : (i + 1) * c ≤ k * c := Nat.mul_le_mul_right c hi
  rw [Nat.succ_mul] at hle
  apply List.ext_getElem?
  intro o
  rcases Nat.lt_or_ge o c with ho | ho
  · have hpos : (a * k + i) * c + o = a * (k * c) + (i * c + o) := by ring
    rw [getElem?_block ho, getElem?_block ho, hpos]
    exact getElem?_flatMap_range hf ha (by omega)
  · rw [block_eq, block_eq, List.getElem?_take_eq_none ho, List.getElem?_take_eq_none ho]

/-- A block of a concatenation of blocks is one of them. -/
theorem block_flatMap_self {f : ℕ → List α} {c w a : ℕ} (hf : ∀ a < w, (f a).length = c)
    (ha : a < w) : block c ((List.range w).flatMap f) a = f a := by
  have hone : block c ((List.range w).flatMap f) (a * 1 + 0) = block c (f a) 0 :=
    block_flatMap (fun a ha ↦ by rw [hf a ha, Nat.one_mul]) ha Nat.one_pos
  rw [Nat.mul_one, Nat.add_zero] at hone
  rw [hone, block_zero (hf a ha).le]

theorem flatMap_block {c n : ℕ} (h : l.length = n * c) :
    (List.range n).flatMap (block c l) = l := by
  simp only [funext (block_eq c l)]
  rw [flatMap_take_drop, ← h, List.take_length]

/-- The blocks of groups of one length, end to end, are the groups. -/
theorem map_block_flatten {c : ℕ} {groups : List (List α)} (h : ∀ g ∈ groups, g.length = c) :
    (List.range groups.length).map (block c groups.flatten) = groups := by
  induction groups with
  | nil => rfl
  | cons g groups ih =>
    obtain ⟨hg, hrest⟩ := List.forall_mem_cons.mp h
    rw [List.length_cons, List.range_succ_eq_map, List.map_cons, List.map_map, List.flatten_cons]
    congr 1
    · rw [block_eq, Nat.zero_mul, List.drop_zero, ← hg, List.take_left]
    · refine Eq.trans (List.map_congr_left fun i _ ↦ ?_) (ih hrest)
      have hstart : (i + 1) * c = g.length + i * c := by rw [hg, Nat.succ_mul, Nat.add_comm]
      simp only [Function.comp_apply, Nat.succ_eq_add_one, block_eq]
      rw [hstart, List.drop_length_add_append]

/-- The blocks of a list add up to what the list adds up to. -/
theorem sum_map_block [AddMonoid α] {c n : ℕ} (h : l.length = n * c) :
    ((List.range n).map fun i ↦ (block c l i).sum).sum = l.sum := by
  conv_rhs => rw [← flatMap_block h, List.flatMap_def, List.sum_flatten, List.map_map]
  rfl

theorem block_slice {c a b i : ℕ} (h : i < b - a) :
    block c (slice l (a * c) (b * c)) i = block c l (a + i) := by
  have hle : (i + 1) * c ≤ (b - a) * c := Nat.mul_le_mul_right c h
  rw [Nat.sub_mul] at hle
  rw [block, slice_slice hle, block]
  congr 1 <;> ring

end Slices

section Walks

theorem mapM_ok {ε : Type*} {f : α → Except ε β} {R : α → β → Prop} {l : List α}
    (h : ∀ a ∈ l, ∃ b, f a = .ok b ∧ R a b) : ∃ r, l.mapM f = .ok r ∧ List.Forall₂ R l r := by
  induction l with
  | nil => exact ⟨[], rfl, .nil⟩
  | cons a l ih =>
    obtain ⟨hhead, hrest⟩ := List.forall_mem_cons.mp h
    obtain ⟨b, hb, hR⟩ := hhead
    obtain ⟨r, hr, hall⟩ := ih hrest
    refine ⟨b :: r, ?_, .cons hR hall⟩
    rw [List.mapM_cons, hb, hr]
    rfl

theorem bind_eq_ok {γ ε : Type*} {r : Except ε α} {f : α → Except ε γ} {c : γ}
    (h : r.bind f = .ok c) : ∃ a, r = .ok a ∧ f a = .ok c := by
  cases r with
  | error e => cases h
  | ok a => exact ⟨a, rfl, h⟩

theorem forall₂_of_mapM_ok {ε : Type*} {f : α → Except ε β} {l : List α} {r : List β}
    (h : l.mapM f = .ok r) : List.Forall₂ (fun a b ↦ f a = .ok b) l r := by
  induction l generalizing r with
  | nil =>
    obtain rfl := Except.ok.inj h
    exact .nil
  | cons a l ih =>
    rw [List.mapM_cons] at h
    obtain ⟨b, hb, h⟩ := bind_eq_ok h
    obtain ⟨bs, hbs, h⟩ := bind_eq_ok h
    obtain rfl := Except.ok.inj h
    exact .cons hb (ih hbs)

theorem mapM_pure_of_forall {M : Type v → Type w} [Monad M] [LawfulMonad M] {α : Type u}
    {β : Type v} {f : α → M β} {g : α → β} {l : List α} (h : ∀ a ∈ l, f a = pure (g a)) :
    l.mapM f = pure (l.map g) := by
  induction l with
  | nil => exact List.mapM_nil
  | cons a l ih =>
    obtain ⟨ha, hrest⟩ := List.forall_mem_cons.mp h
    rw [List.mapM_cons, ha, ih hrest, pure_bind, pure_bind]
    rfl

theorem mapM_some {f : α → Option β} {g : α → β} {l : List α} (h : ∀ a ∈ l, f a = some (g a)) :
    l.mapM f = some (l.map g) := mapM_pure_of_forall h

theorem map_eq_map_of_forall₂ {γ : Type*} {f : α → γ} {g : β → γ} {l : List α} {r : List β}
    (h : List.Forall₂ (fun a b ↦ f a = g b) l r) : r.map g = l.map f := by
  induction h with
  | nil => rfl
  | cons hb _ ih => rw [List.map_cons, List.map_cons, hb, ih]

end Walks

section Windows

theorem le_ceil_mul {e : ℕ} (n : ℕ) (he : 0 < e) : n ≤ (n + e - 1) / e * e := by
  have hmod := Nat.div_add_mod (n + e - 1) e
  have hlt := Nat.mod_lt (n + e - 1) he
  rw [Nat.mul_comm] at hmod
  omega

/-- The windows of length `e`, the last cut off at `n`, cover the first `n` positions in order. -/
theorem flatMap_windows {e : ℕ} (n : ℕ) (he : 0 < e) :
    ((List.range ((n + e - 1) / e)).flatMap fun c ↦
      (List.range (min n ((c + 1) * e) - c * e)).map (c * e + ·)) = List.range n := by
  have hcovered : ∀ k, ((List.range k).flatMap fun c ↦
      (List.range (min n ((c + 1) * e) - c * e)).map (c * e + ·)) =
        List.range (min n (k * e)) := by
    intro k
    induction k with
    | zero => simp
    | succ k ih =>
      rw [List.range_succ, List.flatMap_append, ih, List.flatMap_singleton]
      rcases Nat.lt_or_ge n (k * e) with hlt | hge
      · have hnone : min n ((k + 1) * e) - k * e = 0 := by omega
        have hsame : min n (k * e) = min n ((k + 1) * e) := by
          rw [Nat.succ_mul]
          omega
        rw [hnone, List.range_zero, List.map_nil, List.append_nil, hsame]
      · have hnext : min n ((k + 1) * e) = k * e + (min n ((k + 1) * e) - k * e) := by
          rw [Nat.succ_mul]
          omega
        rw [Nat.min_eq_right hge, ← List.range_add, ← hnext]
  rw [hcovered, Nat.min_eq_left (le_ceil_mul n he)]

theorem window_start_lt {e n c : ℕ} (he : 0 < e) (h : c < (n + e - 1) / e) : c * e < n := by
  have hle : (c + 1) * e ≤ n + e - 1 := (Nat.le_div_iff_mul_le he).mp h
  rw [Nat.succ_mul] at hle
  omega

theorem dvd_window {w e n : ℕ} (c : ℕ) (hn : w ∣ n) (he : w ∣ e) :
    w ∣ min n ((c + 1) * e) - c * e := by
  apply Nat.dvd_sub
  · rcases Nat.le_total n ((c + 1) * e) with h | h
    · rw [Nat.min_eq_left h]
      exact hn
    · rw [Nat.min_eq_right h]
      exact he.mul_left _
  · exact he.mul_left _

end Windows

end NemoRL.Foundations.Blocks
