import Mathlib
import NemoRL.Foundations.Blocks

namespace NemoRL.Foundations.Ragged

open Blocks

variable {α β γ : Type*}

/-- Where part `k` of a concatenation of parts of these lengths starts. -/
def offset (lens : List ℕ) (k : ℕ) : ℕ := (lens.take k).sum

/-- The starts of all parts, with the end of the last. -/
def offsets (lens : List ℕ) : List ℕ := (List.range (lens.length + 1)).map (offset lens)

section Offsets

variable {lens : List ℕ} {k : ℕ}

theorem length_offsets (lens : List ℕ) : (offsets lens).length = lens.length + 1 := by
  rw [offsets, List.length_map, List.length_range]

theorem getD_offsets (h : k ≤ lens.length) : (offsets lens).getD k 0 = offset lens k := by
  rw [offsets, List.getD_eq_getElem?_getD, List.getElem?_map, List.getElem?_range (by omega)]
  rfl

theorem offset_zero (lens : List ℕ) : offset lens 0 = 0 := rfl

theorem offset_length (lens : List ℕ) : offset lens lens.length = lens.sum := by
  rw [offset, List.take_length]

theorem offset_succ {n : ℕ} (h : lens[k]? = some n) : offset lens (k + 1) = offset lens k + n := by
  rw [offset, List.take_add_one, h, List.sum_append]
  rfl

theorem offset_le_succ (lens : List ℕ) (k : ℕ) : offset lens k ≤ offset lens (k + 1) := by
  rcases Nat.lt_or_ge k lens.length with h | h
  · rw [offset_succ (List.getElem?_eq_getElem h)]
    exact Nat.le_add_right _ _
  · rw [offset, offset, List.take_of_length_le h, List.take_of_length_le (by omega)]

theorem offset_mono {j : ℕ} (h : j ≤ k) : offset lens j ≤ offset lens k :=
  monotone_nat_of_le_succ (offset_le_succ lens) h

theorem offset_le_sum (lens : List ℕ) (k : ℕ) : offset lens k ≤ lens.sum := by
  rcases Nat.le_total k lens.length with h | h
  · rw [← offset_length]
    exact offset_mono h
  · rw [offset, List.take_of_length_le h]

theorem offset_append {lens' : List ℕ} (h : k ≤ lens.length) :
    offset (lens ++ lens') k = offset lens k := by
  rw [offset, offset, List.take_append_of_le_length h]

/-- Parts whose lengths have a common divisor start at multiples of it. -/
theorem dvd_offset {d : ℕ} (h : ∀ n ∈ lens, d ∣ n) (k : ℕ) : d ∣ offset lens k :=
  List.dvd_sum fun n hn ↦ h n (List.mem_of_mem_take hn)

theorem offset_map_div {d : ℕ} (h : ∀ n ∈ lens, d ∣ n) (k : ℕ) :
    offset (lens.map (· / d)) k = offset lens k / d := by
  induction lens generalizing k with
  | nil => simp [offset]
  | cons n lens ih =>
    cases k with
    | zero => simp [offset]
    | succ k =>
      have hrest := ih (fun m hm ↦ h m (List.mem_cons_of_mem n hm)) k
      have hn : d ∣ n := h n (List.mem_cons_self ..)
      simp only [offset, List.map_cons, List.take_succ_cons, List.sum_cons] at hrest ⊢
      rw [hrest, Nat.add_div_of_dvd_right hn]

/-- A position of a concatenation is in one of its parts. -/
theorem exists_part {p : ℕ} (h : p < lens.sum) : ∃ k < lens.length, offset lens k ≤ p ∧
    p < offset lens (k + 1) := by
  induction lens generalizing p with
  | nil => simp at h
  | cons n lens ih =>
    rw [List.sum_cons] at h
    rcases Nat.lt_or_ge p n with hp | hp
    · refine ⟨0, by simp, ?_⟩
      simpa [offset] using hp
    · obtain ⟨k, hk, hlo, hhi⟩ := ih (p := p - n) (by omega)
      refine ⟨k + 1, by simpa using hk, ?_⟩
      simp only [offset, List.take_succ_cons, List.sum_cons] at hlo hhi ⊢
      omega

end Offsets

section Parts

variable {parts : List (List α)} {k : ℕ}

theorem getElem?_flatten {part : List α} (h : parts[k]? = some part) {t : ℕ}
    (ht : t < part.length) :
    parts.flatten[offset (parts.map List.length) k + t]? = part[t]? := by
  induction parts generalizing k with
  | nil => cases h
  | cons first parts ih =>
    rw [List.flatten_cons]
    cases k with
    | zero =>
      obtain rfl := Option.some.inj h
      rw [offset_zero, Nat.zero_add, List.getElem?_append_left ht]
    | succ k =>
      have hoffset : offset ((first :: parts).map List.length) (k + 1) =
          first.length + offset (parts.map List.length) k := by
        simp [offset]
      rw [hoffset, Nat.add_assoc, List.getElem?_append_right (by omega), Nat.add_sub_cancel_left]
      exact ih h

theorem slice_flatten {part : List α} (h : parts[k]? = some part) :
    slice parts.flatten (offset (parts.map List.length) k)
      (offset (parts.map List.length) (k + 1)) = part := by
  have hsucc : offset (parts.map List.length) (k + 1) =
      offset (parts.map List.length) k + part.length := by
    apply offset_succ
    rw [List.getElem?_map, h]
    rfl
  have htotal := offset_le_sum (parts.map List.length) (k + 1)
  rw [← List.length_flatten] at htotal
  have hlen : (slice parts.flatten (offset (parts.map List.length) k)
      (offset (parts.map List.length) (k + 1))).length =
      offset (parts.map List.length) (k + 1) - offset (parts.map List.length) k :=
    length_slice htotal
  apply List.ext_getElem?
  intro t
  rcases Nat.lt_or_ge t part.length with ht | ht
  · rw [getElem?_slice (by omega), getElem?_flatten h ht]
  · rw [List.getElem?_eq_none (by omega), List.getElem?_eq_none ht]

theorem foldlM_parts {parts : List (List α)} {write : List α → ℕ → Option (List α)}
    (hwrite : ∀ (k : ℕ) (part tensor : List α), parts[k]? = some part →
      tensor.length = parts.flatten.length → write tensor k =
        some (tensor.take (offset (parts.map List.length) k) ++ part ++
          tensor.drop (offset (parts.map List.length) (k + 1))))
    {tensor : List α} (hlen : tensor.length = parts.flatten.length) :
    (List.range parts.length).foldlM write tensor = some parts.flatten := by
  have htaken : ∀ n ≤ parts.length, (List.range n).foldlM write tensor =
      some ((parts.take n).flatten ++ tensor.drop (offset (parts.map List.length) n)) := by
    intro n hn
    induction n with
    | zero => rfl
    | succ n ih =>
      have hget : parts[n]? = some parts[n] := List.getElem?_eq_getElem hn
      have hstart : offset (parts.map List.length) n = (parts.take n).flatten.length := by
        rw [offset, List.length_flatten, List.map_take]
      have hnext : (parts.take (n + 1)).flatten = (parts.take n).flatten ++ parts[n] := by
        rw [List.take_add_one, hget, List.flatten_append]
        simp
      have hmono := offset_le_succ (parts.map List.length) n
      have htotal := offset_le_sum (parts.map List.length) (n + 1)
      rw [← List.length_flatten, ← hlen] at htotal
      have hlen' : ((parts.take n).flatten ++
          tensor.drop (offset (parts.map List.length) n)).length = parts.flatten.length := by
        rw [List.length_append, List.length_drop, ← hstart, ← hlen]
        omega
      rw [List.range_succ, List.foldlM_append, ih (by omega), Option.bind_eq_bind, Option.bind_some,
        List.foldlM_cons, hwrite n parts[n] _ hget hlen', Option.bind_eq_bind, Option.bind_some,
        List.foldlM_nil, hnext, hstart, List.take_left, ← hstart, List.drop_append,
        List.drop_of_length_le (by omega), List.drop_drop, ← hstart, Nat.add_sub_cancel' hmono]
      rfl
  rw [htaken parts.length le_rfl, List.take_length,
    show parts.length = (parts.map List.length).length by rw [List.length_map], offset_length,
    ← List.length_flatten, ← hlen, List.drop_length, List.append_nil]

end Parts

end NemoRL.Foundations.Ragged
