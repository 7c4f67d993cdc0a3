import Mathlib

namespace NemoRL.Foundations.Words

/-- The lowest `w` bytes of a number, the lowest first. -/
def split : ℕ → ℕ → List UInt8
  | 0, _ => []
  | w + 1, n => UInt8.ofNat n :: split w (n / 256)

def combine : List UInt8 → ℕ
  | [] => 0
  | b :: bs => b.toNat + 256 * combine bs

def words (w : ℕ) : ℕ → List UInt8 → List ℕ
  | 0, _ => []
  | n + 1, raw => combine (raw.take w) :: words w n (raw.drop w)

@[simp] theorem length_split (w n : ℕ) : (split w n).length = w := by
  induction w generalizing n with
  | zero => rfl
  | succ w ih => simp [split, ih]

theorem combine_split {w n : ℕ} (h : n < 256 ^ w) : combine (split w n) = n := by
  induction w generalizing n with
  | zero =>
    obtain rfl : n = 0 := by simpa using h
    rfl
  | succ w ih =>
    have hdiv : n / 256 < 256 ^ w := Nat.div_lt_of_lt_mul (by rwa [pow_succ'] at h)
    have hlow : (UInt8.ofNat n).toNat = n % 256 := UInt8.toNat_ofNat'
    rw [split, combine, ih hdiv, hlow]
    exact Nat.mod_add_div n 256

theorem length_flatMap_split (w : ℕ) (l : List ℕ) :
    (l.flatMap (split w)).length = l.length * w := by
  induction l with
  | nil => simp
  | cons n l ih => rw [List.flatMap_cons, List.length_append, length_split, ih, List.length_cons,
      Nat.succ_mul, Nat.add_comm]

theorem words_flatMap_split {w : ℕ} {l : List ℕ} (h : ∀ n ∈ l, n < 256 ^ w) :
    words w l.length (l.flatMap (split w)) = l := by
  induction l with
  | nil => rfl
  | cons n l ih =>
    obtain ⟨hn, hrest⟩ := List.forall_mem_cons.mp h
    rw [List.flatMap_cons, List.length_cons, words, List.take_left' (length_split w n),
      List.drop_left' (length_split w n), combine_split hn, ih hrest]

example : words 2 2 ([513, 7].flatMap (split 2)) = [513, 7] := by decide

/-- What a signed machine integer of so many bits holds of a number. -/
def wrap (bits : ℕ) (x : ℤ) : ℤ := x.bmod (2 ^ bits)

def Fits (bits : ℕ) (x : ℤ) : Prop := -2 ^ (bits - 1) ≤ x ∧ x < 2 ^ (bits - 1)

theorem wrap_of_fits {bits : ℕ} (hbits : 0 < bits) {x : ℤ} (h : Fits bits x) :
    wrap bits x = x := by
  obtain ⟨n, rfl⟩ : ∃ n, bits = n + 1 := ⟨bits - 1, by omega⟩
  simp only [Fits, Nat.add_sub_cancel] at h
  have hpow : ((2 ^ (n + 1) : ℕ) : ℤ) = 2 * 2 ^ n := by
    push_cast
    ring
  refine Int.bmod_eq_of_le ?_ ?_
  · rw [hpow]
    omega
  · rw [hpow]
    omega

/-- A part of a list from one position to another. -/
def Slice {β : Type*} (l : List β) (start stop : ℕ) (part : List β) : Prop :=
  ∃ before after, l = before ++ part ++ after ∧ before.length = start ∧
    stop = start + part.length

section Slices

variable {β : Type*} {l part : List β} {start stop : ℕ}

theorem Slice.extract (h : Slice l start stop part) : (l.take stop).drop start = part := by
  obtain ⟨before, after, rfl, rfl, rfl⟩ := h
  rw [List.take_left' (by simp), List.drop_left' rfl]

theorem Slice.append_right (h : Slice l start stop part) (l' : List β) :
    Slice (l ++ l') start stop part := by
  obtain ⟨before, after, rfl, hstart, hstop⟩ := h
  exact ⟨before, after ++ l', by simp, hstart, hstop⟩

theorem slice_append (l part : List β) : Slice (l ++ part) l.length (l.length + part.length) part :=
  ⟨l, [], by simp, rfl, rfl⟩

theorem Slice.trans {sub : List β} {start' stop' : ℕ} (h : Slice l start stop part)
    (h' : Slice part start' stop' sub) : Slice l (start' + start) (stop' + start) sub := by
  obtain ⟨before, after, rfl, rfl, rfl⟩ := h
  obtain ⟨before', after', rfl, rfl, rfl⟩ := h'
  refine ⟨before ++ before', after' ++ after, by simp, ?_, by omega⟩
  rw [List.length_append, Nat.add_comm]

end Slices

end NemoRL.Foundations.Words
