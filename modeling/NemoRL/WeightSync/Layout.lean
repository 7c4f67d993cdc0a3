import Mathlib
import NemoRL.Foundations.Boxes
import NemoRL.Foundations.RowMajor

namespace NemoRL.WeightSync

open Foundations.Boxes Foundations.RowMajor

/-- An array of distinct ranks, in row-major order. -/
structure Mesh where
  shape : List ℕ
  ranks : List ℕ
  shape_pos : ∀ size ∈ shape, 0 < size
  length_ranks : ranks.length = shape.prod
  nodup_ranks : ranks.Nodup

inductive Placement
  | shard (dim : ℤ)
  | replicate
  | other (typeName : String)
  deriving DecidableEq, Repr

inductive ReshardError
  | invalidShardDim (dim : ℤ) (tensorNdim : ℕ)
  | placementCount (name : String) (entries meshNdim : ℕ)
  | unsupportedPlacement (typeName : String)
  deriving DecidableEq, Repr

/-- The coordinate of the rank at a position of the flattened mesh. -/
def meshCoordinate (shape : List ℕ) (index : ℕ) : List ℕ :=
  (shape.reverse.foldl (fun s size ↦ (s.1 ++ [s.2 % size], s.2 / size)) ([], index)).1.reverse

def Mesh.coordinate (mesh : Mesh) (rank : ℕ) : List ℕ :=
  meshCoordinate mesh.shape (mesh.ranks.idxOf rank)

def normalizeShardDim (dim : ℤ) (tensorNdim : ℕ) : Except ReshardError ℕ :=
  let normalized := if dim < 0 then dim + tensorNdim else dim
  if normalized < 0 ∨ normalized ≥ tensorNdim then .error (.invalidShardDim dim tensorNdim)
  else .ok normalized.toNat

def validateLayout (mesh : Mesh) (placements : List Placement) (tensorNdim : ℕ) (name : String) :
    Except ReshardError Unit := do
  if placements.length ≠ mesh.shape.length then
    throw (.placementCount name placements.length mesh.shape.length)
  for placement in placements do
    match placement with
    | .shard dim => discard (normalizeShardDim dim tensorNdim)
    | .replicate => pure ()
    | .other typeName => throw (.unsupportedPlacement typeName)

def Placement.shardDim? (tensorNdim : ℕ) : Placement → Option ℕ
  | .shard dim => (normalizeShardDim dim tensorNdim).toOption
  | _ => none

/-- One step of sequential sharding: the start and the size of what is left of a
dimension at a coordinate of a mesh dimension, as `torch.chunk` splits it. -/
def chunkStep (s : ℕ × ℕ) (mesh : ℕ × ℕ) : ℕ × ℕ :=
  let chunkSize := if s.2 = 0 then 0 else (s.2 + mesh.1 - 1) / mesh.1
  let relativeStart := min s.2 (mesh.2 * chunkSize)
  (s.1 + relativeStart, min chunkSize (s.2 - relativeStart))

/-- The mesh dimensions that shard a tensor dimension, in order, as sizes and coordinates. -/
def meshDims (tensorNdim : ℕ) (placements : List Placement) (meshShape coordinate : List ℕ)
    (dim : ℕ) : List (ℕ × ℕ) :=
  (placements.zip (meshShape.zip coordinate)).filterMap fun x ↦
    if x.1.shardDim? tensorNdim = some dim then some x.2 else none

/-- The coordinates come from the mesh, so the check of their range cannot fail. -/
def computeShardSlices (globalShape meshShape coordinate : List ℕ) (placements : List Placement) :
    Box :=
  (List.range globalShape.length).map fun dim ↦
    let s := (meshDims globalShape.length placements meshShape coordinate dim).foldl chunkStep
      (0, globalShape.getD dim 0)
    (s.1, s.1 + s.2)

def rankRegion (mesh : Mesh) (placements : List Placement) (globalShape : List ℕ) (rank : ℕ) :
    Box :=
  computeShardSlices globalShape mesh.shape (mesh.coordinate rank) placements

theorem meshCoordinate_eq (shape : List ℕ) (index : ℕ) :
    meshCoordinate shape index = unravel shape index := by
  have hrun : ∀ shape : List ℕ,
      shape.reverse.foldl (fun s size ↦ (s.1 ++ [s.2 % size], s.2 / size)) ([], index) =
        ((unravel shape index).reverse, index / shape.prod) := by
    intro shape
    induction shape with
    | nil => simp [unravel]
    | cons size shape ih =>
      rw [List.reverse_cons, List.foldl_append, ih]
      simp only [List.foldl_cons, List.foldl_nil, unravel, List.reverse_cons, List.prod_cons,
        Nat.div_div_eq_div_mul, Nat.mul_comm size]
  rw [meshCoordinate, hrun, List.reverse_reverse]

theorem Mesh.exists_rank (mesh : Mesh) {c : List ℕ} (h : List.Forall₂ (· < ·) c mesh.shape) :
    ∃ rank ∈ mesh.ranks, mesh.coordinate rank = c := by
  have hlt : ravel mesh.shape c < mesh.ranks.length := mesh.length_ranks ▸ ravel_lt h
  refine ⟨mesh.ranks[ravel mesh.shape c], List.getElem_mem hlt, ?_⟩
  rw [Mesh.coordinate, mesh.nodup_ranks.idxOf_getElem, meshCoordinate_eq, unravel_ravel h]

theorem Mesh.length_coordinate (mesh : Mesh) (rank : ℕ) :
    (mesh.coordinate rank).length = mesh.shape.length := by
  rw [Mesh.coordinate, meshCoordinate_eq]
  exact (unravel_lt mesh.shape_pos _).length_eq

section Chunks

def Part (s : ℕ × ℕ) (i : ℕ) : Prop := s.1 ≤ i ∧ i < s.1 + s.2

theorem part_of_chunkStep {s mesh : ℕ × ℕ} {i : ℕ} (h : Part (chunkStep s mesh) i) : Part s i := by
  simp only [Part, chunkStep] at h ⊢
  omega

theorem chunkStep_cover {s : ℕ × ℕ} {n i : ℕ} (hn : 0 < n) (h : Part s i) :
    ∃ c < n, Part (chunkStep s (n, c)) i := by
  obtain ⟨hlo, hhi⟩ := h
  have hsize : s.2 ≠ 0 := by omega
  have hpos : 0 < (s.2 + n - 1) / n := Nat.div_pos (by omega) hn
  have hceil : s.2 ≤ n * ((s.2 + n - 1) / n) := by
    have hdiv := Nat.div_add_mod (s.2 + n - 1) n
    have hmod := Nat.mod_lt (s.2 + n - 1) hn
    omega
  generalize hk : (s.2 + n - 1) / n = k at hpos hceil
  have hdiv := Nat.div_add_mod (i - s.1) k
  have hmod := Nat.mod_lt (i - s.1) hpos
  refine ⟨(i - s.1) / k, ?_, ?_⟩
  · rw [Nat.div_lt_iff_lt_mul hpos]
    omega
  · simp only [Part, chunkStep, if_neg hsize, hk]
    rw [Nat.mul_comm] at hdiv
    omega

theorem chunkStep_unique {s : ℕ × ℕ} {n c c' i : ℕ} (h : Part (chunkStep s (n, c)) i)
    (h' : Part (chunkStep s (n, c')) i) : chunkStep s (n, c) = chunkStep s (n, c') := by
  have hs := part_of_chunkStep h
  have hsize : s.2 ≠ 0 := by
    unfold Part at hs
    omega
  simp only [Part, chunkStep, if_neg hsize] at h h'
  generalize (s.2 + n - 1) / n = k at h h'
  have hc : c = (i - s.1) / k := by
    refine (Nat.div_eq_of_lt_le ?_ ?_).symm
    · omega
    · rw [Nat.succ_mul]
      omega
  have hc' : c' = (i - s.1) / k := by
    refine (Nat.div_eq_of_lt_le ?_ ?_).symm
    · omega
    · rw [Nat.succ_mul]
      omega
  rw [hc, hc']

example : (List.range 4).map (fun c ↦ chunkStep (0, 10) (4, c)) =
    [(0, 3), (3, 3), (6, 3), (9, 1)] := by decide

theorem part_of_chunks {s : ℕ × ℕ} {l : List (ℕ × ℕ)} {i : ℕ} (h : Part (l.foldl chunkStep s) i) :
    Part s i := by
  induction l generalizing s with
  | nil => exact h
  | cons a l ih => exact part_of_chunkStep (ih h)

theorem chunks_unique {s : ℕ × ℕ} {l l' : List (ℕ × ℕ)} (hl : l.map Prod.fst = l'.map Prod.fst)
    {i : ℕ} (h : Part (l.foldl chunkStep s) i) (h' : Part (l'.foldl chunkStep s) i) :
    l.foldl chunkStep s = l'.foldl chunkStep s := by
  induction l generalizing l' s with
  | nil =>
    obtain rfl : l' = [] := by simpa using hl.symm
    rfl
  | cons a l ih =>
    cases l' with
    | nil => simp at hl
    | cons b l' =>
      obtain ⟨n, c⟩ := a
      obtain ⟨m, d⟩ := b
      simp only [List.map_cons, List.cons.injEq] at hl
      obtain ⟨rfl, hl⟩ := hl
      have hfirst : chunkStep s (n, c) = chunkStep s (n, d) :=
        chunkStep_unique (part_of_chunks h) (part_of_chunks h')
      simp only [List.foldl_cons] at h h' ⊢
      rw [hfirst] at h ⊢
      exact ih hl h h'

end Chunks

section Regions

variable {placements : List Placement} {globalShape : List ℕ}

theorem inBox_map_range {n : ℕ} {f : ℕ → ℕ × ℕ} {x : List ℕ} :
    InBox ((List.range n).map f) x ↔
      x.length = n ∧ ∀ d i, x[d]? = some i → (f d).1 ≤ i ∧ i < (f d).2 := by
  rw [InBox, List.forall₂_iff_get]
  simp only [List.length_map, List.length_range, List.get_eq_getElem, List.getElem_map,
    List.getElem_range]
  constructor
  · rintro ⟨hlen, h⟩
    refine ⟨hlen.symm, fun d i hi ↦ ?_⟩
    obtain ⟨hlt, rfl⟩ := List.getElem?_eq_some_iff.mp hi
    exact h d (hlen ▸ hlt) hlt
  · rintro ⟨hlen, h⟩
    exact ⟨hlen.symm, fun d _ hlt ↦ h d x[d] (List.getElem?_eq_getElem hlt)⟩

def shardPart (placements : List Placement) (globalShape meshShape coordinate : List ℕ)
    (dim : ℕ) : ℕ × ℕ :=
  (meshDims globalShape.length placements meshShape coordinate dim).foldl chunkStep
    (0, globalShape.getD dim 0)

theorem inBox_computeShardSlices {meshShape coordinate x : List ℕ} :
    InBox (computeShardSlices globalShape meshShape coordinate placements) x ↔
      x.length = globalShape.length ∧ ∀ d i, x[d]? = some i →
        Part (shardPart placements globalShape meshShape coordinate d) i :=
  inBox_map_range

theorem map_fst_meshDims (placements : List Placement) (n : ℕ) {meshShape c c' : List ℕ} (hc : c.length = meshShape.length)
    (hc' : c'.length = meshShape.length) (d : ℕ) :
    (meshDims n placements meshShape c d).map Prod.fst =
      (meshDims n placements meshShape c' d).map Prod.fst := by
  have hsizes : ∀ c : List ℕ, c.length = meshShape.length →
      (meshDims n placements meshShape c d).map Prod.fst =
        (placements.zip meshShape).filterMap fun x ↦
          if x.1.shardDim? n = some d then some x.2 else none := by
    intro c hc
    have hfst : placements.zip meshShape =
        (placements.zip (meshShape.zip c)).map fun x ↦ (x.1, x.2.1) := by
      have hzip : (meshShape.zip c).map Prod.fst = meshShape := List.map_fst_zip hc.ge
      conv_lhs => rw [← hzip, List.zip_map_right]
      rfl
    rw [hfst, List.filterMap_map, meshDims, List.map_filterMap]
    refine List.filterMap_congr fun x _ ↦ ?_
    simp only [Function.comp_apply]
    split_ifs <;> rfl
  rw [hsizes c hc, hsizes c' hc']

theorem rankRegion_unique {mesh : Mesh} {r r' : ℕ} {x : List ℕ}
    (h : InBox (rankRegion mesh placements globalShape r) x)
    (h' : InBox (rankRegion mesh placements globalShape r') x) :
    rankRegion mesh placements globalShape r = rankRegion mesh placements globalShape r' := by
  obtain ⟨hlen, hpart⟩ := inBox_computeShardSlices.mp h
  obtain ⟨_, hpart'⟩ := inBox_computeShardSlices.mp h'
  refine List.map_congr_left fun d hd ↦ ?_
  have hlt : d < x.length := by
    rw [hlen]
    exact List.mem_range.mp hd
  have hx : x[d]? = some x[d] := List.getElem?_eq_getElem hlt
  have hsizes := map_fst_meshDims placements globalShape.length
    (mesh.length_coordinate r) (mesh.length_coordinate r') d
  have heq := chunks_unique hsizes (hpart d _ hx) (hpart' d _ hx)
  simp only [heq]

theorem meshDims_cons (n : ℕ) (p : Placement) (size c : ℕ) (meshShape coordinate : List ℕ) (d : ℕ) :
    meshDims n (p :: placements) (size :: meshShape) (c :: coordinate) d =
      if p.shardDim? n = some d then (size, c) :: meshDims n placements meshShape coordinate d
      else meshDims n placements meshShape coordinate d := by
  simp only [meshDims, List.zip_cons_cons, List.filterMap_cons]
  split_ifs <;> rfl

/-- Whatever is left of the dimensions, some coordinate of the mesh holds an element of it. -/
theorem exists_coordinate (n : ℕ) {meshShape : List ℕ} (hpos : ∀ size ∈ meshShape, 0 < size)
    (hlen : placements.length = meshShape.length) (x : List ℕ) (f : ℕ → ℕ × ℕ)
    (hx : ∀ d i, x[d]? = some i → Part (f d) i) :
    ∃ c, List.Forall₂ (· < ·) c meshShape ∧ ∀ d i, x[d]? = some i →
      Part ((meshDims n placements meshShape c d).foldl chunkStep (f d)) i := by
  induction placements generalizing meshShape f with
  | nil =>
    obtain rfl : meshShape = [] := List.length_eq_zero_iff.mp hlen.symm
    exact ⟨[], .nil, hx⟩
  | cons p placements ih =>
    cases meshShape with
    | nil => simp at hlen
    | cons size meshShape =>
      obtain ⟨hsize, hrest⟩ := List.forall_mem_cons.mp hpos
      have hlen' : placements.length = meshShape.length := by simpa using hlen
      -- the coordinate is chosen by the element of the dimension this placement shards
      obtain ⟨c₀, hc₀, hfirst⟩ : ∃ c₀ < size, ∀ d i, x[d]? = some i →
          Part (if p.shardDim? n = some d then chunkStep (f d) (size, c₀) else f d) i := by
        cases hp : p.shardDim? n with
        | none => exact ⟨0, hsize, by simpa using hx⟩
        | some d₀ =>
          cases hi : x[d₀]? with
          | none =>
            refine ⟨0, hsize, fun d i hd ↦ ?_⟩
            have hne : d₀ ≠ d := by
              rintro rfl
              rw [hi] at hd
              cases hd
            simpa [hne] using hx d i hd
          | some i₀ =>
            obtain ⟨c₀, hc₀, hpart⟩ := chunkStep_cover hsize (hx d₀ i₀ hi)
            refine ⟨c₀, hc₀, fun d i hd ↦ ?_⟩
            by_cases hne : d₀ = d
            · subst hne
              rw [hi] at hd
              obtain rfl := Option.some.inj hd
              simpa using hpart
            · simpa [hne] using hx d i hd
      obtain ⟨c, hc, hparts⟩ := ih hrest hlen' _ hfirst
      refine ⟨c₀ :: c, .cons hc₀ hc, fun d i hd ↦ ?_⟩
      have h := hparts d i hd
      rw [meshDims_cons]
      split_ifs at h ⊢ <;> exact h

theorem exists_rankRegion {mesh : Mesh} (hlen : placements.length = mesh.shape.length)
    {x : List ℕ} (hx : List.Forall₂ (· < ·) x globalShape) :
    ∃ rank ∈ mesh.ranks, InBox (rankRegion mesh placements globalShape rank) x := by
  have hstart : ∀ d i, x[d]? = some i → Part (0, globalShape.getD d 0) i := by
    intro d i hi
    obtain ⟨hlt, rfl⟩ := List.getElem?_eq_some_iff.mp hi
    have hd : d < globalShape.length := hx.length_eq ▸ hlt
    have hbound := (List.forall₂_iff_get.mp hx).2 d hlt hd
    rw [List.getD_eq_getElem?_getD, List.getElem?_eq_getElem hd]
    exact ⟨Nat.zero_le _, by simpa using hbound⟩
  obtain ⟨c, hc, hparts⟩ := exists_coordinate globalShape.length mesh.shape_pos hlen x
    (fun d ↦ (0, globalShape.getD d 0)) hstart
  obtain ⟨rank, hrank, rfl⟩ := mesh.exists_rank hc
  exact ⟨rank, hrank, inBox_computeShardSlices.mpr ⟨hx.length_eq, hparts⟩⟩

theorem length_rankRegion (mesh : Mesh) (rank : ℕ) :
    (rankRegion mesh placements globalShape rank).length = globalShape.length := by
  simp [rankRegion, computeShardSlices]

theorem lt_of_inBox_rankRegion {mesh : Mesh} {rank : ℕ} {x : List ℕ}
    (h : InBox (rankRegion mesh placements globalShape rank) x) :
    List.Forall₂ (· < ·) x globalShape := by
  obtain ⟨hlen, hparts⟩ := inBox_computeShardSlices.mp h
  refine List.forall₂_iff_get.mpr ⟨hlen, fun d hd hd' ↦ ?_⟩
  have hpart := part_of_chunks (hparts d x[d] (List.getElem?_eq_getElem hd))
  have hbound := hpart.2
  rw [List.getD_eq_getElem?_getD, List.getElem?_eq_getElem hd'] at hbound
  simpa using hbound

end Regions

end NemoRL.WeightSync
