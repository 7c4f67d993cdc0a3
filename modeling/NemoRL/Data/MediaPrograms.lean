import Mathlib
import NemoRL.Data.SharedSegments
import NemoRL.Data.MediaAgreement

namespace NemoRL.Data

open Foundations Foundations.Tensors Foundations.Interning

variable {δ ν : Type} [Zero ν]

/-- One more value of an expression, made of the values before it. -/
inductive MediaCommand (δ ν : Type) [Zero ν]
  | leaf (tensors : List (Option (Tensor δ ν))) (dimToPack : ℤ)
      (padToMaxShape enableDeduplication : Bool)
  | mergeSegments (values : List ℕ)
  | flattenedConcat (values : List ℕ)
  | concat (values : List ℕ)
  | slice (value : ℕ) (idx : List ℤ)
  | emptyRowsLike (value : ℕ) (numRows : ℤ)
  | toDtype (value : ℕ) (dtype : δ)
  | deepcopy (value : ℕ)

namespace MediaCommand

def flagOff : MediaCommand δ ν → MediaCommand δ ν
  | .leaf tensors dimToPack padToMaxShape _ => .leaf tensors dimToPack padToMaxShape false
  | c => c

open Media (Kind)

/-- The kind of the next value, where the pipeline has it: conversations are not concatenated or
sliced before they are flattened. -/
def kind (kinds : List Kind) : MediaCommand δ ν → Option Kind
  | .leaf .. => some .rows
  | .mergeSegments values =>
    if ∀ i ∈ values, i < kinds.length then some .conversation else none
  | .flattenedConcat values => if ∀ i ∈ values, i < kinds.length then some .rows else none
  | .concat values => if ∀ i ∈ values, kinds[i]? = some .rows then some .rows else none
  | .slice value _ => if kinds[value]? = some .rows then some .rows else none
  | .emptyRowsLike value _ => if value < kinds.length then some .rows else none
  | .toDtype value _ => kinds[value]?
  | .deepcopy value => kinds[value]?

def kinds (program : List (MediaCommand δ ν)) : Option (List Kind) :=
  program.foldlM (fun kinds c ↦ (c.kind kinds).map fun k ↦ kinds ++ [k]) []

end MediaCommand

/-- Why a program stops. -/
inductive MediaFailure
  | noValue (value : ℕ)
  | raised (e : MediaError)
  deriving DecidableEq

def lookUp {α : Type} (values : List α) (i : ℕ) : Except MediaFailure α :=
  match values[i]? with
  | some a => .ok a
  | none => .error (.noValue i)

def raising {α : Type} (r : Except MediaError α) : Except MediaFailure α := r.mapError .raised

/-- The values so far, and the first provenance that none has. -/
structure MediaState (δ ν : Type) [Zero ν] where
  values : List (PackedTensor δ ν) := []
  next : ℕ := 0

namespace MediaState

variable [DecidableEq δ] (E : ElementTypes δ ν) (s : MediaState δ ν)

def eval : MediaCommand δ ν → Except MediaFailure (PackedTensor δ ν × ℕ)
  | .leaf tensors dimToPack padToMaxShape enableDeduplication => raising do
    let p ← PackedTensor.init tensors dimToPack padToMaxShape none none none
    if enableDeduplication then p.enableDeduplication s.next else .ok (p, s.next)
  | .mergeSegments values => do
    let ps ← values.mapM (lookUp s.values)
    raising (PackedTensor.mergeSegments ps s.next)
  | .flattenedConcat values => do
    let ps ← values.mapM (lookUp s.values)
    raising (PackedTensor.flattenedConcat E ps s.next)
  | .concat values => do
    let ps ← values.mapM (lookUp s.values)
    raising (PackedTensor.concat ps s.next)
  | .slice value idx => do
    let p ← lookUp s.values value
    raising ((p.slice idx).map (·, s.next))
  | .emptyRowsLike value numRows => do
    let p ← lookUp s.values value
    raising ((p.emptyRowsLike numRows).map (·, s.next))
  | .toDtype value dtype => do
    let p ← lookUp s.values value
    raising (p.toDtype E dtype s.next)
  | .deepcopy value => do
    let p ← lookUp s.values value
    raising (p.deepcopy.map (·, s.next))

def step (c : MediaCommand δ ν) : Except MediaFailure (MediaState δ ν) :=
  (s.eval E c).map fun x ↦ ⟨s.values ++ [x.1], x.2⟩

def run (program : List (MediaCommand δ ν)) : Except MediaFailure (MediaState δ ν) :=
  program.foldlM (step E) {}

end MediaState

namespace Media

variable (E : ElementTypes δ ν) (values : List (Media (Tensor δ ν)))

def eval : MediaCommand δ ν → Except MediaFailure (Media (Tensor δ ν))
  | .leaf tensors dimToPack padToMaxShape enableDeduplication => raising do
    let m ← ofTensors dimToPack padToMaxShape tensors
    .ok (if enableDeduplication then m.enableDeduplication else m)
  | .mergeSegments args => do
    let ms ← args.mapM (lookUp values)
    raising (Media.mergeSegments ms)
  | .flattenedConcat args => do
    let ms ← args.mapM (lookUp values)
    raising (Media.flattenedConcat E ms)
  | .concat args => do
    let ms ← args.mapM (lookUp values)
    raising (Media.concat ms)
  | .slice value idx => do
    let m ← lookUp values value
    raising (m.slice idx)
  | .emptyRowsLike value numRows => do
    let m ← lookUp values value
    raising (m.emptyRowsLike numRows)
  | .toDtype value dtype => do
    let m ← lookUp values value
    .ok (m.map (PackedTensor.converted E dtype))
  | .deepcopy value => lookUp values value

end Media

namespace MediaState

open PackedTensor

section Refinement

variable {E : ElementTypes δ ν} {table : ℕ → Option (Tensor δ ν)} {next : ℕ}

def Coherent (s : MediaState δ ν) : Prop :=
  ∃ table, ∀ p ∈ s.values, PackedTensor.Coherent table s.next p

theorem lookUp_map {α β : Type} (f : α → β) (values : List α) (i : ℕ) :
    lookUp (values.map f) i = (lookUp values i).map f := by
  rw [lookUp, lookUp, List.getElem?_map]
  cases values[i]? <;> rfl

theorem mapM_lookUp_map {α β : Type} (f : α → β) (values : List α) (args : List ℕ) :
    args.mapM (lookUp (values.map f)) = (args.mapM (lookUp values)).map (List.map f) := by
  induction args with
  | nil => rfl
  | cons i args ih =>
    rw [List.mapM_cons, List.mapM_cons, lookUp_map, ih]
    cases lookUp values i with
    | error e => rfl
    | ok a =>
      cases args.mapM (lookUp values) <;> rfl

theorem mem_of_lookUp {α : Type} {values : List α} {i : ℕ} {a : α}
    (h : lookUp values i = .ok a) : values[i]? = some a := by
  rw [lookUp] at h
  split at h
  · rename_i b hb
    rw [hb, Except.ok.inj h]
  · cases h

theorem mem_of_mapM_lookUp {α : Type} {values : List α} {args : List ℕ} {as : List α}
    (h : args.mapM (lookUp values) = .ok as) :
    List.Forall₂ (fun i a ↦ values[i]? = some a) args as := by
  induction args generalizing as with
  | nil =>
    obtain rfl := Except.ok.inj h
    exact .nil
  | cons i args ih =>
    rw [List.mapM_cons] at h
    cases hi : lookUp values i with
    | error e =>
      rw [hi] at h
      cases h
    | ok a =>
      rw [hi] at h
      cases hrest : args.mapM (lookUp values) with
      | error e =>
        rw [hrest] at h
        cases h
      | ok as' =>
        rw [hrest] at h
        obtain rfl := Except.ok.inj h
        exact .cons (mem_of_lookUp hi) (ih hrest)

theorem mapM_lookUp_of_forall₂ {α : Type} {values : List α} {args : List ℕ} {as : List α}
    (h : List.Forall₂ (fun i a ↦ values[i]? = some a) args as) :
    args.mapM (lookUp values) = .ok as := by
  induction h with
  | nil => rfl
  | cons hi _ ih =>
    rw [List.mapM_cons, ih, lookUp, hi]
    rfl

/-- What raises says what it is meant to, as a step of a program. -/
structure Steps (table : ℕ → Option (Tensor δ ν)) (next : ℕ)
    (r : Except MediaFailure (PackedTensor δ ν × ℕ))
    (m : Except MediaFailure (Media (Tensor δ ν))) : Prop where
  view : r.map (fun x ↦ x.1.view) = m
  coherent : ∀ x, r = .ok x → next ≤ x.2 ∧ ∃ table', Agree next table table' ∧
    PackedTensor.Coherent table' x.2 x.1

theorem steps_raising {r : Except MediaError (PackedTensor δ ν × ℕ)}
    {m : Except MediaError (Media (Tensor δ ν))} (h : Refines table next r m) :
    Steps table next (raising r) (raising m) := by
  obtain ⟨rfl, hcoherent⟩ := h
  cases r with
  | error e => exact ⟨rfl, fun x hx ↦ nomatch hx⟩
  | ok x => exact ⟨rfl, fun y hy ↦ hcoherent y (congrArg _ (Except.ok.inj hy))⟩

theorem steps_error (e : MediaFailure) : Steps table next (.error e) (.error e) :=
  ⟨rfl, fun _ hx ↦ nomatch hx⟩

theorem steps_lookUp {s : MediaState δ ν} (hs : ∀ p ∈ s.values, PackedTensor.Coherent table s.next p)
    {f : PackedTensor δ ν → Except MediaFailure (PackedTensor δ ν × ℕ)}
    {g : Media (Tensor δ ν) → Except MediaFailure (Media (Tensor δ ν))}
    (hf : ∀ p, PackedTensor.Coherent table s.next p → Steps table s.next (f p) (g p.view))
    (value : ℕ) : Steps table s.next ((lookUp s.values value).bind f)
      ((lookUp (s.values.map view) value).bind g) := by
  rw [lookUp_map]
  cases hp : lookUp s.values value with
  | error e => exact steps_error e
  | ok p => exact hf p (hs p (List.mem_of_getElem? (mem_of_lookUp hp)))

theorem steps_mapM {s : MediaState δ ν} (hs : ∀ p ∈ s.values, PackedTensor.Coherent table s.next p)
    {f : List (PackedTensor δ ν) → Except MediaError (PackedTensor δ ν × ℕ)}
    {g : List (Media (Tensor δ ν)) → Except MediaError (Media (Tensor δ ν))}
    (hf : ∀ ps : List (PackedTensor δ ν), (∀ p ∈ ps, PackedTensor.Coherent table s.next p) →
      Refines table s.next (f ps) (g (ps.map view)))
    (args : List ℕ) : Steps table s.next ((args.mapM (lookUp s.values)).bind fun ps ↦ raising (f ps))
      ((args.mapM (lookUp (s.values.map view))).bind fun ms ↦ raising (g ms)) := by
  rw [mapM_lookUp_map]
  cases hps : args.mapM (lookUp s.values) with
  | error e => exact steps_error e
  | ok ps =>
    refine steps_raising (hf ps ?_)
    intro p hp
    obtain ⟨i, -, hi⟩ := exists_of_mem_right (mem_of_mapM_lookUp hps) hp
    exact hs p (List.mem_of_getElem? hi)

variable [DecidableEq δ]

theorem eval_steps {s : MediaState δ ν}
    (hs : ∀ p ∈ s.values, PackedTensor.Coherent table s.next p) (c : MediaCommand δ ν) :
    Steps table s.next (s.eval E c) (Media.eval E (s.values.map view) c) := by
  cases c with
  | leaf tensors dimToPack padToMaxShape enableDeduplication =>
    apply steps_raising
    by_cases hne : tensors = []
    · subst hne
      exact .error _
    · obtain ⟨p, hp, hprovenance, hview⟩ := init_legacy dimToPack padToMaxShape hne
      simp only [hp, bind, Except.bind, Media.ofTensors, if_neg hne]
      cases enableDeduplication with
      | false => exact .ok hview le_rfl (.refl _ _) (coherent_of_none hprovenance)
      | true =>
        have hcoherent : PackedTensor.Coherent table s.next p := coherent_of_none hprovenance
        have hrefines := p.enableDeduplication_refines hcoherent
        rwa [hview] at hrefines
  | mergeSegments args => exact steps_mapM hs (fun ps h ↦ mergeSegments_refines ps h) args
  | flattenedConcat args => exact steps_mapM hs (fun ps h ↦ flattenedConcat_refines E ps h) args
  | concat args => exact steps_mapM hs (fun ps h ↦ concat_refines ps h) args
  | slice value idx => exact steps_lookUp hs (fun p h ↦ steps_raising (p.slice_refines idx h)) value
  | emptyRowsLike value numRows =>
    exact steps_lookUp hs (fun p _ ↦ steps_raising (p.emptyRowsLike_refines numRows)) value
  | toDtype value dtype =>
    exact steps_lookUp hs (fun p h ↦ steps_raising (p.toDtype_refines E dtype h)) value
  | deepcopy value =>
    have hcopy : ∀ p, PackedTensor.Coherent table s.next p →
        Steps table s.next (raising (p.deepcopy.map (·, s.next))) (.ok p.view) := by
      intro p hp
      rw [p.deepcopy_eq]
      exact steps_raising (m := .ok p.view) (.ok rfl le_rfl (.refl _ _) hp)
    have hsteps := steps_lookUp hs hcopy value
    have hbind : ((lookUp (s.values.map view) value).bind fun m ↦ .ok m) =
        lookUp (s.values.map view) value := by
      cases lookUp (s.values.map view) value <;> rfl
    rwa [hbind] at hsteps

theorem run_concat (program : List (MediaCommand δ ν)) (c : MediaCommand δ ν) :
    run E (program ++ [c]) = (run E program).bind (step E · c) := by
  rw [run, List.foldlM_append, run]
  cases program.foldlM (step E) {} with
  | error e => rfl
  | ok s =>
    show (step E s c).bind pure = step E s c
    cases step E s c <;> rfl

theorem coherent_run {program : List (MediaCommand δ ν)} {s : MediaState δ ν}
    (h : run E program = .ok s) : s.Coherent := by
  induction program using List.reverseRecOn generalizing s with
  | nil =>
    obtain rfl := Except.ok.inj h
    exact ⟨fun _ ↦ none, fun _ hp ↦ nomatch hp⟩
  | append_singleton program c ih =>
    rw [run_concat] at h
    cases hr : run E program with
    | error e =>
      rw [hr] at h
      cases h
    | ok t =>
      rw [hr] at h
      change step E t c = _ at h
      obtain ⟨table, ht⟩ := ih hr
      have hsteps := eval_steps (E := E) ht c
      rw [step] at h
      cases heval : t.eval E c with
      | error e =>
        rw [heval] at h
        cases h
      | ok x =>
        rw [heval] at h
        obtain rfl := Except.ok.inj h
        obtain ⟨hle, table', hagree, hcoherent⟩ := hsteps.coherent x heval
        refine ⟨table', ?_⟩
        intro p hp
        rcases List.mem_append.mp hp with hp | hp
        · exact (ht p hp).mono hagree hle
        · rwa [List.mem_singleton.mp hp]

end Refinement

end MediaState

namespace Media

variable {E : ElementTypes δ ν}

/-- The values of the program without the flag, and with it. -/
structure SameValues (E : ElementTypes δ ν) (kinds : List Kind)
    (ms ns : List (Media (Tensor δ ν))) : Prop where
  lengthKinds : kinds.length = ms.length
  length : ns.length = ms.length
  same : ∀ (i : ℕ) (k : Kind) (m n : Media (Tensor δ ν)), kinds[i]? = some k →
    ms[i]? = some m → ns[i]? = some n → Same E k m n

variable {kinds : List Kind} {ms ns : List (Media (Tensor δ ν))}

theorem SameValues.nil : SameValues E [] [] [] := ⟨rfl, rfl, fun _ _ _ _ h ↦ nomatch h⟩

theorem SameValues.concat (h : SameValues E kinds ms ns) {k : Kind} {m n : Media (Tensor δ ν)}
    (hsame : Same E k m n) : SameValues E (kinds ++ [k]) (ms ++ [m]) (ns ++ [n]) where
  lengthKinds := by rw [List.length_append, List.length_append, h.lengthKinds]; rfl
  length := by rw [List.length_append, List.length_append, h.length]; rfl
  same := by
    intro i k' m' n' hk hm hn
    rcases Nat.lt_or_ge i ms.length with hlt | hge
    · rw [List.getElem?_append_left (h.lengthKinds ▸ hlt)] at hk
      rw [List.getElem?_append_left hlt] at hm
      rw [List.getElem?_append_left (h.length ▸ hlt)] at hn
      exact h.same i k' m' n' hk hm hn
    · rw [List.getElem?_append_right (h.lengthKinds ▸ hge), h.lengthKinds] at hk
      rw [List.getElem?_append_right hge] at hm
      rw [List.getElem?_append_right (h.length ▸ hge), h.length] at hn
      cases hi : i - ms.length with
      | zero =>
        rw [hi] at hk hm hn
        obtain rfl := Option.some.inj hk
        obtain rfl := Option.some.inj hm
        obtain rfl := Option.some.inj hn
        exact hsame
      | succ j =>
        rw [hi] at hm
        cases hm

theorem SameValues.lookUp (h : SameValues E kinds ms ns) {i : ℕ} {m : Media (Tensor δ ν)}
    (hm : Data.lookUp ms i = .ok m) : ∃ k n, kinds[i]? = some k ∧ Data.lookUp ns i = .ok n ∧
      Same E k m n := by
  have hget := MediaState.mem_of_lookUp hm
  obtain ⟨hlt, -⟩ := List.getElem?_eq_some_iff.mp hget
  have hk := List.getElem?_eq_getElem (h.lengthKinds ▸ hlt)
  have hn := List.getElem?_eq_getElem (h.length ▸ hlt)
  refine ⟨_, _, hk, ?_, h.same i _ _ _ hk hget hn⟩
  rw [Data.lookUp, hn]

theorem SameValues.mapM (h : SameValues E kinds ms ns) {args : List ℕ}
    {as : List (Media (Tensor δ ν))} (has : args.mapM (Data.lookUp ms) = .ok as)
    {R : Media (Tensor δ ν) → Media (Tensor δ ν) → Prop}
    (hR : ∀ i ∈ args, ∀ k m n, kinds[i]? = some k → Same E k m n → R m n) :
    ∃ bs, args.mapM (Data.lookUp ns) = .ok bs ∧ List.Forall₂ R as bs ∧
      List.Forall₂ (fun i b ↦ ns[i]? = some b) args bs := by
  have hbs : ∃ bs, List.Forall₂ R as bs ∧
      List.Forall₂ (fun i b ↦ ns[i]? = some b) args bs := by
    have hget := MediaState.mem_of_mapM_lookUp has
    clear has
    induction hget with
    | nil => exact ⟨[], .nil, .nil⟩
    | @cons i a args as ha _ ih =>
      obtain ⟨hhead, hrest⟩ := List.forall_mem_cons.mp hR
      obtain ⟨bs, hall, hbs⟩ := ih hrest
      obtain ⟨hlt, -⟩ := List.getElem?_eq_some_iff.mp ha
      have hk := List.getElem?_eq_getElem (h.lengthKinds ▸ hlt)
      have hn := List.getElem?_eq_getElem (h.length ▸ hlt)
      exact ⟨_ :: bs, .cons (hhead _ _ _ hk (h.same i _ _ _ hk ha hn)) hall, .cons hn hbs⟩
  obtain ⟨bs, hall, hbs⟩ := hbs
  exact ⟨bs, MediaState.mapM_lookUp_of_forall₂ hbs, hall, hbs⟩

/-- A flattening that is refused: of some values that are not in the legacy representation and some
that have not one row. -/
structure Refused (E : ElementTypes δ ν) (ns : List (Media (Tensor δ ν)))
    (c : MediaCommand δ ν) : Prop where
  refused : ∃ args, c = .flattenedConcat args ∧
    (∃ i ∈ args, ∃ n, ns[i]? = some n ∧ n.isCompact = true) ∧
      ∃ i ∈ args, ∃ n, ns[i]? = some n ∧ n.len ≠ 1
  eval : Media.eval E ns c = .error (.raised .oneLogicalRow)

theorem raising_ok {α : Type} {r : Except MediaError α} {a : α} (h : raising r = .ok a) :
    r = .ok a := by
  cases r with
  | error e => cases h
  | ok b => exact congrArg _ (Except.ok.inj h)

theorem SameValues.eval (h : SameValues E kinds ms ns) {c : MediaCommand δ ν} {k : Kind}
    (hkind : c.kind kinds = some k) {m : Media (Tensor δ ν)}
    (hm : Media.eval E ms c.flagOff = .ok m)
    (hdtype : ∀ args, c = .flattenedConcat args → ∀ i ∈ args, ∀ m, ms[i]? = some m →
      Uniform m.segments.reduceOption) :
    Refused E ns c ∨ ∃ n, Media.eval E ns c = .ok n ∧ Same E k m n := by
  cases c with
  | leaf tensors dimToPack padToMaxShape enableDeduplication =>
    obtain rfl := Option.some.inj hkind
    obtain ⟨n, hn, hm⟩ := Blocks.bind_eq_ok (raising_ok hm)
    obtain rfl := Except.ok.inj hm
    right
    cases enableDeduplication with
    | false => exact ⟨_, congrArg raising (congrArg (Except.bind · _) hn), same_self _⟩
    | true => exact ⟨_, congrArg raising (congrArg (Except.bind · _) hn), same_enableDeduplication _⟩
  | mergeSegments args =>
    rw [MediaCommand.kind] at hkind
    split at hkind
    · obtain rfl := Option.some.inj hkind
      obtain ⟨as, has, hm⟩ := Blocks.bind_eq_ok hm
      obtain ⟨bs, hbs, hall, -⟩ := h.mapM has (R := fun m n ↦ ∃ kind, Same E kind m n)
        fun _ _ k _ _ _ hsame ↦ ⟨k, hsame⟩
      obtain ⟨n, hn, hsame⟩ := Same.mergeSegments hall (raising_ok hm)
      refine .inr ⟨n, ?_, hsame⟩
      show (args.mapM (Data.lookUp ns)).bind _ = _
      rw [hbs]
      exact congrArg raising hn
    · cases hkind
  | flattenedConcat args =>
    rw [MediaCommand.kind] at hkind
    split at hkind
    · obtain rfl := Option.some.inj hkind
      obtain ⟨as, has, hm⟩ := Blocks.bind_eq_ok hm
      obtain ⟨bs, hbs, hall, hget⟩ := h.mapM has (R := fun m n ↦ ∃ kind, Same E kind m n)
        fun _ _ k _ _ _ hsame ↦ ⟨k, hsame⟩
      have huniform : ∀ a ∈ as, Uniform a.segments.reduceOption := by
        intro a ha
        obtain ⟨i, hi, hat⟩ := exists_of_mem_right (MediaState.mem_of_mapM_lookUp has) ha
        exact hdtype args rfl i hi a hat
      have heval : ∀ r, Media.flattenedConcat E bs = r →
          Media.eval E ns (.flattenedConcat args) = raising r := by
        rintro r rfl
        show (args.mapM (Data.lookUp ns)).bind _ = _
        rw [hbs]
        rfl
      rcases Same.flattenedConcat hall huniform (raising_ok hm) with
        ⟨hrefused, ⟨b, hb, hcompact⟩, b', hb', hlen⟩ | ⟨n, hn, hsame⟩
      · obtain ⟨i, hi, hat⟩ := exists_of_mem_right hget hb
        obtain ⟨j, hj, hat'⟩ := exists_of_mem_right hget hb'
        exact .inl ⟨⟨args, rfl, ⟨i, hi, b, hat, hcompact⟩, j, hj, b', hat', hlen⟩, heval _ hrefused⟩
      · exact .inr ⟨n, heval _ hn, hsame⟩
    · cases hkind
  | concat args =>
    rw [MediaCommand.kind] at hkind
    split at hkind
    · rename_i hrows
      obtain rfl := Option.some.inj hkind
      obtain ⟨as, has, hm⟩ := Blocks.bind_eq_ok hm
      obtain ⟨bs, hbs, hall, -⟩ := h.mapM has (R := Same E .rows) (by
        intro i hi k m n hk hsame
        obtain rfl := Option.some.inj (hk.symm.trans (hrows i hi))
        exact hsame)
      obtain ⟨n, hn, hsame⟩ := Same.concat hall (raising_ok hm)
      refine .inr ⟨n, ?_, hsame⟩
      show (args.mapM (Data.lookUp ns)).bind _ = _
      rw [hbs]
      exact congrArg raising hn
    · cases hkind
  | slice value idx =>
    rw [MediaCommand.kind] at hkind
    split at hkind
    · rename_i hrows
      obtain rfl := Option.some.inj hkind
      obtain ⟨a, ha, hm⟩ := Blocks.bind_eq_ok hm
      obtain ⟨k, b, hk, hb, hsame⟩ := h.lookUp ha
      obtain rfl := Option.some.inj (hk.symm.trans hrows)
      obtain ⟨n, hn, hsame'⟩ := hsame.slice (raising_ok hm)
      refine .inr ⟨n, ?_, hsame'⟩
      show (Data.lookUp ns value).bind _ = _
      rw [hb]
      exact congrArg raising hn
    · cases hkind
  | emptyRowsLike value numRows =>
    rw [MediaCommand.kind] at hkind
    split at hkind
    · obtain rfl := Option.some.inj hkind
      obtain ⟨a, ha, hm⟩ := Blocks.bind_eq_ok hm
      obtain ⟨k, b, -, hb, hsame⟩ := h.lookUp ha
      obtain ⟨n, hn, hsame'⟩ := hsame.emptyRowsLike (raising_ok hm)
      refine .inr ⟨n, ?_, hsame'⟩
      show (Data.lookUp ns value).bind _ = _
      rw [hb]
      exact congrArg raising hn
    · cases hkind
  | toDtype value dtype =>
    obtain ⟨a, ha, hm⟩ := Blocks.bind_eq_ok hm
    obtain ⟨k', b, hk, hb, hsame⟩ := h.lookUp ha
    obtain rfl := Option.some.inj (hk.symm.trans hkind)
    obtain rfl := Except.ok.inj hm
    refine .inr ⟨_, ?_, hsame.converted dtype⟩
    show (Data.lookUp ns value).bind _ = _
    rw [hb]
    rfl
  | deepcopy value =>
    obtain ⟨k', b, hk, hb, hsame⟩ := h.lookUp hm
    obtain rfl := Option.some.inj (hk.symm.trans hkind)
    exact .inr ⟨b, hb, hsame⟩

end Media

end NemoRL.Data
