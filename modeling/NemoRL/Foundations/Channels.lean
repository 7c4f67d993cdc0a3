import NemoRL.Foundations.Transition

namespace NemoRL.Foundations.Channels

variable {ι M R S : Type*}

/-- A sequential process that sends messages to ranks and receives from the
ranks it names. `fail` stands for a raised exception. -/
inductive Process (ι M R : Type*)
  | done (result : R)
  | fail
  | send (dst : ι) (m : M) (next : Process ι M R)
  | recv (src : ι) (next : M → Process ι M R)

namespace Process

def bind : Process ι M R → (R → Process ι M S) → Process ι M S
  | done a, f => f a
  | fail, _ => fail
  | send dst m next, f => send dst m (next.bind f)
  | recv src next, f => recv src fun m ↦ (next m).bind f

end Process

instance : Monad (Process ι M) where
  pure := .done
  bind := .bind

namespace Process

@[simp] theorem done_bind (a : R) (f : R → Process ι M S) : (done a).bind f = f a := rfl
@[simp] theorem fail_bind (f : R → Process ι M S) : (fail : Process ι M R).bind f = fail := rfl

end Process

inductive Event (ι M : Type*)
  | sent (dst : ι) (m : M)
  | received (src : ι) (m : M)

/-- The communications of a process from one point of it to a later one. -/
inductive Replays : Process ι M R → List (Event ι M) → Process ι M R → Prop
  | nil (p : Process ι M R) : Replays p [] p
  | sent {dst : ι} {m : M} {next q : Process ι M R} {h : List (Event ι M)} :
      Replays next h q → Replays (.send dst m next) (.sent dst m :: h) q
  | received {src : ι} {m : M} {next : M → Process ι M R} {q : Process ι M R}
      {h : List (Event ι M)} :
      Replays (next m) h q → Replays (.recv src next) (.received src m :: h) q

namespace Replays

variable {p q : Process ι M R} {h h' : List (Event ι M)}

theorem append {q' : Process ι M R} (hp : Replays p h q) (hq : Replays q h' q') :
    Replays p (h ++ h') q' := by
  induction hp with
  | nil => exact hq
  | sent _ ih => exact (ih hq).sent
  | received _ ih => exact (ih hq).received

theorem bind {f : R → Process ι M S} {r : Process ι M S} {a : R}
    (hp : Replays p h (.done a)) (hf : Replays (f a) h' r) :
    Replays (p.bind f) (h ++ h') r := by
  generalize hd : Process.done a = d at hp
  induction hp with
  | nil => subst hd; exact hf
  | sent _ ih => exact (ih hd).sent
  | received _ ih => exact (ih hd).received

/-- A finished sequence of two processes has finished both of them. -/
theorem of_bind {f : R → Process ι M S} {c : S} (hb : Replays (p.bind f) h (.done c)) :
    ∃ h₁ h₂ a, h = h₁ ++ h₂ ∧ Replays p h₁ (.done a) ∧ Replays (f a) h₂ (.done c) := by
  induction p generalizing h with
  | done a => exact ⟨[], h, a, rfl, .nil _, hb⟩
  | fail => cases hb
  | send dst m next ih =>
    cases hb with
    | sent hb =>
      obtain ⟨h₁, h₂, a, rfl, hn, hf⟩ := ih hb
      exact ⟨_ :: h₁, h₂, a, rfl, hn.sent, hf⟩
  | recv src next ih =>
    cases hb with
    | received hb =>
      obtain ⟨h₁, h₂, a, rfl, hn, hf⟩ := ih _ hb
      exact ⟨_ :: h₁, h₂, a, rfl, hn.received, hf⟩

theorem nil_iff {a : R} : Replays p [] (.done a) ↔ p = .done a := by
  constructor
  · intro h
    cases h
    rfl
  · rintro rfl
    exact .nil _

end Replays

section Histories

variable [DecidableEq ι]

def Event.sentTo (dst : ι) : Event ι M → Option M
  | .sent d m => if d = dst then some m else none
  | .received _ _ => none

def Event.receivedFrom (src : ι) : Event ι M → Option M
  | .sent _ _ => none
  | .received s m => if s = src then some m else none

def sentTo (dst : ι) (h : List (Event ι M)) : List M := h.filterMap (Event.sentTo dst)

def receivedFrom (src : ι) (h : List (Event ι M)) : List M :=
  h.filterMap (Event.receivedFrom src)

variable {a b : ι} {m : M} {h h' : List (Event ι M)}

@[simp] theorem sentTo_nil : sentTo a ([] : List (Event ι M)) = [] := rfl
@[simp] theorem receivedFrom_nil : receivedFrom a ([] : List (Event ι M)) = [] := rfl

@[simp] theorem sentTo_append : sentTo a (h ++ h') = sentTo a h ++ sentTo a h' :=
  List.filterMap_append

@[simp] theorem receivedFrom_append :
    receivedFrom a (h ++ h') = receivedFrom a h ++ receivedFrom a h' :=
  List.filterMap_append

@[simp] theorem sentTo_sent :
    sentTo a (.sent b m :: h) = (if b = a then [m] else []) ++ sentTo a h := by
  by_cases hb : b = a <;> simp [sentTo, Event.sentTo, hb]

@[simp] theorem sentTo_received : sentTo a (.received b m :: h) = sentTo a h := rfl

@[simp] theorem receivedFrom_sent : receivedFrom a (.sent b m :: h) = receivedFrom a h := rfl

@[simp] theorem receivedFrom_received :
    receivedFrom a (.received b m :: h) = (if b = a then [m] else []) ++ receivedFrom a h := by
  by_cases hb : b = a <;> simp [receivedFrom, Event.receivedFrom, hb]

theorem mem_sentTo : m ∈ sentTo a h ↔ .sent a m ∈ h := by
  induction h with
  | nil => simp
  | cons e h ih =>
    cases e with
    | sent d n =>
      by_cases hd : d = a
      · simp [ih, hd]
      · simp [ih, hd, Ne.symm hd]
    | received s n => simp [ih]

theorem mem_receivedFrom : m ∈ receivedFrom a h ↔ .received a m ∈ h := by
  induction h with
  | nil => simp
  | cons e h ih =>
    cases e with
    | sent d n => simp [ih]
    | received s n =>
      by_cases hs : s = a
      · simp [ih, hs]
      · simp [ih, hs, Ne.symm hs]

end Histories

section Systems

variable [DecidableEq ι]

/-- When a channel accepts another message; an empty channel always does. -/
structure Buffering (M : Type*) where
  room : List M → Bool
  room_nil : room [] = true

def Buffering.unbounded : Buffering M := ⟨fun _ ↦ true, rfl⟩

/-- Processes, the messages on their way from one to another, and what each has done. -/
structure System (ι M R : Type*) where
  process : ι → Process ι M R
  channel : ι → ι → List M
  history : ι → List (Event ι M)

namespace System

def start (init : ι → Process ι M R) : System ι M R where
  process := init
  channel _ _ := []
  history _ := []

def setChannel (c : ι → ι → List M) (a b : ι) (v : List M) : ι → ι → List M :=
  Function.update c a (Function.update (c a) b v)

/-- `r` moves on to `next` by the event `e`, which leaves `v` on the channel from `a` to `b`. -/
def move (s : System ι M R) (r : ι) (next : Process ι M R) (e : Event ι M) (a b : ι)
    (v : List M) : System ι M R where
  process := Function.update s.process r next
  channel := setChannel s.channel a b v
  history := Function.update s.history r (s.history r ++ [e])

end System

/-- Rank `r` takes its next communication, if it has one and can. -/
def step (B : Buffering M) (s : System ι M R) (r : ι) : Option (System ι M R) :=
  match s.process r with
  | .done _ => none
  | .fail => none
  | .send dst m next =>
    if B.room (s.channel r dst) then
      some (s.move r next (.sent dst m) r dst (s.channel r dst ++ [m]))
    else none
  | .recv src next =>
    match s.channel src r with
    | [] => none
    | m :: rest => some (s.move r (next m) (.received src m) src r rest)

variable {B : Buffering M} {s t : System ι M R} {r a b : ι} {init : ι → Process ι M R}

theorem step_cases (h : step B s r = some t) :
    (∃ dst m next, s.process r = .send dst m next ∧ B.room (s.channel r dst) ∧
      t = s.move r next (.sent dst m) r dst (s.channel r dst ++ [m])) ∨
    ∃ src m next rest, s.process r = .recv src next ∧ s.channel src r = m :: rest ∧
      t = s.move r (next m) (.received src m) src r rest := by
  rw [step] at h
  split at h
  · cases h
  · cases h
  · rename_i dst m next hp
    split_ifs at h with hroom
    exact .inl ⟨dst, m, next, hp, hroom, (Option.some.inj h).symm⟩
  · rename_i src next hp
    split at h
    · cases h
    · rename_i m rest hc
      exact .inr ⟨src, m, next, rest, hp, hc, (Option.some.inj h).symm⟩

namespace System

variable {next : Process ι M R} {e : Event ι M} {v : List M}

@[simp] theorem move_process_self : (s.move r next e a b v).process r = next :=
  Function.update_self ..

theorem move_process_of_ne {r' : ι} (h : r' ≠ r) :
    (s.move r next e a b v).process r' = s.process r' :=
  Function.update_of_ne h ..

@[simp] theorem move_history_self :
    (s.move r next e a b v).history r = s.history r ++ [e] :=
  Function.update_self ..

theorem move_history_of_ne {r' : ι} (h : r' ≠ r) :
    (s.move r next e a b v).history r' = s.history r' :=
  Function.update_of_ne h ..

@[simp] theorem move_channel_self : (s.move r next e a b v).channel a b = v := by
  simp [move, setChannel]

theorem move_channel_of_ne {a' b' : ι} (h : ¬ (a' = a ∧ b' = b)) :
    (s.move r next e a b v).channel a' b' = s.channel a' b' := by
  by_cases ha : a' = a
  · subst ha
    have hb : b' ≠ b := fun hb ↦ h ⟨rfl, hb⟩
    simp [move, setChannel, hb]
  · simp [move, setChannel, ha]

end System

abbrev Runs (B : Buffering M) (init : ι → Process ι M R) : System ι M R → Prop :=
  Transition.Reachable (step B) (· = System.start init)

def Terminal (B : Buffering M) (s : System ι M R) : Prop := ∀ r, step B s r = none

theorem history_step (h : step B s r = some t) : ∃ e, t.history r = s.history r ++ [e] ∧
    ∀ r', r' ≠ r → t.history r' = s.history r' := by
  obtain ⟨dst, m, next, -, -, rfl⟩ | ⟨src, m, next, rest, -, -, rfl⟩ := step_cases h
  · exact ⟨_, System.move_history_self, fun _ ↦ System.move_history_of_ne⟩
  · exact ⟨_, System.move_history_self, fun _ ↦ System.move_history_of_ne⟩

theorem replays_history (h : Runs B init s) (r : ι) :
    Replays (init r) (s.history r) (s.process r) := by
  refine h.invariant (I := fun s ↦ ∀ r, Replays (init r) (s.history r) (s.process r))
    ?_ ?_ r
  · rintro s rfl r
    exact .nil _
  · intro s r t ih _ hstep r'
    obtain ⟨dst, m, next, hp, -, rfl⟩ | ⟨src, m, next, rest, hp, -, rfl⟩ := step_cases hstep
    all_goals
      by_cases hr : r' = r
      · subst hr
        rw [System.move_process_self, System.move_history_self]
        have hlast := ih r'
        rw [hp] at hlast
        first
          | exact hlast.append (Replays.nil _).sent
          | exact hlast.append (Replays.nil _).received
      · rw [System.move_process_of_ne hr, System.move_history_of_ne hr]
        exact ih r'

/-- What one rank has received from another, and what is on its way, is what was sent. -/
theorem received_append_channel (h : Runs B init s) (a b : ι) :
    receivedFrom a (s.history b) ++ s.channel a b = sentTo b (s.history a) := by
  refine h.invariant (I := fun s ↦ ∀ a b,
    receivedFrom a (s.history b) ++ s.channel a b = sentTo b (s.history a)) ?_ ?_ a b
  · rintro s rfl a b
    rfl
  · intro s r t ih _ hstep a b
    obtain ⟨dst, m, next, -, -, rfl⟩ | ⟨src, m, next, rest, -, hc, rfl⟩ := step_cases hstep
    · have hreceived : ∀ b, receivedFrom a ((s.move r next (.sent dst m) r dst
          (s.channel r dst ++ [m])).history b) = receivedFrom a (s.history b) := by
        intro b
        by_cases hb : b = r
        · subst hb
          rw [System.move_history_self, receivedFrom_append, receivedFrom_sent,
            receivedFrom_nil, List.append_nil]
        · rw [System.move_history_of_ne hb]
      rw [hreceived]
      by_cases ha : a = r
      · subst ha
        rw [System.move_history_self, sentTo_append, sentTo_sent, sentTo_nil, List.append_nil]
        by_cases hb : dst = b
        · subst hb
          rw [System.move_channel_self, if_pos rfl, ← List.append_assoc, ih]
        · rw [System.move_channel_of_ne fun h ↦ hb h.2.symm, if_neg hb, List.append_nil, ih]
      · rw [System.move_history_of_ne ha, System.move_channel_of_ne fun h ↦ ha h.1, ih]
    · have hsent : ∀ a, sentTo b ((s.move r (next m) (.received src m) src r
          rest).history a) = sentTo b (s.history a) := by
        intro a
        by_cases ha : a = r
        · subst ha
          rw [System.move_history_self, sentTo_append, sentTo_received, sentTo_nil,
            List.append_nil]
        · rw [System.move_history_of_ne ha]
      rw [hsent]
      by_cases hb : b = r
      · subst hb
        rw [System.move_history_self, receivedFrom_append, receivedFrom_received,
          receivedFrom_nil, List.append_nil]
        by_cases ha : src = a
        · subst ha
          rw [System.move_channel_self, if_pos rfl, List.append_assoc, List.singleton_append,
            ← hc, ih]
        · rw [System.move_channel_of_ne fun h ↦ ha h.1.symm, if_neg ha, List.append_nil, ih]
      · rw [System.move_history_of_ne hb, System.move_channel_of_ne fun h ↦ hb h.2, ih]

/-- For every process the communications of a run to its end, in which each pair of ranks
has as many receives as sends, of the same messages in the same order. -/
structure Plan (init : ι → Process ι M R) where
  events : ι → List (Event ι M)
  result : ι → R
  replays : ∀ r, Replays (init r) (events r) (.done (result r))
  matched : ∀ a b, receivedFrom a (events b) = sentTo b (events a)

namespace Plan

variable (P : Plan init)

/-- Whatever the order of the steps, every process follows the plan. -/
theorem follows (h : Runs B init s) (r : ι) : ∃ rest, P.events r = s.history r ++ rest ∧
    Replays (s.process r) rest (.done (P.result r)) := by
  refine h.invariant_of (I := fun s ↦ ∀ r, ∃ rest, P.events r = s.history r ++ rest ∧
    Replays (s.process r) rest (.done (P.result r))) ?_ ?_ r
  · rintro s rfl r
    exact ⟨P.events r, rfl, P.replays r⟩
  · intro s r t hs ih _ hstep r'
    obtain ⟨dst, m, next, hp, -, rfl⟩ | ⟨src, m, next, rest, hp, hc, rfl⟩ := step_cases hstep
    · by_cases hr : r' = r
      · subst hr
        obtain ⟨rest, hrest, hreplays⟩ := ih r'
        rw [hp] at hreplays
        cases hreplays with
        | sent hnext =>
          refine ⟨_, ?_, by rw [System.move_process_self]; exact hnext⟩
          rw [System.move_history_self, hrest, List.append_assoc, List.singleton_append]
      · rw [System.move_process_of_ne hr, System.move_history_of_ne hr]
        exact ih r'
    · by_cases hr : r' = r
      · subst hr
        obtain ⟨mine, hmine, hreplays⟩ := ih r'
        obtain ⟨theirs, htheirs, -⟩ := ih src
        rw [hp] at hreplays
        cases hreplays with
        | received hnext =>
          -- the message on the channel is the one the plan has next
          rename_i m' tail
          have hmatched := P.matched src r'
          rw [hmine, htheirs, receivedFrom_append, sentTo_append,
            ← received_append_channel hs src r', List.append_assoc, List.append_cancel_left_eq,
            receivedFrom_received, if_pos rfl, hc] at hmatched
          obtain ⟨rfl, -⟩ := List.cons.inj hmatched
          refine ⟨_, ?_, by rw [System.move_process_self]; exact hnext⟩
          rw [System.move_history_self, hmine, List.append_assoc, List.singleton_append]
      · rw [System.move_process_of_ne hr, System.move_history_of_ne hr]
        exact ih r'

/-- The plan of a rank that receives from the others, which only send to it. -/
structure Gathers (sink : ι) : Prop where
  sends : ∀ r, r ≠ sink → ∀ e ∈ P.events r, ∃ m, e = .sent sink m
  receives : ∀ e ∈ P.events sink, ∃ src m, e = .received src m

variable {P} {sink : ι}

theorem Gathers.src_ne (hg : P.Gathers sink) {src : ι} {m : M}
    (h : .received src m ∈ P.events sink) : src ≠ sink := by
  rintro rfl
  have hm := mem_receivedFrom.mpr h
  rw [P.matched] at hm
  obtain ⟨_, _, he⟩ := hg.receives _ (mem_sentTo.mp hm)
  cases he

theorem Gathers.sink_done (hg : P.Gathers sink) (h : Runs B init s) (ht : Terminal B s) :
    s.history sink = P.events sink := by
  obtain ⟨rest, hrest, hreplays⟩ := P.follows h sink
  cases rest with
  | nil => rw [hrest, List.append_nil]
  | cons e rest =>
    exfalso
    obtain ⟨src, m, rfl⟩ := hg.receives e (by rw [hrest]; simp)
    generalize hp : s.process sink = p at hreplays
    cases hreplays with
    | received hnext =>
      rename_i next
      have hchannel : s.channel src sink = [] := by
        have hstuck := ht sink
        rw [step, hp] at hstuck
        cases hc : s.channel src sink with
        | nil => rfl
        | cons m rest => simp [hc] at hstuck
      -- what the sink waits for has not been sent, so its sender can still go on
      obtain ⟨theirs, htheirs, hsender⟩ := P.follows h src
      have hmatched := P.matched src sink
      rw [hrest, htheirs, receivedFrom_append, sentTo_append,
        ← received_append_channel h src sink, hchannel, List.append_nil,
        List.append_cancel_left_eq, receivedFrom_received, if_pos rfl] at hmatched
      cases theirs with
      | nil => cases hmatched
      | cons e theirs =>
        have hsrc : src ≠ sink := hg.src_ne (m := m) (by rw [hrest]; simp)
        obtain ⟨m', rfl⟩ := hg.sends src hsrc e (by rw [htheirs]; simp)
        have hstuck := ht src
        generalize hq : s.process src = q at hsender
        cases hsender with
        | sent _ => simp [step, hq, hchannel, B.room_nil] at hstuck

theorem Gathers.history_eq (hg : P.Gathers sink) (h : Runs B init s) (ht : Terminal B s)
    (r : ι) : s.history r = P.events r := by
  by_cases hr : r = sink
  · rw [hr]
    exact hg.sink_done h ht
  obtain ⟨rest, hrest, -⟩ := P.follows h r
  cases rest with
  | nil => rw [hrest, List.append_nil]
  | cons e rest =>
    -- the sink has received more from `r` than `r` has sent
    obtain ⟨m, rfl⟩ := hg.sends r hr e (by rw [hrest]; simp)
    have hlen := congrArg List.length (received_append_channel h r sink)
    have hmatched := congrArg List.length (P.matched r sink)
    rw [hrest, ← hg.sink_done h ht, sentTo_append, sentTo_sent, if_pos rfl] at hmatched
    rw [List.length_append] at hlen
    simp only [List.length_append, List.length_singleton] at hmatched
    omega

theorem Gathers.process_eq (hg : P.Gathers sink) (h : Runs B init s) (ht : Terminal B s)
    (r : ι) : s.process r = .done (P.result r) := by
  obtain ⟨rest, hrest, hreplays⟩ := P.follows h r
  rw [← hg.history_eq h ht r, List.self_eq_append_right] at hrest
  rw [hrest] at hreplays
  exact Replays.nil_iff.mp hreplays

theorem length_le {ranks : Finset ι} (hranks : ∀ r, r ∉ ranks → P.events r = [])
    {order : List ι} (h : Runs B init s) (he : Transition.exec (step B) s order = some t) :
    order.length + ∑ r ∈ ranks, (s.history r).length ≤
      ∑ r ∈ ranks, (P.events r).length := by
  induction order generalizing s with
  | nil =>
    rw [List.length_nil, Nat.zero_add]
    refine Finset.sum_le_sum fun r _ ↦ ?_
    obtain ⟨rest, hrest, -⟩ := P.follows h r
    rw [hrest, List.length_append]
    exact Nat.le_add_right ..
  | cons r order ih =>
    obtain ⟨u, hu, hrest⟩ := Option.bind_eq_some_iff.mp he
    have hnext : Runs B init u := h.step trivial hu
    obtain ⟨e, hr, hothers⟩ := history_step hu
    have hmem : r ∈ ranks := by
      by_contra hr'
      obtain ⟨rest, hrest, -⟩ := P.follows hnext r
      rw [hranks r hr', hr] at hrest
      simp at hrest
    have hlt : ∑ r ∈ ranks, (s.history r).length < ∑ r ∈ ranks, (u.history r).length := by
      refine Finset.sum_lt_sum (fun r' _ ↦ ?_) ⟨r, hmem, by simp [hr]⟩
      by_cases hr' : r' = r
      · simp [hr', hr]
      · rw [hothers r' hr']
    have hlen := ih hnext hrest
    rw [List.length_cons]
    omega

end Plan

end Systems

end NemoRL.Foundations.Channels
