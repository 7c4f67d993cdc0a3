import NemoRL.Foundations.Prefixes

namespace NemoRL.Data.ChatFormatting

open Foundations.Prefixes

abbrev Text := List Char

inductive Role
  | system
  | user
  | assistant
  | tool
  | other (name : Text)
  deriving DecidableEq

/-- An item of a content list; what is not text is of a type `ν`. -/
inductive Part (ν : Type*)
  | text (s : Text)
  | media (item : ν)

inductive Content (ν : Type*)
  | absent
  | text (s : Text)
  | parts (items : List (Part ν))

structure Message (ν : Type*) where
  role : Role
  content : Content ν
  /-- The other keys, such as the calls of tools. -/
  others : List (Text × ν)

/-- A message with the chunk of text that is tokenized for it. -/
structure NewMessage (ν : Type*) where
  role : Role
  chunk : Text
  content : Content ν
  others : List (Text × ν)

/-- What is used of a tokenizer; the tools are part of its template here. -/
structure Tokenizer (ν : Type*) where
  bosToken : Option Text
  eosToken : Option Text
  applyChatTemplate : List (Message ν) → Bool → Text

structure Options where
  addBosToken : Bool
  addEosToken : Bool
  addGenerationPrompt : Bool

variable {ν : Type*}

section Source

def formatContentHelper (prompt : Text → Text) : Content ν → Option (Content ν)
  | .absent => none
  | .text s => some (.text (prompt s))
  | .parts items => some (.parts (items.map fun
    | .text s => .text (prompt s)
    | .media item => .media item))

def firstUserMsgId (log : List (Message ν)) : ℕ :=
  (log.findIdx? fun message ↦ message.role = .user).getD 0

def promptedLog (prompt : Option (Text → Text)) (log : List (Message ν)) :
    Option (List (Message ν)) :=
  match prompt with
  | none => some log
  | some prompt => do
    let message ← log[firstUserMsgId log]?
    let content ← formatContentHelper prompt message.content
    pure (log.take (firstUserMsgId log) ++ [⟨.user, content, []⟩] ++
      log.drop (firstUserMsgId log + 1))

def getFirstIndexThatDiffers (str1 str2 : Text) : ℕ := firstDifference str1 str2

variable (tokenizer : Tokenizer ν) (options : Options)

def formattedMessage (seen : List (Message ν)) (message : Message ν) : Text :=
  tokenizer.applyChatTemplate (seen ++ [message])
    (options.addGenerationPrompt && decide (message.role = .user ∨ message.role = .tool))

def withBos (chunk : Text) : Text :=
  if options.addBosToken then
    match tokenizer.bosToken with
    | none => chunk
    | some bos => if bos <+: chunk then chunk else bos ++ chunk
  else chunk

def EndsIn (eos : Text) (text : Text) : Prop := eos <:+ text.rdropWhile (· = '\n')

instance (eos text : Text) : Decidable (EndsIn eos text) :=
  inferInstanceAs (Decidable (_ <:+ _))

def withEos (chunk : Text) : Text :=
  if options.addEosToken then
    match tokenizer.eosToken with
    | none => chunk
    | some eos => if EndsIn eos chunk then chunk else chunk ++ eos
  else chunk

def newContent (chunk : Text) : Content ν → Content ν
  | .absent => .text chunk
  | .text _ => .text chunk
  | .parts [] => .text chunk
  | .parts items => .parts (items.map fun
    | .text _ => .text chunk
    | .media item => .media item)

def formatTurns : List (Message ν) → List (Message ν) → Text → List (NewMessage ν)
  | _, [], _ => []
  | seen, message :: rest, prevFormattedMessage =>
    let formatted := formattedMessage tokenizer options seen message
    let chunk := formatted.drop (getFirstIndexThatDiffers prevFormattedMessage formatted)
    let chunk := if seen.isEmpty then withBos tokenizer options chunk else chunk
    let chunk := if rest.isEmpty then withEos tokenizer options chunk else chunk
    ⟨message.role, chunk, newContent chunk message.content, message.others⟩ ::
      formatTurns (seen ++ [message]) rest formatted

def getFormattedMessageLog (prompt : Option (Text → Text)) (log : List (Message ν)) :
    Option (List (NewMessage ν)) :=
  (promptedLog prompt log).map fun log ↦ formatTurns tokenizer options [] log []

end Source

section Specification

variable (tokenizer : Tokenizer ν) (options : Options)

def wholeRendering (conversation : List (Message ν)) : Text :=
  tokenizer.applyChatTemplate conversation (options.addGenerationPrompt &&
    conversation.getLast?.any fun message ↦ message.role = .user ∨ message.role = .tool)

def askedBos : Option Text := if options.addBosToken then tokenizer.bosToken else none

def askedEos : Option Text := if options.addEosToken then tokenizer.eosToken else none

def missingBos (text : Text) : Text :=
  match askedBos tokenizer options with
  | none => []
  | some bos => if bos <+: text then [] else bos

def missingEos (text : Text) : Text :=
  match askedEos tokenizer options with
  | none => []
  | some eos => if EndsIn eos text then [] else eos

def completed (text : Text) : Text :=
  missingBos tokenizer options text ++ text ++ missingEos tokenizer options text

def renderings : List (Message ν) → List (Message ν) → List Text
  | _, [] => []
  | seen, message :: rest =>
    formattedMessage tokenizer options seen message :: renderings (seen ++ [message]) rest

/-- The chunks put together are the rendering of the conversation, with its tokens. -/
def ConcatenatesToRendering (prompt : Option (Text → Text)) (log : List (Message ν)) : Prop :=
  ∃ conversation out, promptedLog prompt log = some conversation ∧
    getFormattedMessageLog tokenizer options prompt log = some out ∧
    (out.map (·.chunk)).flatten =
      completed tokenizer options (wholeRendering tokenizer options conversation)

/-- A BOS token that the first message's rendering starts with is at the start of the
whole conversation's too. -/
def KeepsBos (conversation : List (Message ν)) : Prop :=
  ∀ bos first, askedBos tokenizer options = some bos →
    (renderings tokenizer options [] conversation).head? = some first →
    bos <+: first → bos <+: wholeRendering tokenizer options conversation

def lastPart : List Text → Text
  | [] => []
  | [only] => missingBos tokenizer options only ++ only
  | [front, last] => last.drop front.length
  | _ :: rs => lastPart rs

/-- Each rendering begins the next, a BOS token of the whole is in the first one already,
and an EOS token at the end of the whole is in the part of the last message. -/
structure GrowsByMessage (conversation : List (Message ν)) : Prop where
  prefixes : List.IsChain (· <+: ·) (renderings tokenizer options [] conversation)
  bos : ∀ bos first, askedBos tokenizer options = some bos →
    (renderings tokenizer options [] conversation).head? = some first →
    bos <+: wholeRendering tokenizer options conversation → bos <+: first
  eos : ∀ eos, askedEos tokenizer options = some eos →
    (EndsIn eos (wholeRendering tokenizer options conversation) ↔
      EndsIn eos (lastPart tokenizer options (renderings tokenizer options [] conversation)))

end Specification

section Tokens

variable {tokenizer : Tokenizer ν} {options : Options}

theorem withBos_eq (chunk : Text) :
    withBos tokenizer options chunk = missingBos tokenizer options chunk ++ chunk := by
  rw [withBos, missingBos, askedBos]
  split_ifs with hask
  · cases tokenizer.bosToken with
    | none => rfl
    | some bos =>
      by_cases hbos : bos <+: chunk
      · simp [hbos]
      · simp [hbos]
  · rfl

theorem withEos_eq (chunk : Text) :
    withEos tokenizer options chunk = chunk ++ missingEos tokenizer options chunk := by
  rw [withEos, missingEos, askedEos]
  split_ifs with hask
  · cases tokenizer.eosToken with
    | none => exact (List.append_nil _).symm
    | some eos =>
      by_cases heos : EndsIn eos chunk
      · simp [heos]
      · simp [heos]
  · exact (List.append_nil _).symm

theorem EndsIn.of_suffix {eos chunk text : Text} (hsuffix : chunk <:+ text)
    (h : EndsIn eos chunk) : EndsIn eos text := by
  obtain ⟨front, rfl⟩ := hsuffix
  rw [EndsIn] at h ⊢
  by_cases hempty : chunk.rdropWhile (· = '\n') = []
  · rw [hempty, List.suffix_nil] at h
    rw [h]
    exact List.nil_suffix
  · have hstrip : (front ++ chunk).rdropWhile (· = '\n') =
        front ++ chunk.rdropWhile (· = '\n') := by
      rw [List.rdropWhile, List.reverse_append, List.dropWhile_append, if_neg, List.reverse_append,
        List.reverse_reverse]
      · rfl
      · simpa [List.rdropWhile] using hempty
    rw [hstrip]
    exact h.trans (List.suffix_append ..)

theorem length_missingEos_le {chunk text : Text} (hsuffix : chunk <:+ text) :
    (missingEos tokenizer options text).length ≤ (missingEos tokenizer options chunk).length := by
  rw [missingEos, missingEos]
  cases askedEos tokenizer options with
  | none => exact le_refl _
  | some eos =>
    by_cases hchunk : EndsIn eos chunk
    · simp [hchunk, hchunk.of_suffix hsuffix]
    · simp only [if_neg hchunk]
      split_ifs
      · exact Nat.zero_le _
      · exact le_refl _

theorem missingEos_eq_iff {text text' : Text} :
    missingEos tokenizer options text = missingEos tokenizer options text' ↔
      ∀ eos, askedEos tokenizer options = some eos → (EndsIn eos text ↔ EndsIn eos text') := by
  rw [missingEos, missingEos]
  cases askedEos tokenizer options with
  | none => simp
  | some eos =>
    have hnil : ∀ text, ([] : Text) = eos → EndsIn eos text := by
      rintro text rfl
      exact List.nil_suffix
    simp only [Option.some.injEq, forall_eq']
    by_cases h : EndsIn eos text <;> by_cases h' : EndsIn eos text'
    · simp [h, h']
    · simp only [h, h', if_true, if_false, iff_false, not_true_eq_false, iff_false]
      exact fun heq ↦ h' (hnil _ heq)
    · simp only [h, h', if_true, if_false, iff_true, iff_false]
      exact fun heq ↦ h (hnil _ heq.symm)
    · simp [h, h']

end Tokens

section Concatenation

variable {tokenizer : Tokenizer ν} {options : Options}

theorem getLastD_renderings (seen : List (Message ν)) {rest : List (Message ν)} (hrest : rest ≠ [])
    (prev : Text) : (renderings tokenizer options seen rest).getLastD prev =
      wholeRendering tokenizer options (seen ++ rest) := by
  induction rest generalizing seen prev with
  | nil => exact absurd rfl hrest
  | cons message rest ih =>
    rw [renderings, List.getLastD_cons]
    cases rest with
    | nil =>
      simp [renderings, wholeRendering, formattedMessage]
    | cons next rest =>
      rw [ih (seen ++ [message]) (List.cons_ne_nil _ _), List.append_assoc, List.singleton_append]

theorem flatten_formatTurns {seen rest : List (Message ν)} (hseen : seen ≠ []) (hrest : rest ≠ [])
    (prev : Text) : ((formatTurns tokenizer options seen rest prev).map (·.chunk)).flatten =
      (cuts prev (renderings tokenizer options seen rest)).flatten ++
        missingEos tokenizer options
          ((cuts prev (renderings tokenizer options seen rest)).getLastD []) := by
  induction rest generalizing seen prev with
  | nil => exact absurd rfl hrest
  | cons message rest ih =>
    have hempty : seen.isEmpty = false := by simpa using hseen
    rw [formatTurns, renderings, cuts]
    simp only [hempty, List.map_cons, List.flatten_cons, getFirstIndexThatDiffers]
    cases rest with
    | nil =>
      simp only [List.isEmpty_nil, if_true, withEos_eq]
      simp [formatTurns, renderings, cuts]
    | cons next rest =>
      have hnext := @ih (seen ++ [message]) (by simp) (List.cons_ne_nil _ _)
        (formattedMessage tokenizer options seen message)
      simp only [List.isEmpty_cons, Bool.false_eq_true, if_false]
      rw [hnext, List.append_assoc]
      simp [renderings, cuts]

def lastChunk (tokenizer : Tokenizer ν) (options : Options) (first : Text) (rs : List Text) :
    Text :=
  if rs.isEmpty then missingBos tokenizer options first ++ first
  else (cuts first rs).getLastD []

theorem flatten_chunks (message : Message ν) (rest : List (Message ν)) :
    ((formatTurns tokenizer options [] (message :: rest) []).map (·.chunk)).flatten =
      missingBos tokenizer options (formattedMessage tokenizer options [] message) ++
        (formattedMessage tokenizer options [] message ++
          (cuts (formattedMessage tokenizer options [] message)
            (renderings tokenizer options [message] rest)).flatten) ++
        missingEos tokenizer options (lastChunk tokenizer options
          (formattedMessage tokenizer options [] message)
          (renderings tokenizer options [message] rest)) := by
  rw [formatTurns]
  simp only [List.isEmpty_nil, if_true, List.map_cons, List.flatten_cons,
    getFirstIndexThatDiffers, firstDifference_nil, List.drop_zero, List.nil_append]
  cases rest with
  | nil =>
    simp only [List.isEmpty_nil, if_true, withEos_eq, withBos_eq]
    simp [formatTurns, renderings, cuts, lastChunk]
  | cons next rest =>
    have hnext := @flatten_formatTurns ν tokenizer options [message] (next :: rest)
      (List.cons_ne_nil _ _) (List.cons_ne_nil _ _) (formattedMessage tokenizer options [] message)
    simp only [List.isEmpty_cons, Bool.false_eq_true, if_false]
    rw [hnext, withBos_eq]
    simp [renderings, lastChunk]

theorem lastChunk_eq {first : Text} {rs : List Text}
    (h : List.IsChain (· <+: ·) (first :: rs)) :
    lastChunk tokenizer options first rs = lastPart tokenizer options (first :: rs) := by
  have hmany : ∀ (rs : List Text) (first : Text), rs ≠ [] →
      List.IsChain (· <+: ·) (first :: rs) →
      (cuts first rs).getLastD [] = lastPart tokenizer options (first :: rs) := by
    intro rs
    induction rs with
    | nil => exact fun _ hne _ ↦ absurd rfl hne
    | cons r rs ih =>
      intro first _ hchain
      obtain ⟨hbegins, hrest⟩ := List.isChain_cons_cons.mp hchain
      cases rs with
      | nil =>
        simp [cuts, lastPart, firstDifference_eq_length.mpr hbegins]
      | cons r' rs =>
        rw [lastPart, ← ih r (List.cons_ne_nil _ _) hrest]
        · simp [cuts]
        · intro hnil
          cases hnil
        · intro last hlast
          cases hlast
  cases rs with
  | nil => rfl
  | cons r rs => exact hmany (r :: rs) first (List.cons_ne_nil _ _) h

theorem lastChunk_suffix {first : Text} {rs : List Text} (hrs : rs ≠ []) :
    lastChunk tokenizer options first rs <:+ rs.getLastD first := by
  rw [lastChunk, if_neg (by simpa using hrs)]
  exact getLastD_cuts_suffix

theorem missingBos_eq_iff {text text' : Text} (h : text <+: text') :
    missingBos tokenizer options text = missingBos tokenizer options text' ↔
      ∀ bos, askedBos tokenizer options = some bos → bos <+: text' → bos <+: text := by
  rw [missingBos, missingBos]
  cases askedBos tokenizer options with
  | none => simp
  | some bos =>
    simp only [Option.some.injEq, forall_eq']
    by_cases hbos : bos <+: text
    · simp [hbos, hbos.trans h]
    · by_cases hbos' : bos <+: text'
      · have hne : bos ≠ [] := by
          rintro rfl
          exact hbos List.nil_prefix
        simp [hbos, hbos', hne]
      · simp [hbos, hbos']

/-- With the BOS token kept, the chunks amount to the rendering exactly where they repeat
nothing: `first` is the first rendering, `rs` are the later ones. -/
theorem chunks_eq_completed_iff {first : Text} {rs : List Text} :
    (missingBos tokenizer options first ++ (first ++ (cuts first rs).flatten) ++
        missingEos tokenizer options (lastChunk tokenizer options first rs) =
      completed tokenizer options (rs.getLastD first) ∧
      ∀ bos, askedBos tokenizer options = some bos → bos <+: first → bos <+: rs.getLastD first) ↔
    List.IsChain (· <+: ·) (first :: rs) ∧
      (∀ bos, askedBos tokenizer options = some bos →
        bos <+: rs.getLastD first → bos <+: first) ∧
      ∀ eos, askedEos tokenizer options = some eos →
        (EndsIn eos (rs.getLastD first) ↔
          EndsIn eos (lastPart tokenizer options (first :: rs))) := by
  constructor
  · rintro ⟨heq, hkeep⟩
    have hlen := congrArg List.length heq
    have hcuts := length_flatten_cuts first rs
    have hlast : rs ≠ [] → (missingEos tokenizer options (rs.getLastD first)).length ≤
        (missingEos tokenizer options (lastChunk tokenizer options first rs)).length :=
      fun hrs ↦ length_missingEos_le (lastChunk_suffix hrs)
    have hbos : ∀ bos, askedBos tokenizer options = some bos →
        bos <+: rs.getLastD first → bos <+: first := by
      intro bos hask hwhole
      by_contra hfirst
      have hrs : rs ≠ [] := by
        rintro rfl
        exact hfirst hwhole
      have hbefore : missingBos tokenizer options first = bos := by
        rw [missingBos, hask]
        exact if_neg hfirst
      have hbefore' : missingBos tokenizer options (rs.getLastD first) = [] := by
        rw [missingBos, hask]
        exact if_pos hwhole
      have hafter := hlast hrs
      rw [completed, hbefore, hbefore'] at hlen
      simp only [List.length_append, List.length_nil] at hlen
      have hnil : bos = [] := List.length_eq_zero_iff.mp (by omega)
      rw [hnil] at hfirst
      exact hfirst List.nil_prefix
    have hbefore : missingBos tokenizer options first =
        missingBos tokenizer options (rs.getLastD first) := by
      rw [missingBos, missingBos]
      cases hask : askedBos tokenizer options with
      | none => rfl
      | some bos =>
        by_cases hfirst : bos <+: first
        · simp only [if_pos hfirst, if_pos (hkeep bos hask hfirst)]
        · simp only [if_neg hfirst, if_neg fun hlast ↦ hfirst (hbos bos hask hlast)]
    have hchain : List.IsChain (· <+: ·) (first :: rs) := by
      cases rs with
      | nil => exact List.isChain_singleton first
      | cons r rs =>
        have hafter := hlast (List.cons_ne_nil r rs)
        rw [completed, hbefore] at hlen
        simp only [List.length_append] at hlen
        exact surplus_eq_zero.mp (by omega)
    refine ⟨hchain, hbos, missingEos_eq_iff.mp ?_⟩
    rw [completed, hbefore, append_flatten_cuts hchain, lastChunk_eq hchain] at heq
    exact (List.append_cancel_left heq).symm
  · rintro ⟨hchain, hbos, heos⟩
    have hprefix := prefix_getLastD hchain
    refine ⟨?_, fun bos _ hfirst ↦ hfirst.trans hprefix⟩
    rw [completed, (missingBos_eq_iff hprefix).mpr hbos, append_flatten_cuts hchain,
      lastChunk_eq hchain, missingEos_eq_iff.mpr heos]

end Concatenation

section Settled

variable (tokenizer : Tokenizer ν) (options : Options) (prompt : Option (Text → Text))
  (log : List (Message ν))

/-- The prompted conversation grows by a message at a time; the empty one has no chunk, so
its own text has to be empty. -/
def RepeatsNothing : Prop :=
  ∃ conversation, promptedLog prompt log = some conversation ∧
    (conversation = [] → completed tokenizer options (wholeRendering tokenizer options []) = []) ∧
    (conversation ≠ [] → GrowsByMessage tokenizer options conversation)

variable {tokenizer options}

theorem growsByMessage_cons_iff (message : Message ν) (rest : List (Message ν)) :
    ((formatTurns tokenizer options [] (message :: rest) []).map (·.chunk)).flatten =
        completed tokenizer options (wholeRendering tokenizer options (message :: rest)) ∧
      KeepsBos tokenizer options (message :: rest) ↔
    GrowsByMessage tokenizer options (message :: rest) := by
  have hwhole := @getLastD_renderings ν tokenizer options [] (message :: rest)
    (List.cons_ne_nil _ _) []
  rw [renderings, List.getLastD_cons, List.nil_append, List.nil_append] at hwhole
  have hiff := @chunks_eq_completed_iff ν tokenizer options
    (formattedMessage tokenizer options [] message) (renderings tokenizer options [message] rest)
  rw [hwhole] at hiff
  rw [flatten_chunks]
  constructor
  · rintro ⟨htext, hkeep⟩
    obtain ⟨hchain, hbos, heos⟩ := hiff.mp ⟨htext, fun bos hask ↦ hkeep bos _ hask rfl⟩
    refine ⟨hchain, fun bos first hask hfirst ↦ ?_, heos⟩
    obtain rfl := Option.some.inj hfirst
    exact hbos bos hask
  · rintro ⟨hchain, hbos, heos⟩
    obtain ⟨htext, hkeep⟩ := hiff.mpr ⟨hchain, fun bos hask ↦ hbos bos _ hask rfl, heos⟩
    refine ⟨htext, fun bos first hask hfirst ↦ ?_⟩
    obtain rfl := Option.some.inj hfirst
    exact hkeep bos hask

variable (tokenizer options)

/-- The chunks amount to the rendering, with a BOS token of the first message's rendering
kept in the whole, exactly where the conversation's renderings repeat nothing. -/
theorem concatenates_iff :
    ConcatenatesToRendering tokenizer options prompt log ∧
      (∀ conversation, promptedLog prompt log = some conversation →
        KeepsBos tokenizer options conversation) ↔
    RepeatsNothing tokenizer options prompt log := by
  rw [ConcatenatesToRendering, RepeatsNothing, getFormattedMessageLog]
  cases promptedLog prompt log with
  | none => simp
  | some conversation =>
    simp only [Option.some.injEq, Option.map_some, exists_and_left, exists_eq_left', forall_eq']
    cases conversation with
    | nil =>
      constructor
      · rintro ⟨htext, -⟩
        exact ⟨fun _ ↦ htext.symm, fun hne ↦ absurd rfl hne⟩
      · rintro ⟨hempty, -⟩
        exact ⟨(hempty rfl).symm, fun bos first _ hfirst ↦ absurd hfirst (by simp [renderings])⟩
    | cons message rest =>
      rw [growsByMessage_cons_iff]
      exact ⟨fun h ↦ ⟨fun hnil ↦ absurd hnil (List.cons_ne_nil _ _), fun _ ↦ h⟩,
        fun h ↦ h.2 (List.cons_ne_nil _ _)⟩

end Settled

section Marked

def markedTokenizer : Tokenizer Unit where
  bosToken := none
  eosToken := some ['#']
  applyChatTemplate messages _ := messages.flatMap (fun message ↦
    match message.content with
    | .text s => s
    | _ => []) ++ ['#']

def twoTurns : List (Message Unit) :=
  [⟨.user, .text ['a'], []⟩, ⟨.assistant, .text ['b'], []⟩]

/-- Without its marker each rendering begins the next, but the marker stays in the chunk. -/
theorem not_concatenates_twoTurns :
    (∃ marker front, wholeRendering markedTokenizer ⟨true, true, false⟩ (twoTurns.take 1) =
        front ++ marker ∧
      front <+: wholeRendering markedTokenizer ⟨true, true, false⟩ twoTurns) ∧
    ¬ ConcatenatesToRendering markedTokenizer ⟨true, true, false⟩ none twoTurns := by
  refine ⟨⟨['#'], ['a'], by decide, by decide⟩, ?_⟩
  rintro ⟨conversation, out, hlog, hout, htext⟩
  obtain rfl := Option.some.inj hlog
  obtain rfl := Option.some.inj hout
  revert htext
  decide

end Marked

end NemoRL.Data.ChatFormatting
