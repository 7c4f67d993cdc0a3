import Mathlib
import NemoRL.Generation.TokenWrapper

namespace NemoRL.Generation.TokenWrapper

variable {μ δ τ : Type} [DecidableEq τ] {eos : τ} {json : ToolJson δ}

/-- A template that gives each message as many EOS tokens when the list is cut after a
later message as it has in the whole list, and an assistant's message at least one. -/
structure ChatTemplate.Stable (template : ChatTemplate μ δ τ) (eos : τ) : Prop where
  lead : ∀ messages g n, 0 < n → n ≤ messages.length →
    (template.lead (messages.take n) false).count eos = (template.lead messages g).count eos
  part : ∀ messages g n i, i < n → n ≤ messages.length →
    (template.part (messages.take n) false i).count eos = (template.part messages g i).count eos
  opener : ∀ messages, (template.opener messages false).count eos = 0
  assistant : ∀ messages g i m, messages[i]? = some m → m.role = .assistant →
    1 ≤ (template.part messages g i).count eos

/-- A turn that was served: the prompt's tokens and those generated, the renderings that
the prompt was made of, and in the whole one the tokens of the turn's new messages with
what prompts for the generation. -/
structure Served (τ : Type) where
  prompt : List τ
  generation : List τ
  full : List τ
  templatePrefix : Option (List τ)
  newTokens : List τ

def Served.tokens (turn : Served τ) : List τ := turn.prompt ++ turn.generation

/-- The sessions with an endpoint: each turn sends the history with new messages that have
no tokens of a model yet, and the reply joins the history with the tokens it was made of. -/
inductive Session (eos : τ) (json : ToolJson δ) :
    List (ChatMessage μ δ τ) → List (Served τ) → Prop
  | start : Session eos json [] []
  | turn {history opened rendered : List (ChatMessage μ δ τ)} {served : List (Served τ)}
      {req : ChatRequest μ δ τ} {body : PreparedBody μ δ τ} {full : List τ}
      {templatePrefix : Option (List τ)} (reply : ChatMessage μ δ τ) (generation : List τ) :
      Session eos json history served →
      (∀ m ∈ opened, m.isTokenizedAssistant = false) →
      req.messages = some (history ++ opened) → req.template.Stable eos →
      req.prepare json (some eos) = .ok body →
      req.renderMessages json (stripGymTokenMetadata (history ++ opened))
        (latestTokenizedAssistantIndex (history ++ opened)) =
          .ok (rendered, full, templatePrefix) →
      reply.role = .assistant →
      Session eos json
        (history ++ opened ++ [{ reply with
          promptTokenIds := some body.tokenData, generationTokenIds := some generation }])
        (served ++ [⟨body.tokenData, generation, full, templatePrefix,
          req.template.tokensFrom rendered req.requestAddGenerationPrompt history.length⟩])

section Rendering

variable {template : ChatTemplate μ δ τ} {messages : List (ChatMessage μ δ τ)} {g : Bool}

/-- The whole rendering has the prefix's EOS tokens before the messages after it, the last
of them in its last message. -/
theorem ChatTemplate.Stable.splits (h : template.Stable eos) {index : ℕ} {m : ChatMessage μ δ τ}
    (hm : messages[index]? = some m) (hrole : m.role = .assistant) :
    ∃ kept closing,
      template.lead messages g ++ template.tokensFrom messages g 0 =
          kept ++ eos :: (closing ++ template.tokensFrom messages g (index + 1)) ∧
        kept.count eos + 1 =
          (template.lead (messages.take (index + 1)) false ++
            template.tokensFrom (messages.take (index + 1)) false 0).count eos ∧
        closing.count eos = 0 := by
  obtain ⟨hindex, -⟩ := List.getElem?_eq_some_iff.mp hm
  set before := template.lead messages g ++
    (List.range (index + 1)).flatMap (template.part messages g) with hbefore
  have hrange : List.range messages.length =
      List.range (index + 1) ++ (List.range messages.length).drop (index + 1) := by
    conv_lhs => rw [← List.take_append_drop (index + 1) (List.range messages.length)]
    rw [List.take_range, Nat.min_eq_left hindex]
  have hwhole : template.lead messages g ++ template.tokensFrom messages g 0 =
      before ++ template.tokensFrom messages g (index + 1) := by
    rw [ChatTemplate.tokensFrom, ChatTemplate.tokensFrom, List.drop_zero]
    conv_lhs => rw [hrange, List.flatMap_append]
    rw [hbefore]
    simp only [List.append_assoc]
  have hcount : before.count eos = (template.lead (messages.take (index + 1)) false ++
      template.tokensFrom (messages.take (index + 1)) false 0).count eos := by
    have hlen : (messages.take (index + 1)).length = index + 1 := by
      rw [List.length_take, Nat.min_eq_left hindex]
    rw [hbefore, ChatTemplate.tokensFrom, List.drop_zero, hlen, List.count_append, List.count_append,
      List.count_append, h.opener, Nat.add_zero, List.count_flatMap, List.count_flatMap,
      h.lead messages g (index + 1) (Nat.succ_pos index) hindex]
    congr 2
    refine List.map_congr_left fun i hi ↦ ?_
    exact (h.part messages g (index + 1) i (List.mem_range.mp hi) hindex).symm
  have hpos : 0 < before.count eos := by
    have hpart := h.assistant messages g index m hm hrole
    rw [hbefore, List.range_succ, List.flatMap_append, List.flatMap_singleton, List.count_append,
      List.count_append]
    omega
  obtain ⟨kept, closing, hsplit, hkept⟩ := exists_occurrence
    (show before.count eos - 1 < before.count eos by omega)
  refine ⟨kept, closing, ?_, by omega, ?_⟩
  · rw [hwhole, hsplit, List.append_assoc, List.cons_append]
  · rw [hsplit, List.count_append, List.count_cons_self] at hkept hpos
    omega

end Rendering

section Requests

variable {template : ChatTemplate μ δ τ} {messages rendered : List (ChatMessage μ δ τ)} {g : Bool}
  {full : List τ} {templatePrefix : Option (List τ)} {req : ChatRequest μ δ τ}

omit [DecidableEq τ] in
theorem renderPromptTokenIds_ok {tokens : List τ}
    (h : renderPromptTokenIds template messages g = .ok tokens) :
    tokens = template.lead messages g ++ template.tokensFrom messages g 0 := by
  rw [renderPromptTokenIds] at h
  cases herror : template.error messages g with
  | none =>
    rw [herror] at h
    exact (Except.ok.inj h).symm
  | some e =>
    rw [herror] at h
    cases h

omit [DecidableEq τ] in
theorem renderPromptTokenIdsWithOptionalPrefix_some {index : ℕ}
    (h : renderPromptTokenIdsWithOptionalPrefix template messages g (some index) =
      .ok (full, templatePrefix)) :
    full = template.lead messages g ++ template.tokensFrom messages g 0 ∧
      templatePrefix = some (template.lead (messages.take (index + 1)) false ++
        template.tokensFrom (messages.take (index + 1)) false 0) := by
  cases hfull : renderPromptTokenIds template messages g with
  | error e =>
    simp only [renderPromptTokenIdsWithOptionalPrefix, hfull] at h
    cases h
  | ok tokens =>
    simp only [renderPromptTokenIdsWithOptionalPrefix, hfull] at h
    cases htemplate : renderPromptTokenIds template (messages.take (index + 1)) false with
    | error e =>
      rw [htemplate] at h
      cases h
    | ok prefixTokens =>
      rw [htemplate] at h
      cases h
      exact ⟨renderPromptTokenIds_ok hfull, by rw [renderPromptTokenIds_ok htemplate]⟩

omit [DecidableEq τ] in
theorem renderMessages_ok {assistantIndex : Option ℕ}
    (h : req.renderMessages json messages assistantIndex = .ok (rendered, full, templatePrefix)) :
    (rendered = messages ∨
        rendered = normalizeToolArgumentsForTemplate json messages messages.length) ∧
      renderPromptTokenIdsWithOptionalPrefix req.template rendered req.requestAddGenerationPrompt
        assistantIndex = .ok (full, templatePrefix) := by
  simp only [ChatRequest.renderMessages] at h
  cases hrender : renderPromptTokenIdsWithOptionalPrefix req.template messages
      req.requestAddGenerationPrompt assistantIndex with
  | ok out =>
    rw [hrender] at h
    cases h
    exact ⟨.inl rfl, hrender⟩
  | error e =>
    rw [hrender] at h
    cases e with
    | other message => cases h
    | typeError message =>
      simp only [Except.map] at h
      by_cases hmessage : message ≠ toolArgumentMappingError
      · rw [if_pos hmessage] at h
        cases h
      · rw [if_neg hmessage] at h
        cases hagain : renderPromptTokenIdsWithOptionalPrefix req.template
            (normalizeToolArgumentsForTemplate json messages messages.length)
            req.requestAddGenerationPrompt assistantIndex with
        | error e =>
          rw [hagain] at h
          cases h
        | ok out =>
          rw [hagain] at h
          cases h
          exact ⟨.inr rfl, hagain⟩

omit [DecidableEq τ] in
theorem role_of_rendered {all : List (ChatMessage μ δ τ)} {index : ℕ} {m : ChatMessage μ δ τ}
    (h : rendered = stripGymTokenMetadata all ∨ rendered = normalizeToolArgumentsForTemplate json
      (stripGymTokenMetadata all) (stripGymTokenMetadata all).length)
    (hm : all[index]? = some m) : ∃ m', rendered[index]? = some m' ∧ m'.role = m.role := by
  have hstrip : (stripGymTokenMetadata all)[index]? =
      some { m with promptTokenIds := none, generationTokenIds := none } := by
    rw [stripGymTokenMetadata, List.getElem?_map, hm, Option.map_some]
  rcases h with rfl | rfl
  · exact ⟨_, hstrip, rfl⟩
  · rw [normalizeToolArgumentsForTemplate, List.take_length, List.drop_length, List.append_nil,
      List.getElem?_map, hstrip, Option.map_some]
    refine ⟨_, rfl, ?_⟩
    split_ifs <;> rfl

theorem prepare_eq (hmessages : req.messages = some messages) {assistantIndex : Option ℕ}
    (hindex : assistantIndex = (deriveRequiredPrefixTokenIds messages).bind fun _ ↦
      latestTokenizedAssistantIndex messages)
    (hrender : req.renderMessages json (stripGymTokenMetadata messages) assistantIndex =
      .ok (rendered, full, templatePrefix)) {out : Except RequestError (PreparedBody μ δ τ)}
    (hout : req.prepare json (some eos) = out) :
    out = .error .streamUnsupported ∨ out = .error .onlyOneChoice ∨
      (deriveRequiredPrefixTokenIds messages = none ∧
        ∃ body, out = .ok body ∧ body.tokenData = full) ∨
      ∃ required, deriveRequiredPrefixTokenIds messages = some required ∧
        ((∃ e, out = .error (.splice e) ∧
            replacePrefixTokens (some eos) required (templatePrefix.getD []) full = .error e) ∨
          ∃ body, out = .ok body ∧
            replacePrefixTokens (some eos) required (templatePrefix.getD []) full =
              .ok body.tokenData) := by
  rw [ChatRequest.prepare] at hout
  by_cases hstream : req.stream = true
  · rw [if_pos hstream] at hout
    exact .inl hout.symm
  rw [if_neg hstream] at hout
  by_cases hn : req.n.getD 1 ≠ 1
  · rw [if_pos hn] at hout
    exact .inr (.inl hout.symm)
  rw [if_neg hn, hmessages] at hout
  simp only [← hindex, hrender] at hout
  cases hrequired : deriveRequiredPrefixTokenIds messages with
  | none =>
    rw [hrequired] at hout
    exact .inr (.inr (.inl ⟨rfl, _, hout.symm, rfl⟩))
  | some required =>
    rw [hrequired] at hout
    refine .inr (.inr (.inr ⟨required, rfl, ?_⟩))
    cases hsplice : replacePrefixTokens (some eos) required (templatePrefix.getD []) full with
    | error e =>
      simp only [hsplice] at hout
      exact .inl ⟨e, hout.symm, rfl⟩
    | ok tokenData =>
      simp only [hsplice] at hout
      exact .inr ⟨_, hout.symm, rfl⟩

theorem render_of_refused (hmessages : req.messages = some messages) {e : PrefixError}
    (h : req.prepare json (some eos) = .error (.splice e)) :
    ∃ rendered full templatePrefix required,
      req.renderMessages json (stripGymTokenMetadata messages)
          (latestTokenizedAssistantIndex messages) = .ok (rendered, full, templatePrefix) ∧
        deriveRequiredPrefixTokenIds messages = some required ∧
        replacePrefixTokens (some eos) required (templatePrefix.getD []) full = .error e := by
  obtain ⟨assistantIndex, hindex⟩ : ∃ assistantIndex, assistantIndex =
      (deriveRequiredPrefixTokenIds messages).bind fun _ ↦ latestTokenizedAssistantIndex messages :=
    ⟨_, rfl⟩
  cases hrender : req.renderMessages json (stripGymTokenMetadata messages) assistantIndex with
  | error e' =>
    rw [ChatRequest.prepare] at h
    by_cases hstream : req.stream = true
    · rw [if_pos hstream] at h
      cases h
    rw [if_neg hstream] at h
    by_cases hn : req.n.getD 1 ≠ 1
    · rw [if_pos hn] at h
      cases h
    rw [if_neg hn, hmessages] at h
    simp only [← hindex, hrender] at h
    cases h
  | ok out =>
    obtain ⟨rendered, full, templatePrefix⟩ := out
    rcases prepare_eq hmessages hindex hrender h with hfail | hfail | ⟨-, body, hfail, -⟩ |
        ⟨required, hsome, ⟨e', herror, hsplice⟩ | ⟨body, hfail, -⟩⟩
    · cases hfail
    · cases hfail
    · cases hfail
    · cases herror
      rw [hsome, Option.bind_some] at hindex
      exact ⟨rendered, full, templatePrefix, required, hindex ▸ hrender, hsome, hsplice⟩
    · cases hfail

end Requests

section Index

variable {history opened : List (ChatMessage μ δ τ)} {m : ChatMessage μ δ τ}

omit [DecidableEq τ] in
theorem latestTokenizedAssistantIndex_none (h : ∀ m ∈ opened, m.isTokenizedAssistant = false) :
    latestTokenizedAssistantIndex opened = none := by
  refine List.find?_eq_none.mpr fun index hindex ↦ ?_
  have hlt : index < opened.length := by simpa using hindex
  rw [List.getElem?_eq_getElem hlt, Option.any_some, h _ (List.getElem_mem hlt)]
  exact Bool.false_ne_true

omit [DecidableEq τ] in
theorem latestTokenizedAssistantIndex_append (hm : m.isTokenizedAssistant = true)
    (h : ∀ m ∈ opened, m.isTokenizedAssistant = false) :
    latestTokenizedAssistantIndex (history ++ [m] ++ opened) = some history.length := by
  have hlen : (history ++ [m] ++ opened).length = history.length + 1 + opened.length := by
    simp only [List.length_append, List.length_singleton]
  have hopened : ((List.range opened.length).map (history.length + 1 + ·)).reverse.find?
      (fun index ↦ (history ++ [m] ++ opened)[index]?.any ChatMessage.isTokenizedAssistant) =
        none := by
    refine List.find?_eq_none.mpr fun index hindex ↦ ?_
    rw [List.mem_reverse, List.mem_map] at hindex
    obtain ⟨i, hi, rfl⟩ := hindex
    have hget : (history ++ [m] ++ opened)[history.length + 1 + i]? = opened[i]? := by
      rw [List.getElem?_append_right (by simp), List.length_append, List.length_singleton,
        Nat.add_sub_cancel_left]
    have hlt := List.mem_range.mp hi
    rw [hget, List.getElem?_eq_getElem hlt, Option.any_some, h _ (List.getElem_mem hlt)]
    exact Bool.false_ne_true
  have hlast : (history ++ [m] ++ opened)[history.length]? = some m := by simp
  rw [latestTokenizedAssistantIndex, hlen, List.range_add, List.reverse_append, List.find?_append,
    hopened, Option.none_or, List.range_succ, List.reverse_append, List.reverse_singleton,
    List.singleton_append, List.find?_cons_of_pos (by rw [hlast]; exact hm)]

omit [DecidableEq τ] in
theorem deriveRequiredPrefixTokenIds_none (h : ∀ m ∈ opened, m.isTokenizedAssistant = false) :
    deriveRequiredPrefixTokenIds opened = none := by
  rw [deriveRequiredPrefixTokenIds, latestTokenizedAssistantIndex_none h]
  rfl

omit [DecidableEq τ] in
theorem deriveRequiredPrefixTokenIds_append {prompt generation : List τ}
    (hrole : m.role = .assistant) (hprompt : m.promptTokenIds = some prompt)
    (hgeneration : m.generationTokenIds = some generation)
    (h : ∀ m ∈ opened, m.isTokenizedAssistant = false) :
    latestTokenizedAssistantIndex (history ++ [m] ++ opened) = some history.length ∧
      deriveRequiredPrefixTokenIds (history ++ [m] ++ opened) = some (prompt ++ generation) := by
  have htokenized : m.isTokenizedAssistant = true := by
    simp [ChatMessage.isTokenizedAssistant, hrole, hprompt, hgeneration]
  have hindex := @latestTokenizedAssistantIndex_append _ _ _ history _ _ htokenized h
  have hlast : (history ++ [m] ++ opened)[history.length]? = some m := by simp
  refine ⟨hindex, ?_⟩
  simp only [deriveRequiredPrefixTokenIds, hindex, Option.bind_eq_bind, Option.bind_some, hlast,
    hprompt, hgeneration]
  rfl

end Index

section Sessions

structure Follows (eos : τ) (before turn : Served τ) : Prop where
  splits : ∃ kept closing templatePrefix,
    turn.full = kept ++ eos :: (closing ++ turn.newTokens) ∧
      turn.templatePrefix = some templatePrefix ∧
      kept.count eos + 1 = templatePrefix.count eos ∧ closing.count eos = 0 ∧
      (before.tokens ≠ [] → turn.prompt =
        before.tokens ++ closingEos eos before.tokens ++ (closing ++ turn.newTokens)) ∧
      (before.tokens = [] → turn.prompt = turn.full)

theorem Follows.tokens_carried {before turn : Served τ} (h : Follows eos before turn) :
    before.tokens <+: turn.prompt := by
  obtain ⟨kept, closing, templatePrefix, -, -, -, -, hsplice, -⟩ := h.splits
  by_cases htokens : before.tokens = []
  · rw [htokens]
    exact List.nil_prefix
  · rw [hsplice htokens, List.append_assoc]
    exact List.prefix_append _ _

theorem Session.last {history : List (ChatMessage μ δ τ)} {served : List (Served τ)}
    (h : Session eos json history served) :
    (history = [] ∧ served = []) ∨ ∃ before m turns turn, history = before ++ [m] ∧
      served = turns ++ [turn] ∧ m.role = .assistant ∧ m.promptTokenIds = some turn.prompt ∧
        m.generationTokenIds = some turn.generation := by
  cases h with
  | start => exact .inl ⟨rfl, rfl⟩
  | turn reply generation hsession hopened hmessages hstable hprepare hrender hrole =>
    exact .inr ⟨_, _, _, _, rfl, rfl, hrole, rfl, rfl⟩

theorem splice_after_reply {before opened rendered : List (ChatMessage μ δ τ)}
    {m : ChatMessage μ δ τ} {last : Served τ} {req : ChatRequest μ δ τ} {full : List τ}
    {templatePrefix : Option (List τ)} (hrole : m.role = .assistant)
    (hprompt : m.promptTokenIds = some last.prompt)
    (hgeneration : m.generationTokenIds = some last.generation)
    (hopened : ∀ m ∈ opened, m.isTokenizedAssistant = false)
    (hstable : req.template.Stable eos)
    (hrender : req.renderMessages json (stripGymTokenMetadata (before ++ [m] ++ opened))
      (latestTokenizedAssistantIndex (before ++ [m] ++ opened)) =
        .ok (rendered, full, templatePrefix)) :
    ∃ prompt, replacePrefixTokens (some eos) last.tokens (templatePrefix.getD []) full =
        .ok prompt ∧ ∀ generation, Follows eos last ⟨prompt, generation, full, templatePrefix,
          req.template.tokensFrom rendered req.requestAddGenerationPrompt (before ++ [m]).length⟩ := by
  obtain ⟨hindex, -⟩ := @deriveRequiredPrefixTokenIds_append _ _ _ before _ _ _ _ hrole hprompt
    hgeneration hopened
  rw [hindex] at hrender
  obtain ⟨hcopy, hoptional⟩ := renderMessages_ok hrender
  obtain ⟨hfull, htemplate⟩ := renderPromptTokenIdsWithOptionalPrefix_some hoptional
  have hlast : (before ++ [m] ++ opened)[before.length]? = some m := by simp
  obtain ⟨m', hm', hrole'⟩ := role_of_rendered hcopy hlast
  obtain ⟨kept, closing, hsplit, hcount, hclosing⟩ :=
    hstable.splits (g := req.requestAddGenerationPrompt) hm' (hrole'.trans hrole)
  have hlen : (before ++ [m]).length = before.length + 1 := by simp
  rw [← hfull] at hsplit
  rw [hlen, htemplate, Option.getD_some]
  by_cases htokens : last.tokens = []
  · rw [htokens]
    refine ⟨full, replacePrefixTokens_nil _, fun generation ↦ ⟨kept, closing, _, hsplit, rfl, hcount,
      hclosing, fun hne ↦ absurd htokens hne, fun _ ↦ rfl⟩⟩
  · refine ⟨_, replacePrefixTokens_of_occurrence htokens hsplit hcount, fun generation ↦
      ⟨kept, closing, _, hsplit, rfl, hcount, hclosing, fun _ ↦ rfl, fun hnil ↦ absurd hnil htokens⟩⟩

theorem Session.follows {history opened rendered : List (ChatMessage μ δ τ)}
    {served : List (Served τ)} {req : ChatRequest μ δ τ} {body : PreparedBody μ δ τ}
    {full : List τ} {templatePrefix : Option (List τ)} (h : Session eos json history served)
    (hopened : ∀ m ∈ opened, m.isTokenizedAssistant = false)
    (hmessages : req.messages = some (history ++ opened)) (hstable : req.template.Stable eos)
    (hprepare : req.prepare json (some eos) = .ok body)
    (hrender : req.renderMessages json (stripGymTokenMetadata (history ++ opened))
      (latestTokenizedAssistantIndex (history ++ opened)) = .ok (rendered, full, templatePrefix))
    (generation : List τ) :
    ∀ last ∈ served.getLast?, Follows eos last ⟨body.tokenData, generation, full, templatePrefix,
      req.template.tokensFrom rendered req.requestAddGenerationPrompt history.length⟩ := by
  rcases h.last with ⟨-, rfl⟩ | ⟨before, m, turns, turn, rfl, rfl, hrole, hprompt, hgeneration⟩
  · intro last hlast
    cases hlast
  intro last hlast
  rw [List.getLast?_concat, Option.mem_def, Option.some.injEq] at hlast
  subst hlast
  obtain ⟨hindex, hrequired⟩ := @deriveRequiredPrefixTokenIds_append _ _ _ before _ _ _ _ hrole
    hprompt hgeneration hopened
  obtain ⟨prompt, hsplice, hfollows⟩ := splice_after_reply hrole hprompt hgeneration hopened hstable
    hrender
  have hassistant : latestTokenizedAssistantIndex (before ++ [m] ++ opened) =
      (deriveRequiredPrefixTokenIds (before ++ [m] ++ opened)).bind fun _ ↦
        latestTokenizedAssistantIndex (before ++ [m] ++ opened) := by
    rw [hrequired]
    rfl
  have hcases := prepare_eq hmessages hassistant hrender hprepare
  rw [hrequired] at hcases
  rcases hcases with hfail | hfail | ⟨hfail, -⟩ | ⟨required, hsome, hout⟩
  · cases hfail
  · cases hfail
  · cases hfail
  cases hsome
  rcases hout with ⟨e, hfail, -⟩ | ⟨body', hbody, htokens⟩
  · cases hfail
  cases hbody
  have heq : body.tokenData = prompt := Except.ok.inj (htokens.symm.trans hsplice)
  rw [heq]
  exact hfollows generation

theorem Session.continues {history : List (ChatMessage μ δ τ)} {served : List (Served τ)}
    (h : Session eos json history served) :
    served.IsChain (Follows eos) ∧ served.Pairwise fun before turn ↦ before.tokens <+: turn.prompt := by
  induction h with
  | start => exact ⟨.nil, .nil⟩
  | @turn _ _ _ served _ _ _ _ reply generation hsession hopened hmessages hstable hprepare hrender
      hrole ih =>
    obtain ⟨hchain, hpairwise⟩ := ih
    have hfollows := hsession.follows hopened hmessages hstable hprepare hrender generation
    refine ⟨List.isChain_append.mpr ⟨hchain, .singleton _, fun last hlast turn hturn ↦ ?_⟩,
      List.pairwise_append.mpr ⟨hpairwise, List.pairwise_singleton _ _, fun early hearly turn hturn ↦ ?_⟩⟩
    · rw [List.head?_singleton, Option.mem_def, Option.some.injEq] at hturn
      exact hturn ▸ hfollows last hlast
    rw [List.mem_singleton] at hturn
    subst hturn
    obtain ⟨turns, last, hserved⟩ : ∃ turns last, served = turns ++ [last] := by
      rcases List.eq_nil_or_concat served with rfl | ⟨turns, last, hconcat⟩
      · cases hearly
      · exact ⟨turns, last, by rw [hconcat, List.concat_eq_append]⟩
    subst hserved
    have hlast := (hfollows last (by rw [List.getLast?_concat]; rfl)).tokens_carried
    rcases List.mem_append.mp hearly with hin | heq
    · have htemplate := (List.pairwise_append.mp hpairwise).2.2 early hin last
        (List.mem_singleton.mpr rfl)
      exact htemplate.trans ((List.prefix_append _ _).trans hlast)
    · rw [List.mem_singleton.mp heq]
      exact hlast

theorem Session.never_refused {history opened : List (ChatMessage μ δ τ)} {served : List (Served τ)}
    {req : ChatRequest μ δ τ} (h : Session eos json history served)
    (hopened : ∀ m ∈ opened, m.isTokenizedAssistant = false)
    (hmessages : req.messages = some (history ++ opened)) (hstable : req.template.Stable eos)
    (e : PrefixError) : req.prepare json (some eos) ≠ .error (.splice e) := by
  intro hrefused
  obtain ⟨rendered, full, templatePrefix, required, hrender, hsome, hsplice⟩ :=
    render_of_refused hmessages hrefused
  rcases h.last with ⟨rfl, -⟩ | ⟨before, m, turns, turn, rfl, -, hrole, hprompt, hgeneration⟩
  · rw [List.nil_append, deriveRequiredPrefixTokenIds_none hopened] at hsome
    cases hsome
  · obtain ⟨-, hrequired⟩ := @deriveRequiredPrefixTokenIds_append _ _ _ before _ _ _ _ hrole hprompt
      hgeneration hopened
    rw [hrequired, Option.some.injEq] at hsome
    subst hsome
    obtain ⟨prompt, hserved, -⟩ := splice_after_reply hrole hprompt hgeneration hopened hstable
      hrender
    cases hsplice.symm.trans hserved

/-- The splice is refused exactly where there is something to keep and the template's
EOS tokens do not reach, and a session is never refused one: each prompt is the tokens of
the turn before it, closed, and then what the template has after them. -/
theorem monotonic_tokens (eos : τ) :
    (∀ modelPrefix templatePrefix template : List τ,
        (∃ e, replacePrefixTokens (some eos) modelPrefix templatePrefix template = .error e) ↔
          modelPrefix ≠ [] ∧
            (templatePrefix.count eos = 0 ∨ template.count eos < templatePrefix.count eos)) ∧
      ∀ (json : ToolJson δ) (history : List (ChatMessage μ δ τ)) (served : List (Served τ)),
        Session eos json history served →
          served.IsChain (Follows eos) ∧
            served.Pairwise (fun before turn ↦ before.tokens <+: turn.prompt) ∧
            ∀ (opened : List (ChatMessage μ δ τ)) (req : ChatRequest μ δ τ) (e : PrefixError),
              (∀ m ∈ opened, m.isTokenizedAssistant = false) →
                req.messages = some (history ++ opened) → req.template.Stable eos →
                  req.prepare json (some eos) ≠ .error (.splice e) := by
  refine ⟨fun _ _ _ ↦ replacePrefixTokens_error_iff, fun json history served h ↦ ?_⟩
  obtain ⟨hchain, hpairwise⟩ := h.continues
  exact ⟨hchain, hpairwise, fun opened req e hopened hmessages hstable ↦
    h.never_refused hopened hmessages hstable e⟩

def plainTemplate : ChatTemplate ℕ Unit ℕ where
  error _ _ := none
  lead _ _ := []
  part messages _ i := ((messages[i]?).map fun m ↦ [m.content, 2]).getD []
  opener _ _ := []

theorem plainTemplate_stable : plainTemplate.Stable 2 where
  lead _ _ _ _ _ := rfl
  part messages g n i hi hn := by
    have hget : (messages.take n)[i]? = messages[i]? := List.getElem?_take_of_lt hi
    simp only [plainTemplate, hget]
  opener _ := rfl
  assistant messages g i m hm _ := by
    simp only [plainTemplate, hm, Option.map_some, Option.getD_some]
    exact List.count_pos_iff.mpr (by simp)

def plainJson : ToolJson Unit := ⟨fun _ ↦ none, ()⟩

def plainMessage (role : Role) (content : ℕ) : ChatMessage ℕ Unit ℕ :=
  ⟨role, content, [], none, none⟩

def plainRequest (messages : List (ChatMessage ℕ Unit ℕ)) : ChatRequest ℕ Unit ℕ :=
  ⟨false, none, some messages, none, false, [], plainTemplate⟩

def plainTurns : List (Served ℕ) :=
  [⟨[5, 2], [], [5, 2], none, [5, 2]⟩,
    ⟨[5, 2, 6, 2], [9, 2], [5, 2, 7, 2, 6, 2], some [5, 2, 7, 2], [6, 2]⟩]

theorem plain_session : ∃ history : List (ChatMessage ℕ Unit ℕ),
    Session 2 plainJson history plainTurns := by
  have hfirst := @Session.turn _ _ _ _ 2 plainJson _ [plainMessage .other 5] _ _
    (plainRequest [plainMessage .other 5]) _ _ _ (plainMessage .assistant 7) [] .start (by decide)
    rfl plainTemplate_stable rfl rfl rfl
  have hsecond := @Session.turn _ _ _ _ _ _ _ [plainMessage .other 6] _ _
    (plainRequest ([plainMessage .other 5,
      { plainMessage .assistant 7 with
        promptTokenIds := some [5, 2], generationTokenIds := some [] }] ++
      [plainMessage .other 6])) _ _ _ (plainMessage .assistant 8) [9, 2] hfirst (by decide) rfl
    plainTemplate_stable rfl rfl rfl
  exact ⟨_, hsecond⟩

/-- The reply ends with its EOS, and the template writes another one in its place. -/
def closedTurns : List (Served ℕ) :=
  [⟨[5, 2], [8, 2], [5, 2], none, [5, 2]⟩,
    ⟨[5, 2, 8, 2, 6, 2], [9, 2], [5, 2, 7, 2, 6, 2], some [5, 2, 7, 2], [6, 2]⟩]

theorem closed_session : ∃ history : List (ChatMessage ℕ Unit ℕ),
    Session 2 plainJson history closedTurns := by
  have hfirst := @Session.turn _ _ _ _ 2 plainJson _ [plainMessage .other 5] _ _
    (plainRequest [plainMessage .other 5]) _ _ _ (plainMessage .assistant 7) [8, 2] .start
    (by decide) rfl plainTemplate_stable rfl rfl rfl
  have hsecond := @Session.turn _ _ _ _ _ _ _ [plainMessage .other 6] _ _
    (plainRequest ([plainMessage .other 5,
      { plainMessage .assistant 7 with
        promptTokenIds := some [5, 2], generationTokenIds := some [8, 2] }] ++
      [plainMessage .other 6])) _ _ _ (plainMessage .assistant 8) [9, 2] hfirst (by decide) rfl
    plainTemplate_stable rfl rfl rfl
  exact ⟨_, hsecond⟩

theorem monotonic_tokens_closed : ∃ history : List (ChatMessage ℕ Unit ℕ),
    Session 2 plainJson history closedTurns ∧ closedTurns.IsChain (Follows 2) ∧
      closedTurns.Pairwise fun before turn ↦ before.tokens <+: turn.prompt := by
  obtain ⟨history, h⟩ := closed_session
  obtain ⟨hchain, hprefixes, -⟩ := (monotonic_tokens 2).2 plainJson history closedTurns h
  exact ⟨history, h, hchain, hprefixes⟩

/-- Nothing to keep is not refused, and the EOS of a prompt stands for that of a reply
of no tokens. -/
theorem empty_reply_not_closed :
    replacePrefixTokens (some 2) [] [9] [9, 2, 10] = .ok [9, 2, 10] ∧
      (∃ history : List (ChatMessage ℕ Unit ℕ), Session 2 plainJson history plainTurns) ∧
        plainTurns.map Served.prompt ≠ [[5, 2], [5, 2] ++ [] ++ [2] ++ [6, 2]] :=
  ⟨rfl, plain_session, by decide⟩

end Sessions

end NemoRL.Generation.TokenWrapper
