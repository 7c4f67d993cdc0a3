import Mathlib
import NemoRL.Generation.OpenaiServerUtils

namespace NemoRL.Generation.TokenWrapper

variable {μ δ τ : Type}

inductive Role
  | assistant
  | other
  deriving DecidableEq

inductive ToolArguments (δ : Type)
  | absent
  | text (s : String)
  | mapping (d : δ)

/-- A message of a request, with the token metadata that earlier responses attached. -/
structure ChatMessage (μ δ τ : Type) where
  role : Role
  content : μ
  toolCalls : List (ToolArguments δ)
  promptTokenIds : Option (List τ)
  generationTokenIds : Option (List τ)

structure ToolJson (δ : Type) where
  loads : String → Option δ
  empty : δ

inductive TemplateError
  | typeError (message : String)
  | other (message : String)
  deriving DecidableEq

/-- The tokenizer's `apply_chat_template` with a request's own arguments: the tokens
before the messages, those of each message of a list, and those that prompt for a
generation. -/
structure ChatTemplate (μ δ τ : Type) where
  error : List (ChatMessage μ δ τ) → Bool → Option TemplateError
  lead : List (ChatMessage μ δ τ) → Bool → List τ
  part : List (ChatMessage μ δ τ) → Bool → ℕ → List τ
  opener : List (ChatMessage μ δ τ) → Bool → List τ

structure ChatRequest (μ δ τ : Type) where
  stream : Bool
  n : Option ℕ
  messages : Option (List (ChatMessage μ δ τ))
  addGenerationPrompt : Option Bool
  continueFinalMessage : Bool
  extraFields : List String
  template : ChatTemplate μ δ τ

/-- The prepared body, with `nvext.extra_fields` and `nvext.token_data`. -/
structure PreparedBody (μ δ τ : Type) where
  messages : List (ChatMessage μ δ τ)
  extraFields : List String
  tokenData : List τ

inductive RequestError
  | streamUnsupported
  | onlyOneChoice
  | messagesRequired
  | template (e : TemplateError)
  | splice (e : PrefixError)
  deriving DecidableEq

def toolArgumentMappingError : String := "Can only get item pairs from a mapping."

section Messages

def stripGymTokenMetadata (messages : List (ChatMessage μ δ τ)) : List (ChatMessage μ δ τ) :=
  messages.map fun m ↦ { m with promptTokenIds := none, generationTokenIds := none }

def ChatMessage.isTokenizedAssistant (m : ChatMessage μ δ τ) : Bool :=
  m.role = .assistant ∧ m.promptTokenIds.isSome ∧ m.generationTokenIds.isSome

def latestTokenizedAssistantIndex (messages : List (ChatMessage μ δ τ)) : Option ℕ :=
  (List.range messages.length).reverse.find? fun index ↦
    messages[index]?.any ChatMessage.isTokenizedAssistant

def deriveRequiredPrefixTokenIds (messages : List (ChatMessage μ δ τ)) : Option (List τ) := do
  let assistantIndex ← latestTokenizedAssistantIndex messages
  let message ← messages[assistantIndex]?
  let promptTokenIds ← message.promptTokenIds
  let generationTokenIds ← message.generationTokenIds
  return promptTokenIds ++ generationTokenIds

def ToolArguments.normalize (json : ToolJson δ) : ToolArguments δ → ToolArguments δ
  | .text s => .mapping ((json.loads s).getD json.empty)
  | .mapping d => .mapping d
  | .absent => .absent

def normalizeToolArgumentsForTemplate (json : ToolJson δ) (messages : List (ChatMessage μ δ τ))
    (beforeIndex : ℕ) : List (ChatMessage μ δ τ) :=
  (messages.take beforeIndex).map (fun m ↦
    if m.role = .assistant then { m with toolCalls := m.toolCalls.map (ToolArguments.normalize json) }
    else m) ++ messages.drop beforeIndex

end Messages

section Rendering

variable (template : ChatTemplate μ δ τ)

def ChatTemplate.tokensFrom (messages : List (ChatMessage μ δ τ)) (addGenerationPrompt : Bool)
    (start : ℕ) : List τ :=
  ((List.range messages.length).drop start).flatMap (template.part messages addGenerationPrompt) ++
    template.opener messages addGenerationPrompt

def renderPromptTokenIds (messages : List (ChatMessage μ δ τ)) (addGenerationPrompt : Bool) :
    Except TemplateError (List τ) :=
  match template.error messages addGenerationPrompt with
  | some e => .error e
  | none => .ok (template.lead messages addGenerationPrompt ++
      template.tokensFrom messages addGenerationPrompt 0)

def renderPromptTokenIdsWithOptionalPrefix (messages : List (ChatMessage μ δ τ))
    (addGenerationPrompt : Bool) (assistantIndex : Option ℕ) :
    Except TemplateError (List τ × Option (List τ)) :=
  match renderPromptTokenIds template messages addGenerationPrompt, assistantIndex with
  | .error e, _ => .error e
  | .ok full, none => .ok (full, none)
  | .ok full, some index =>
    (renderPromptTokenIds template (messages.take (index + 1)) false).map fun templatePrefix ↦
      (full, some templatePrefix)

end Rendering

namespace ChatRequest

variable (json : ToolJson δ) (req : ChatRequest μ δ τ)

def requestAddGenerationPrompt : Bool :=
  req.addGenerationPrompt.getD (!req.continueFinalMessage)

/-- The rendering of the messages, or of their normalised copies where the template
iterates over the arguments of a tool call. -/
def renderMessages (messages : List (ChatMessage μ δ τ)) (assistantIndex : Option ℕ) :
    Except TemplateError (List (ChatMessage μ δ τ) × List τ × Option (List τ)) :=
  let render messages := (renderPromptTokenIdsWithOptionalPrefix req.template messages
    req.requestAddGenerationPrompt assistantIndex).map fun out ↦ (messages, out)
  match render messages with
  | .ok out => .ok out
  | .error (.other message) => .error (.other message)
  | .error (.typeError message) =>
    if message ≠ toolArgumentMappingError then .error (.typeError message)
    else render (normalizeToolArgumentsForTemplate json messages messages.length)

def prepare [DecidableEq τ] (eosTokenId : Option τ) :
    Except RequestError (PreparedBody μ δ τ) :=
  if req.stream then .error .streamUnsupported
  else if req.n.getD 1 ≠ 1 then .error .onlyOneChoice
  else match req.messages with
    | none => .error .messagesRequired
    | some messages =>
      let strippedMessages := stripGymTokenMetadata messages
      let requiredPrefixTokenIds := deriveRequiredPrefixTokenIds messages
      let assistantIndex := requiredPrefixTokenIds.bind fun _ ↦ latestTokenizedAssistantIndex messages
      let body := fun tokenData ↦
        ⟨strippedMessages, (req.extraFields ++ ["engine_data"]).eraseDups, tokenData⟩
      match req.renderMessages json strippedMessages assistantIndex with
      | .error e => .error (.template e)
      | .ok (_, full, templatePrefix) =>
        match requiredPrefixTokenIds with
        | none => .ok (body full)
        | some required =>
          match replacePrefixTokens eosTokenId required (templatePrefix.getD []) full with
          | .error e => .error (.splice e)
          | .ok tokenData => .ok (body tokenData)

end ChatRequest

end NemoRL.Generation.TokenWrapper
