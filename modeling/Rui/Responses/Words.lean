import Rui.Json.Calls

/-!
# Words of the Responses codec

The closed sets of the codec contract and of `codecs/responses.zig`, and how
text is compared with them. A text longer than the reader keeps is no word.
-/

namespace Rui.Responses

open Library Library.Json Rui.Json

/-! ## The codec contract -/

inductive Operation | assistantResponse | compaction
  deriving DecidableEq, Repr

inductive OutputKind | reasoning | message | functionCall | compaction | webSearchCall
  deriving DecidableEq, Repr

inductive Phase | unphased | commentary | finalAnswer
  deriving DecidableEq, Repr

/-! ## Tags -/

/-- The tag that bytes spell, of those there are. -/
def stringToEnum {ε : Type} (spell : ε → List UInt8) : List ε → List UInt8 → Option ε
  | [], _ => none
  | tag :: tags, bytes => if spell tag = bytes then some tag else stringToEnum spell tags bytes

theorem spell_of_stringToEnum {ε : Type} {spell : ε → List UInt8} {tags : List ε}
    {bytes : List UInt8} {tag : ε} (h : stringToEnum spell tags bytes = some tag) :
    spell tag = bytes := by
  induction tags with
  | nil => cases h
  | cons first tags ih =>
    rw [stringToEnum] at h
    split at h
    · cases h
      assumption
    · exact ih h

/-- A text that is cut short is no tag, so the kept text tells the tags apart. -/
theorem stringToEnum_slice {ε : Type} {spell : ε → List UInt8} {tags : List ε}
    (hshort : ∀ tag ∈ tags, (spell tag).length ≤ maxTextBytes) (bytes : List UInt8) :
    (Text.of bytes).slice.bind (stringToEnum spell tags) = stringToEnum spell tags bytes := by
  rw [Text.slice_of]
  by_cases hlong : bytes.length ≤ maxTextBytes
  · rw [if_pos hlong, Option.bind_some]
  · rw [if_neg hlong, Option.bind_none]
    induction tags with
    | nil => rfl
    | cons tag tags ih =>
      have hne : spell tag ≠ bytes := by
        rintro rfl
        exact hlong (hshort tag List.mem_cons_self)
      rw [stringToEnum, if_neg hne]
      exact ih fun tag htag => hshort tag (List.mem_cons_of_mem _ htag)

/-! ## Words -/

/-- Strings the interpreter compares whole. -/
inductive Word
  | responseOutputItemAdded
  | responseOutputItemDone
  | responseCompleted
  | error
  | responseFailed
  | responseIncomplete
  | failed
  | incomplete
  | contextLengthExceeded
  | reasoning
  | compaction
  | functionCall
  | message
  | webSearchCall
  | completed
  | assistant
  | commentary
  | partialAnswer
  | finalAnswer
  | direct
  | outputText
  | refusal
  | reasoningText
  | summaryText
  | urlCitation
  deriving DecidableEq, Repr

namespace Word

def spell : Word → List UInt8
  | responseOutputItemAdded => text "response.output_item.added"
  | responseOutputItemDone => text "response.output_item.done"
  | responseCompleted => text "response.completed"
  | error => text "error"
  | responseFailed => text "response.failed"
  | responseIncomplete => text "response.incomplete"
  | failed => text "failed"
  | incomplete => text "incomplete"
  | contextLengthExceeded => text "context_length_exceeded"
  | reasoning => text "reasoning"
  | compaction => text "compaction"
  | functionCall => text "function_call"
  | message => text "message"
  | webSearchCall => text "web_search_call"
  | completed => text "completed"
  | assistant => text "assistant"
  | commentary => text "commentary"
  | partialAnswer => text "partial_answer"
  | finalAnswer => text "final_answer"
  | direct => text "direct"
  | outputText => text "output_text"
  | refusal => text "refusal"
  | reasoningText => text "reasoning_text"
  | summaryText => text "summary_text"
  | urlCitation => text "url_citation"

def all : List Word :=
  [responseOutputItemAdded, responseOutputItemDone, responseCompleted, error, responseFailed,
    responseIncomplete, failed, incomplete, contextLengthExceeded, reasoning, compaction,
    functionCall, message, webSearchCall, completed, assistant, commentary, partialAnswer,
    finalAnswer, direct, outputText, refusal, reasoningText, summaryText, urlCitation]

/-- The word that bytes are, if any. -/
def named (bytes : List UInt8) : Option Word := stringToEnum spell all bytes

/-- The word that a string the reader kept is. -/
def of (kept : Text) : Option Word := kept.slice.bind named

theorem of_text (bytes : List UInt8) : of (.of bytes) = named bytes :=
  stringToEnum_slice (by decide) bytes

/-- The kind of item that a `type` names. -/
def kind : Option Word → Option OutputKind
  | some reasoning => some .reasoning
  | some compaction => some .compaction
  | some functionCall => some .functionCall
  | some message => some .message
  | some webSearchCall => some .webSearchCall
  | _ => none

end Word

end Rui.Responses
