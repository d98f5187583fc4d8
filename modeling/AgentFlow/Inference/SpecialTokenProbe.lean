/-
# The special tokens of a model family

`agentflow/inference/special_token_probe.{h,cc}`: the token strings that each
family is known to leak. They stand in angle brackets and hold no further
bracket, so none contains or overlaps another one.

Key definitions: `ModelFamily`, `familySpecialTokens`.
Key theorems: `angled_of_family`, `lapFree_family`.
-/
import AgentFlow.Inference.SpecialTokens
import AgentFlow.Lib.Deletion

namespace AgentFlow

open Deletion

/-- `ModelFamily`. -/
inductive ModelFamily
  | unknown
  | gemma
  | qwen
  deriving DecidableEq, Repr

/-- `FamilySpecialTokens`. -/
def familySpecialTokens : ModelFamily → ModelSpecialTokens
  | .gemma => ⟨[
      "<|\"|>",
      "<|tool_call>", "</tool_call>", "<tool_call|>", "<|tool_call_ignore>",
      "<|tool_response>", "</tool_response>", "<tool_response|>",
      "<|image>", "<image|>", "<|audio>", "<audio|>",
      "<start_of_turn>", "<end_of_turn>",
      "<start_function_call>", "<end_function_call>",
      "<start_function_declaration>", "<end_function_declaration>",
      "<start_function_response>", "<end_function_response>",
      "<start_of_image>", "<end_of_image>",
      "<start_of_audio>", "<end_of_audio>"]⟩
  | .qwen => ⟨[
      "<|im_start|>", "<|im_end|>",
      "<tool_call>", "</tool_call>"]⟩
  | .unknown => ⟨[]⟩

-- by the list, not over all characters
instance (token : List Char) : Decidable (Angled token) :=
  @instDecidableAnd _ _ _ (@instDecidableAnd _ _ _ (List.decidableBAll (fun c => 32 ≤ c.toNat) token))

instance (a b : Char) (n : List Char) : Decidable (Marked a b n) :=
  inferInstanceAs (Decidable (_ ∧ _ ∧ _ ∧ _))

theorem angled_of_family (family : ModelFamily) : ∀ t ∈ (familySpecialTokens family).strip, Angled t.toList := by
  cases family <;> decide +kernel

theorem marked_of_family (family : ModelFamily) : ∀ n ∈ (familySpecialTokens family).needles, Marked '<' '>' n := by
  cases family <;> decide +kernel

/-- No token of a family contains or overlaps another one. -/
theorem lapFree_family (family : ModelFamily) : LapFree (familySpecialTokens family).needles :=
  lapFree_of_marked (marked_of_family family)

theorem nodup_family (family : ModelFamily) : (familySpecialTokens family).needles.Nodup := by
  cases family <;> decide +kernel

end AgentFlow
