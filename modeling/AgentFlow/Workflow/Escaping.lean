/-
# Writing a text as a template

Two opening braces that are meant literally are written with a backslash
before them. The parser undoes it run by run: a run of an even number of
opening braces, or of one, is read back, and so is one closing brace, but two
closing braces together are refused (`parseFrom_escape`,
`parseFrom_escape_closing`). So a text whose runs of opening braces are of
these kinds survives exactly if no two of its closing braces stand together
(`survives_iff_single`).

Key definitions: `escape`, `Paired`, `Single`, `Survives`.
Key theorems: `parseFrom_escape`, `survives_iff_single`.
-/
import AgentFlow.Lib.Runs
import AgentFlow.Workflow.Template

namespace AgentFlow.Workflow

open Json Runs

namespace TemplateString

/-- The text with a backslash before every two opening braces. -/
def escape : List Char → List Char
  | '{' :: '{' :: rest => '\\' :: '{' :: '{' :: escape rest
  | c :: rest => c :: escape rest
  | [] => []

/-- The runs of opening braces are one brace, or an even number of them. -/
def Paired (t : List Char) : Prop := ∀ n, List.replicate n '{' ∈ runs t → n = 1 ∨ Even n

/-- No two closing braces stand together. -/
def Single (t : List Char) : Prop := ∀ n, List.replicate n '}' ∈ runs t → n = 1

section

variable {c : Char} {P : ℕ → Prop} {t : List Char}

/-- The runs of one symbol, by their lengths. -/
theorem forall_runs_iff : (∀ run ∈ runs t, run = List.replicate run.length c → P run.length) ↔
    ∀ n, List.replicate n c ∈ runs t → P n := by
  constructor
  · intro h n hn
    simpa using h _ hn (by rw [List.length_replicate])
  · intro h run hrun heq
    exact h run.length (heq ▸ hrun)

instance : Decidable (Paired t) := decidable_of_iff _ (forall_runs_iff (P := fun n => n = 1 ∨ Even n))

instance : Decidable (Single t) := decidable_of_iff _ (forall_runs_iff (P := fun n => n = 1))

end

/-- The text as a template is accepted, contains no substitution and evaluates
to the text, whatever the context. -/
def Survives (t : String) : Prop :=
  ∃ template, parse (String.ofList (escape t.toList)) = .ok template ∧ template.paths = [] ∧
    ∀ C ctx, template.evaluate C ctx = .str t

/-! ### Escaping a run -/

theorem escape_nil : escape [] = [] := rfl

theorem escape_pair (rest : List Char) : escape ('{' :: '{' :: rest) = '\\' :: '{' :: '{' :: escape rest := rfl

theorem escape_cons {c : Char} {rest : List Char} (h : ¬ (c = '{' ∧ rest.head? = some '{')) :
    escape (c :: rest) = c :: escape rest := by
  rw [escape]
  rintro u rfl rfl
  exact h ⟨rfl, rfl⟩

/-- What begins with another symbol than an opening brace still begins with it. -/
theorem head?_escape {rest : List Char} (h : rest.head? ≠ some '{') : (escape rest).head? = rest.head? := by
  cases rest with
  | nil => rfl
  | cons c rest =>
    rw [escape_cons (by rintro ⟨rfl, -⟩; exact h rfl)]
    rfl

/-- What begins with an opening brace does not begin with a closing one. -/
theorem head?_escape_brace (rest : List Char) : (escape ('{' :: rest)).head? ≠ some '}' := by
  by_cases h : rest.head? = some '{'
  · obtain ⟨rest', rfl⟩ := List.head?_eq_some_iff.mp h
    rw [escape_pair]
    simp
  · rw [escape_cons fun hc => h hc.2]
    simp

theorem escape_replicate {n : ℕ} {c : Char} (rest : List Char) (hc : c ≠ '{') :
    escape (List.replicate n c ++ rest) = List.replicate n c ++ escape rest := by
  induction n with
  | zero => rfl
  | succ n ih => rw [List.replicate_succ, List.cons_append, escape_cons (fun h => hc h.1), ih, List.cons_append]

/-! ### Reading a run -/

section

variable {lit rest : List Char} {c : Char}

theorem parseFrom_nil : parseFrom (.literal lit) [] = .ok (flush lit) := rfl

theorem parseFrom_back :
    parseFrom (.literal lit) ('\\' :: '{' :: rest) = parseFrom (.literal (lit ++ ['{'])) rest := rfl

theorem parseFrom_close : parseFrom (.literal lit) ('}' :: '}' :: rest) = .error "unmatched '\x7d\x7d'" := rfl

/-- A symbol that begins no mark is literal. -/
theorem parseFrom_cons (hback : c ≠ '\\') (hbrace : ¬ (c = '{' ∧ rest.head? = some '{'))
    (hclose : ¬ (c = '}' ∧ rest.head? = some '}')) :
    parseFrom (.literal lit) (c :: rest) = parseFrom (.literal (lit ++ [c])) rest := by
  rw [parseFrom]
  · rintro u rfl -
    exact hback rfl
  · rintro u rfl rfl
    exact hbrace ⟨rfl, rfl⟩
  · rintro u rfl rfl
    exact hclose ⟨rfl, rfl⟩

theorem parseFrom_replicate {n : ℕ} (hback : c ≠ '\\') (hopen : c ≠ '{') (hclose : c ≠ '}') :
    parseFrom (.literal lit) (List.replicate n c ++ rest) = parseFrom (.literal (lit ++ List.replicate n c)) rest := by
  induction n generalizing lit with
  | zero => rw [List.replicate_zero, List.nil_append, List.append_nil]
  | succ n ih =>
    rw [List.replicate_succ, List.cons_append, parseFrom_cons hback (fun h => hopen h.1) (fun h => hclose h.1), ih,
      List.append_assoc, List.singleton_append]

/-- Two opening braces, escaped. -/
theorem parseFrom_escaped (h : rest.head? ≠ some '{') :
    parseFrom (.literal lit) ('\\' :: '{' :: '{' :: rest) = parseFrom (.literal (lit ++ ['{', '{'])) rest := by
  rw [parseFrom_back, parseFrom_cons (by decide) (fun hc => h hc.2) (fun hc => absurd hc.1 (by decide)), List.append_assoc]
  rfl

theorem parseFrom_escape_pairs {n : ℕ} (h : rest.head? ≠ some '{') :
    parseFrom (.literal lit) (escape (List.replicate (2 * n) '{' ++ rest)) =
      parseFrom (.literal (lit ++ List.replicate (2 * n) '{')) (escape rest) := by
  induction n generalizing lit with
  | zero => rw [Nat.mul_zero, List.replicate_zero, List.nil_append, List.append_nil]
  | succ n ih =>
    have hhead : (escape (List.replicate (2 * n) '{' ++ rest)).head? ≠ some '{' := by
      cases n with
      | zero => rwa [Nat.mul_zero, List.replicate_zero, List.nil_append, head?_escape h]
      | succ n =>
        rw [Nat.mul_add, List.replicate_succ, List.replicate_succ, List.cons_append, List.cons_append, escape_pair]
        simp
    rw [Nat.mul_add, List.replicate_succ, List.replicate_succ, List.cons_append, List.cons_append, escape_pair,
      parseFrom_escaped hhead, ih, List.append_assoc]
    rfl

end

/-! ### Reading an escaped text back -/

theorem paired_append {n : ℕ} {c : Char} {rest : List Char} (hn : n ≠ 0) (hrest : rest.head? ≠ some c)
    (h : Paired (List.replicate n c ++ rest)) : (c = '{' → n = 1 ∨ Even n) ∧ Paired rest := by
  rw [Paired, runs_replicate_append hn hrest] at h
  refine ⟨?_, fun m hm => h m (List.mem_cons_of_mem _ hm)⟩
  rintro rfl
  exact h n List.mem_cons_self

theorem single_append {n : ℕ} {c : Char} {rest : List Char} (hn : n ≠ 0) (hrest : rest.head? ≠ some c) :
    Single (List.replicate n c ++ rest) ↔ (c = '}' → n = 1) ∧ Single rest := by
  rw [Single, runs_replicate_append hn hrest]
  constructor
  · refine fun h => ⟨?_, fun m hm => h m (List.mem_cons_of_mem _ hm)⟩
    rintro rfl
    exact h n List.mem_cons_self
  · rintro ⟨hfirst, hlater⟩ m hm
    rcases List.mem_cons.mp hm with heq | hm
    · rw [List.replicate_inj] at heq
      obtain ⟨rfl, h | h⟩ := heq
      · exact absurd h hn
      · exact hfirst h.symm
    · exact hlater m hm

/-- One run of a text whose opening braces are paired. -/
theorem parseFrom_run {n : ℕ} {c : Char} {lit rest : List Char} (hn : n ≠ 0) (hrest : rest.head? ≠ some c)
    (hback : c ≠ '\\') (hopen : c = '{' → n = 1 ∨ Even n) :
    parseFrom (.literal lit) (escape (List.replicate n c ++ rest)) =
      if c = '}' ∧ n ≠ 1 then .error "unmatched '\x7d\x7d'"
      else parseFrom (.literal (lit ++ List.replicate n c)) (escape rest) := by
  by_cases hbrace : c = '{'
  · subst hbrace
    rw [if_neg (by simp)]
    rcases hopen rfl with rfl | ⟨k, rfl⟩
    · have hcons : List.replicate 1 '{' ++ rest = '{' :: rest := rfl
      rw [hcons, escape_cons (fun h => hrest h.2),
        parseFrom_cons (by simp) (fun h => hrest (head?_escape hrest ▸ h.2)) (by simp)]
      rfl
    · rw [← two_mul, parseFrom_escape_pairs hrest]
  · rw [escape_replicate rest hbrace]
    by_cases hclose : c = '}'
    · subst hclose
      obtain ⟨k, rfl⟩ := Nat.exists_eq_succ_of_ne_zero hn
      cases k with
      | zero =>
        have hhead : (escape rest).head? ≠ some '}' := by
          by_cases hbegin : rest.head? = some '{'
          · cases rest with
            | nil => simp at hbegin
            | cons d rest =>
              obtain rfl : d = '{' := by simpa using hbegin
              exact head?_escape_brace rest
          · rwa [head?_escape hbegin]
        rw [if_neg (by simp)]
        exact parseFrom_cons (by simp) (by simp) (fun h => hhead h.2)
      | succ k =>
        rw [if_pos (by simp), List.replicate_succ, List.replicate_succ, List.cons_append, List.cons_append]
        exact parseFrom_close
    · rw [if_neg (fun h => hclose h.1), parseFrom_replicate hback hbrace hclose]

/-- **What survives**: a text whose closing braces stand alone is read back. -/
theorem parseFrom_escape {t lit : List Char} (hback : '\\' ∉ t) (hpaired : Paired t) (hsingle : Single t) :
    parseFrom (.literal lit) (escape t) = .ok (flush (lit ++ t)) := by
  induction t using runs_induction generalizing lit with
  | nil => rw [escape_nil, parseFrom_nil, List.append_nil]
  | run n c rest hn hrest ih =>
    obtain ⟨hopen, hpaired⟩ := paired_append hn hrest hpaired
    obtain ⟨hclose, hsingle⟩ := (single_append hn hrest).mp hsingle
    rw [List.mem_append, not_or] at hback
    have hc : c ≠ '\\' := by
      rintro rfl
      exact hback.1 (List.mem_replicate.mpr ⟨hn, rfl⟩)
    rw [parseFrom_run hn hrest hc hopen, if_neg (fun h => h.2 (hclose h.1)), ih hback.2 hpaired hsingle,
      List.append_assoc]

/-- Two closing braces together are refused. -/
theorem parseFrom_escape_closing {t lit : List Char} (hback : '\\' ∉ t) (hpaired : Paired t) (hsingle : ¬ Single t) :
    parseFrom (.literal lit) (escape t) = .error "unmatched '\x7d\x7d'" := by
  induction t using runs_induction generalizing lit with
  | nil =>
    refine absurd (fun n hn => ?_) hsingle
    rw [runs_nil] at hn
    cases hn
  | run n c rest hn hrest ih =>
    obtain ⟨hopen, hpaired⟩ := paired_append hn hrest hpaired
    rw [single_append hn hrest] at hsingle
    rw [List.mem_append, not_or] at hback
    have hc : c ≠ '\\' := by
      rintro rfl
      exact hback.1 (List.mem_replicate.mpr ⟨hn, rfl⟩)
    rw [parseFrom_run hn hrest hc hopen]
    split_ifs with hdouble
    · rfl
    · exact ih hback.2 hpaired fun h => hsingle ⟨fun heq => by_contra fun hne => hdouble ⟨heq, hne⟩, h⟩

/-- A literal evaluates to itself. -/
theorem evaluate_flush (C : Codec) (ctx : EvalContext) (source : String) (t : List Char) :
    evaluate C ctx ⟨source, flush t⟩ = .str (String.ofList t) := by
  rw [flush]
  split_ifs with h
  · rw [h]
    rfl
  · simp [evaluate, String.join]

theorem survives_of_single {t : String} (hback : '\\' ∉ t.toList) (hpaired : Paired t.toList)
    (hsingle : Single t.toList) : Survives t := by
  have hparse : parse (String.ofList (escape t.toList)) = .ok ⟨String.ofList (escape t.toList), flush t.toList⟩ := by
    rw [parse, String.toList_ofList, parseFrom_escape hback hpaired hsingle, List.nil_append]
    rfl
  refine ⟨_, hparse, ?_, fun C ctx => ?_⟩
  · simp only [paths, flush]
    split_ifs <;> rfl
  · rw [evaluate_flush, String.ofList_toList]

/-- **A text survives being written as a template** exactly if no two of its
closing braces stand together; otherwise it is refused for them. -/
theorem survives_iff_single {t : String} (hback : '\\' ∉ t.toList) (hpaired : Paired t.toList) :
    (Survives t ↔ Single t.toList) ∧
      (¬ Single t.toList → parse (String.ofList (escape t.toList)) = .error "unmatched '\x7d\x7d'") := by
  have hrefused : ¬ Single t.toList → parse (String.ofList (escape t.toList)) = .error "unmatched '\x7d\x7d'" := by
    intro hsingle
    rw [parse, String.toList_ofList, parseFrom_escape_closing hback hpaired hsingle]
    rfl
  refine ⟨⟨?_, survives_of_single hback hpaired⟩, hrefused⟩
  rintro ⟨template, hparse, -⟩
  by_contra hsingle
  cases hparse.symm.trans (hrefused hsingle)

theorem survives_iff_single_set : Survives "The set \x7b\x7b1\x7d, 2\x7d." :=
  (survives_iff_single (by decide) (by decide)).1.mpr (by decide)

/-- An example of nested JSON does not survive. -/
theorem not_survives_nested : ¬ Survives "\x7b\"a\":\x7b\"b\":1\x7d\x7d" := by
  rintro ⟨template, hparse, -⟩
  have hrefused : parse (String.ofList (escape "\x7b\"a\":\x7b\"b\":1\x7d\x7d".toList)) =
      .error "unmatched '\x7d\x7d'" := by decide
  cases hparse.symm.trans hrefused

end TemplateString

end AgentFlow.Workflow
