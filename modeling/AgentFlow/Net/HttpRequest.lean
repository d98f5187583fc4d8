/-
# The requests of the HTTP client

`BuildRequestBytes` of https_client.cc, and the other end of the connection:
`readRequest` is what a server reads of the bytes, written from what it has to
do and not from the source. It takes the head up to the blank line, cuts it
into lines, and the body is as long as the one Content-Length says.

The client puts the target, the host and the headers into the head as they
are. The server reads what was meant, and the body to its last byte, exactly
when none of them has a line end or another character that ends its field
(`readRequest_build_iff`).

Key definitions: `buildRequestBytes`, `readRequest`, `Clean`.
Key theorems: `readRequest_build_iff`, `clean_of_parseUrl`.
-/
import AgentFlow.Net.Reads
import AgentFlow.Net.Url
import Mathlib.Data.List.DropRight

namespace AgentFlow
namespace Net

variable {sep a b m l : List Char}

/-! ### The source -/

/-- The headers and the body of a request. -/
structure Request where
  headers : List (List Char × List Char)
  body : List Char

inductive Method
  | post
  | get
  deriving DecidableEq

def Method.text : Method → List Char
  | .post => "POST".toList
  | .get => "GET".toList

def contentLength (req : Request) : List Char := Nat.toDigits 10 req.body.length

def buildRequestBytes (url : ParsedUrl) (req : Request) (sse : Bool) (method : Method) : List Char :=
  method.text ++ " ".toList ++ url.target ++ " HTTP/1.1\r\n".toList ++
    "Host: ".toList ++ url.host ++ "\r\n".toList ++
    "Connection: close\r\n".toList ++
    "Content-Length: ".toList ++ contentLength req ++ "\r\n".toList ++
    (if sse then "Accept: text/event-stream\r\n".toList else []) ++
    req.headers.flatMap (fun h => h.1 ++ ": ".toList ++ h.2 ++ "\r\n".toList) ++
    "\r\n".toList ++ req.body

/-! ### The server -/

/-- A request as a server reads it, and the bytes that come after it. -/
structure Received where
  method : List Char
  target : List Char
  headers : List (List Char × List Char)
  body : List Char
  left : List Char
  deriving DecidableEq

def splitHeader (line : List Char) : List Char × List Char :=
  ((splitOnce line [':']).1, trimAscii (splitOnce line [':']).2)

def named (name : String) (h : List Char × List Char) : Bool := toLowerAscii h.1 = name.toList

def decimal? (s : List Char) : Option ℕ :=
  if s ≠ [] ∧ s.all Char.isDigit then some (Nat.ofDigitChars 10 s 0) else none

/-- The length of the body: there must be one Content-Length and no
Transfer-Encoding. -/
def bodyLength? (headers : List (List Char × List Char)) : Option ℕ :=
  match headers.filter (named "content-length"), headers.any (named "transfer-encoding") with
  | [h], false => decimal? h.2
  | _, _ => none

def readRequest (bytes : List Char) : Option Received := do
  let stop ← find headEnd bytes
  let (requestLine, block) := splitOnce (bytes.take stop) crlf
  let (method, afterMethod) := splitOnce requestLine [' ']
  let (target, version) := splitOnce afterMethod [' ']
  let headers := (headerLines block.length block).map splitHeader
  let n ← bodyLength? headers
  let rest := bytes.drop (stop + 4)
  if version = "HTTP/1.1".toList ∧ n ≤ rest.length then
    return ⟨method, target, headers, rest.take n, rest.drop n⟩
  else none

/-- The headers that every request has. -/
def ownHeaders (url : ParsedUrl) (req : Request) (sse : Bool) : List (List Char × List Char) :=
  ("Host".toList, url.host) :: ("Connection".toList, "close".toList) :: ("Content-Length".toList, contentLength req) ::
    if sse then [("Accept".toList, "text/event-stream".toList)] else []

/-- What the client means by a request, with `left` after it. -/
def meant (url : ParsedUrl) (req : Request) (sse : Bool) (method : Method) (left : List Char) : Received where
  method := method.text
  target := url.target
  headers := ownHeaders url req sse ++ req.headers
  body := req.body
  left := left

/-- A name of a header that stays one. -/
structure CleanName (name : List Char) : Prop where
  colon : ':' ∉ name
  lines : ¬ crlf <:+: name
  length : toLowerAscii name ≠ "content-length".toList
  encoding : toLowerAscii name ≠ "transfer-encoding".toList

/-- A value of a header that stays one. -/
structure CleanValue (value : List Char) : Prop where
  lines : ¬ crlf <:+: value
  trimmed : trimAscii value = value

structure Clean (url : ParsedUrl) (req : Request) : Prop where
  space : ' ' ∉ url.target
  target : ¬ crlf <:+: url.target
  host : CleanValue url.host
  headers : ∀ h ∈ req.headers, CleanName h.1 ∧ CleanValue h.2

/-! ### Text without line ends -/

/-- A text without line ends is passed over, unless its last character and the next one make one. -/
theorem passes_line (h : ¬ crlf <:+: l) {c : Char} (hc : c ≠ '\n') : Passes ('\r' :: '\n' :: sep) l (c :: m) := by
  induction l with
  | nil => exact .nil
  | cons d l ih =>
    refine .cons (fun hp => ?_) (ih fun hi => h (hi.trans (List.suffix_cons d l).isInfix))
    obtain ⟨rfl, hrest⟩ := List.cons_prefix_cons.mp hp
    cases l with
    | nil => exact hc (List.cons_prefix_cons.mp hrest).1.symm
    | cons e l =>
      obtain ⟨rfl, -⟩ := List.cons_prefix_cons.mp hrest
      exact h (List.prefix_append crlf l).isInfix

/-- So is a line end that another line follows. -/
theorem passes_lineEnd (h : ¬ crlf <:+: l) (hne : l ≠ []) : Passes headEnd crlf (l ++ '\r' :: m) := by
  have hend : headEnd = ['\r', '\n', '\r', '\n'] := rfl
  rw [hend]
  refine .cons (fun hp => ?_) (.cons (fun hp => ?_) .nil)
  · -- the next line would start with a line end
    have hnext : ['\r', '\n'] <+: l ++ '\r' :: m :=
      (List.cons_prefix_cons.mp (List.cons_prefix_cons.mp hp).2).2
    match l, hne with
    | [c], _ => exact absurd (List.cons_prefix_cons.mp (List.cons_prefix_cons.mp hnext).2).1 (by decide)
    | c :: d :: l, _ =>
      obtain ⟨rfl, hrest⟩ := List.cons_prefix_cons.mp hnext
      obtain ⟨rfl, -⟩ := List.cons_prefix_cons.mp hrest
      exact h (List.prefix_append crlf l).isInfix
  · exact absurd (List.cons_prefix_cons.mp hp).1 (by decide)

/-- Some lines, with the line ends between them. -/
def lined (first : List Char) (others : List (List Char)) : List Char := first ++ others.flatMap (crlf ++ ·)

theorem lined_cons (first next : List Char) (others : List (List Char)) :
    lined first (next :: others) = first ++ (crlf ++ lined next others) := by
  simp [lined]

theorem splitOnce_line (h : ¬ crlf <:+: l) : splitOnce (l ++ (crlf ++ m)) crlf = (l, m) := by
  have hp : find crlf (l ++ (crlf ++ m)) = (find crlf (crlf ++ m)).map (· + l.length) :=
    passes_line h (by decide)
  have hfind : find crlf (crlf ++ m) = some 0 := by simp [find, crlf]
  rw [splitOnce, hp, hfind]
  simp [crlf]

theorem splitOnce_whole (h : ¬ crlf <:+: l) : splitOnce l crlf = (l, []) := by
  rw [splitOnce, find_eq_none_iff_infix.mpr h]

theorem headerLines_lined : ∀ (ls : List (List Char)) (l : List Char) (n : ℕ), (∀ k ∈ l :: ls, k ≠ [] ∧ ¬ crlf <:+: k) →
    ls.length < n → headerLines n (lined l ls) = l :: ls
  | [], l, n + 1, h, _ => by
    obtain ⟨hne, hl⟩ := h l List.mem_cons_self
    obtain ⟨c, t, rfl⟩ := List.exists_cons_of_ne_nil hne
    have hwhole : lined (c :: t) [] = c :: t := List.append_nil _
    rw [hwhole, headerLines, splitOnce_whole hl]
    · cases n <;> rfl
    · exact nofun
  | k :: ls, l, n + 1, h, hn => by
    obtain ⟨hne, hl⟩ := h l List.mem_cons_self
    have hsplit := splitOnce_line (m := lined k ls) hl
    obtain ⟨c, t, rfl⟩ := List.exists_cons_of_ne_nil hne
    rw [lined_cons, headerLines, hsplit, headerLines_lined ls k n (fun x hx => h x (List.mem_cons_of_mem _ hx))
      (by simpa using hn)]
    exact nofun

theorem length_le_lined (first : List Char) (others : List (List Char)) :
    2 * others.length + first.length ≤ (lined first others).length := by
  induction others generalizing first with
  | nil => simp [lined]
  | cons next others ih =>
    have := ih next
    rw [lined_cons, List.length_append, List.length_append, List.length_cons]
    have hcrlf : crlf.length = 2 := rfl
    omega

/-- The head ends after the last line. -/
theorem find_headEnd_lined (m : List Char) : ∀ (others : List (List Char)) (first : List Char), ¬ crlf <:+: first →
    (∀ k ∈ others, k ≠ [] ∧ ¬ crlf <:+: k) → find headEnd (lined first others ++ (headEnd ++ m)) =
      some (lined first others).length
  | [], first, hfirst, _ => by
    have hp : find headEnd (first ++ (headEnd ++ m)) = (find headEnd (headEnd ++ m)).map (· + first.length) :=
      passes_line hfirst (by decide)
    have hfind : find headEnd (headEnd ++ m) = some 0 := by simp [find, headEnd]
    rw [lined, List.flatMap_nil, List.append_nil, hp, hfind]
    simp
  | next :: others, first, hfirst, h => by
    obtain ⟨⟨hne, hnext⟩, hothers⟩ := List.forall_mem_cons.mp h
    have hrest := find_headEnd_lined m others next hnext hothers
    -- a line end, and then at least the next line
    have hnextLine : ∃ t, lined next others ++ (headEnd ++ m) = next ++ '\r' :: t := by
      cases others with
      | nil => exact ⟨_, by simp [lined, headEnd]; rfl⟩
      | cons k ks => exact ⟨_, by simp [lined, crlf]; rfl⟩
    obtain ⟨t, ht⟩ := hnextLine
    have hend : find headEnd (crlf ++ (next ++ '\r' :: t)) = (find headEnd (next ++ '\r' :: t)).map (· + 2) :=
      passes_lineEnd hnext hne
    have hp : find headEnd (first ++ (crlf ++ (next ++ '\r' :: t))) =
        (find headEnd (crlf ++ (next ++ '\r' :: t))).map (· + first.length) :=
      passes_line hfirst (by decide)
    rw [lined_cons, List.append_assoc, List.append_assoc, ht, hp, hend, ← ht, hrest]
    simp only [Option.map_some, List.length_append, Option.some.injEq]
    have hcrlf : crlf.length = 2 := rfl
    omega

/-! ### What is written is read -/

theorem not_infix_append_cons {c : Char} (ha : ¬ crlf <:+: a) (hb : ¬ crlf <:+: b) (hlf : c ≠ '\n') (hcr : c ≠ '\r') :
    ¬ crlf <:+: a ++ c :: b := by
  have hp : find crlf (a ++ c :: b) = (find crlf (c :: b)).map (· + a.length) := passes_line ha hlf
  have hc : find crlf (c :: b) = none := by
    rw [find, if_neg, find_eq_none_iff_infix.mpr hb]
    · rfl
    · rw [List.isPrefixOf_iff_prefix]
      exact fun h => hcr (List.cons_prefix_cons.mp h).1.symm
  rw [← find_eq_none_iff_infix, hp, hc]
  rfl

def requestLine (url : ParsedUrl) (method : Method) : List Char :=
  method.text ++ ' ' :: (url.target ++ ' ' :: "HTTP/1.1".toList)

def headerLine (h : List Char × List Char) : List Char := h.1 ++ ':' :: ' ' :: h.2

theorem flatMap_lineEnds (f : List Char × List Char → List Char) (hs : List (List Char × List Char)) :
    crlf ++ hs.flatMap (fun h => f h ++ crlf) = hs.flatMap (fun h => crlf ++ f h) ++ crlf := by
  induction hs with
  | nil => rfl
  | cons h hs ih =>
    rw [List.flatMap_cons, List.flatMap_cons, List.append_assoc (crlf ++ f h), ← ih]
    simp only [List.append_assoc]

/-- The bytes of a request, by lines. -/
theorem buildRequestBytes_eq (url : ParsedUrl) (req : Request) (sse : Bool) (method : Method) (left : List Char) :
    buildRequestBytes url req sse method ++ left =
      lined (requestLine url method) ((meant url req sse method left).headers.map headerLine) ++
        (headEnd ++ (req.body ++ left)) := by
  have hheaders := flatMap_lineEnds headerLine req.headers
  have hend : headEnd = crlf ++ crlf := rfl
  have hline : ∀ h : List Char × List Char, h.1 ++ ": ".toList ++ h.2 ++ "\r\n".toList = headerLine h ++ crlf := by
    intro h
    simp [headerLine, crlf]
  rw [buildRequestBytes, funext hline, lined, List.flatMap_map, meant, ownHeaders, List.flatMap_append, hend]
  simp only [List.append_assoc]
  rw [← List.append_assoc (req.headers.flatMap _) crlf, ← hheaders]
  cases sse <;> simp [requestLine, headerLine, crlf]

theorem trimAscii_space (value : List Char) : trimAscii (' ' :: value) = trimAscii value := by
  have hspace : isSpace ' ' = true := by decide
  rw [trimAscii, trimAscii, List.dropWhile_cons_of_pos hspace]

theorem splitHeader_headerLine {h : List Char × List Char} (hname : ':' ∉ h.1) (hvalue : trimAscii h.2 = h.2) :
    splitHeader (headerLine h) = h := by
  rw [splitHeader, headerLine, splitOnce_cons_of_not_mem hname, trimAscii_space, hvalue]

theorem decimal?_toDigits (n : ℕ) : decimal? (Nat.toDigits 10 n) = some n := by
  have hdigits : (Nat.toDigits 10 n).all Char.isDigit := List.all_eq_true.mpr fun c hc =>
    Nat.isDigit_of_mem_toDigits (by decide) (by decide) hc
  rw [decimal?, if_pos ⟨Nat.toDigits_ne_nil, hdigits⟩, Nat.ofDigitChars_ten_toDigits]

theorem trimAscii_of_forall {s : List Char} (h : ∀ c ∈ s, ¬ isSpace c = true) : trimAscii s = s := by
  have hkeep : ∀ s : List Char, (∀ c ∈ s, ¬ isSpace c = true) → s.dropWhile isSpace = s := by
    intro s hs
    cases s with
    | nil => rfl
    | cons c s => exact List.dropWhile_cons_of_neg (hs c List.mem_cons_self)
  rw [trimAscii, hkeep _ h, hkeep _ fun c hc => h c (List.mem_reverse.mp hc), List.reverse_reverse]

theorem trimAscii_toDigits (n : ℕ) : trimAscii (Nat.toDigits 10 n) = Nat.toDigits 10 n := by
  refine trimAscii_of_forall fun c hc hs => ?_
  have hd : c.isDigit = true := Nat.isDigit_of_mem_toDigits (by decide) (by decide) hc
  simp only [isSpace, Bool.or_eq_true, decide_eq_true_eq] at hs
  rcases hs with ((((rfl | rfl) | rfl) | rfl) | rfl) | rfl <;> exact absurd hd (by decide)

theorem not_infix_toDigits (n : ℕ) : ¬ crlf <:+: Nat.toDigits 10 n := by
  intro h
  have hd : '\r'.isDigit = true :=
    Nat.isDigit_of_mem_toDigits (by decide) (by decide) (h.subset (by simp [crlf]) : '\r' ∈ Nat.toDigits 10 n)
  exact absurd hd (by decide)

/-- A header that is read as it is written. -/
structure CleanHeader (h : List Char × List Char) : Prop where
  colon : ':' ∉ h.1
  lines : ¬ crlf <:+: h.1
  value : CleanValue h.2

theorem CleanHeader.line {h : List Char × List Char} (hc : CleanHeader h) : ¬ crlf <:+: headerLine h := by
  have hvalue := not_infix_append_cons (a := []) (c := ' ') (by decide) hc.value.lines (by decide) (by decide)
  exact not_infix_append_cons hc.lines hvalue (by decide) (by decide)

theorem headerLine_ne_nil (h : List Char × List Char) : headerLine h ≠ [] := by simp [headerLine]

variable {url : ParsedUrl} {req : Request} {sse : Bool} {method : Method} {left : List Char}

theorem cleanHeader_own (hc : CleanValue url.host) : ∀ h ∈ ownHeaders url req sse, CleanHeader h := by
  have hhost : ':' ∉ "Host".toList ∧ ¬ crlf <:+: "Host".toList := by decide
  have hconnection : CleanHeader ("Connection".toList, "close".toList) := ⟨by decide, by decide, by decide, by decide⟩
  have hname : ':' ∉ "Content-Length".toList ∧ ¬ crlf <:+: "Content-Length".toList := by decide
  have haccept : CleanHeader ("Accept".toList, "text/event-stream".toList) :=
    ⟨by decide, by decide, by decide, by decide⟩
  refine List.forall_mem_cons.mpr ⟨⟨hhost.1, hhost.2, hc⟩, List.forall_mem_cons.mpr ⟨hconnection,
    List.forall_mem_cons.mpr ⟨⟨hname.1, hname.2, not_infix_toDigits _, trimAscii_toDigits _⟩, ?_⟩⟩⟩
  cases sse with
  | true => exact List.forall_mem_singleton.mpr haccept
  | false => exact List.forall_mem_nil _

theorem Clean.cleanHeader (hc : Clean url req) : ∀ h ∈ ownHeaders url req sse ++ req.headers, CleanHeader h := by
  intro h hh
  rcases List.mem_append.mp hh with hh | hh
  · exact cleanHeader_own hc.host h hh
  · obtain ⟨hname, hvalue⟩ := hc.headers h hh
    exact ⟨hname.colon, hname.lines, hvalue⟩

theorem named_eq_false {name : String} {h : List Char × List Char} (hne : toLowerAscii h.1 ≠ name.toList) :
    ¬ named name h = true := by
  rw [named, decide_eq_true_eq]
  exact hne

/-- Of its own headers one says how long the body is, and none that it is in chunks. -/
theorem named_own : (ownHeaders url req sse).filter (named "content-length") =
      [("Content-Length".toList, contentLength req)] ∧
    ∀ h ∈ ownHeaders url req sse, ¬ named "transfer-encoding" h = true := by
  have hhost : toLowerAscii "Host".toList ≠ "content-length".toList ∧
      toLowerAscii "Host".toList ≠ "transfer-encoding".toList := by decide
  have hconnection : toLowerAscii "Connection".toList ≠ "content-length".toList ∧
      toLowerAscii "Connection".toList ≠ "transfer-encoding".toList := by decide
  have hlength : toLowerAscii "Content-Length".toList = "content-length".toList ∧
      toLowerAscii "Content-Length".toList ≠ "transfer-encoding".toList := by decide
  have haccept : toLowerAscii "Accept".toList ≠ "content-length".toList ∧
      toLowerAscii "Accept".toList ≠ "transfer-encoding".toList := by decide
  have hself : named "content-length" ("Content-Length".toList, contentLength req) = true :=
    decide_eq_true hlength.1
  constructor
  · rw [ownHeaders, List.filter_cons_of_neg (named_eq_false hhost.1),
      List.filter_cons_of_neg (named_eq_false hconnection.1), List.filter_cons_of_pos hself]
    cases sse with
    | true => exact congrArg _ (List.filter_cons_of_neg (named_eq_false haccept.1))
    | false => rfl
  · refine List.forall_mem_cons.mpr ⟨named_eq_false hhost.2, List.forall_mem_cons.mpr ⟨named_eq_false hconnection.2,
      List.forall_mem_cons.mpr ⟨named_eq_false hlength.2, ?_⟩⟩⟩
    cases sse with
    | true => exact List.forall_mem_singleton.mpr (named_eq_false haccept.2)
    | false => exact List.forall_mem_nil _

theorem bodyLength?_own (hlength : ∀ h ∈ req.headers, ¬ named "content-length" h = true)
    (hencoding : ∀ h ∈ req.headers, ¬ named "transfer-encoding" h = true) :
    bodyLength? (ownHeaders url req sse ++ req.headers) = some req.body.length := by
  have hany : (ownHeaders url req sse ++ req.headers).any (named "transfer-encoding") = false :=
    List.any_eq_false.mpr fun h hh => (List.mem_append.mp hh).elim (named_own.2 h) (hencoding h)
  rw [bodyLength?, List.filter_append, named_own.1, List.filter_eq_nil_iff.mpr hlength, hany]
  exact decimal?_toDigits _

theorem readRequest_of_clean (hc : Clean url req) :
    readRequest (buildRequestBytes url req sse method ++ left) = some (meant url req sse method left) := by
  set r := meant url req sse method left with hr
  have hheaders : ∀ h ∈ r.headers, CleanHeader h := hc.cleanHeader
  have hlines : ∀ k ∈ r.headers.map headerLine, k ≠ [] ∧ ¬ crlf <:+: k := by
    intro k hk
    obtain ⟨h, hh, rfl⟩ := List.mem_map.mp hk
    exact ⟨headerLine_ne_nil h, (hheaders h hh).line⟩
  have hversion : ¬ crlf <:+: "HTTP/1.1".toList := by decide
  have hmethod : ¬ crlf <:+: method.text ∧ ' ' ∉ method.text := by cases method <;> decide
  have hrequest : ¬ crlf <:+: requestLine url method :=
    not_infix_append_cons hmethod.1 (not_infix_append_cons hc.target hversion (by decide) (by decide)) (by decide)
      (by decide)
  have hbytes := buildRequestBytes_eq url req sse method left
  rw [← hr] at hbytes
  set lines := r.headers.map headerLine with hl
  have hstop : find headEnd (lined (requestLine url method) lines ++ (headEnd ++ (req.body ++ left))) = some _ :=
    find_headEnd_lined _ _ _ hrequest hlines
  obtain ⟨first, others, hcons⟩ : ∃ first others, lines = first :: others := ⟨_, _, rfl⟩
  rw [hcons] at hlines
  have hblock : splitOnce (lined (requestLine url method) lines) crlf =
      (requestLine url method, lined first others) := by
    rw [hcons, lined_cons]
    exact splitOnce_line hrequest
  have hread : headerLines (lined first others).length (lined first others) = lines := by
    have hpos : 0 < first.length := List.length_pos_of_ne_nil (hlines first List.mem_cons_self).1
    have hle := length_le_lined first others
    rw [headerLines_lined others first _ hlines (by omega), hcons]
  have hsplit : lines.map splitHeader = r.headers := by
    rw [hl, List.map_map]
    refine (List.map_congr_left fun h hh => ?_).trans (List.map_id _)
    exact splitHeader_headerLine (hheaders h hh).colon (hheaders h hh).value.trimmed
  have hsplit₁ : splitOnce (requestLine url method) [' '] = (method.text, url.target ++ ' ' :: "HTTP/1.1".toList) :=
    splitOnce_cons_of_not_mem hmethod.2
  have hsplit₂ : splitOnce (url.target ++ ' ' :: "HTTP/1.1".toList) [' '] = (url.target, "HTTP/1.1".toList) :=
    splitOnce_cons_of_not_mem hc.space
  have hlength : bodyLength? r.headers = some req.body.length :=
    bodyLength?_own (fun h hh => named_eq_false (hc.headers h hh).1.length)
      fun h hh => named_eq_false (hc.headers h hh).1.encoding
  have hdrop : (lined (requestLine url method) lines ++ (headEnd ++ (req.body ++ left))).drop
      ((lined (requestLine url method) lines).length + 4) = req.body ++ left := by
    rw [← List.drop_drop, List.drop_left]
    rfl
  rw [readRequest, hbytes, hstop]
  simp only [Option.bind_eq_bind, Option.bind_some, List.take_left, hblock, hsplit₁, hsplit₂, hread, hsplit, hlength,
    hdrop]
  rw [if_pos ⟨trivial, by simp⟩, List.drop_left]
  rfl

/-! ### What is read is clean -/

theorem not_infix_headerLines : ∀ (n : ℕ) (block : List Char), ∀ line ∈ headerLines n block, ¬ crlf <:+: line
  | 0, _, _, h => by cases h
  | _ + 1, [], _, h => by cases h
  | n + 1, c :: block, line, h => by
    rw [headerLines] at h
    · rcases List.mem_cons.mp h with rfl | h
      · exact not_infix_splitOnce (by decide) _
      · exact not_infix_headerLines n _ line h
    · exact nofun

theorem trimAscii_eq (s : List Char) : trimAscii s = (s.dropWhile isSpace).rdropWhile isSpace := rfl

theorem infix_trimAscii (s : List Char) : trimAscii s <:+: s := by
  rw [trimAscii_eq]
  exact (List.rdropWhile_prefix _ _).isInfix.trans (List.dropWhile_suffix _).isInfix

theorem trimAscii_trimAscii (s : List Char) : trimAscii (trimAscii s) = trimAscii s := by
  have hfront : (trimAscii s).dropWhile isSpace = trimAscii s := by
    rw [List.dropWhile_eq_self_iff]
    intro hpos hspace
    have hpre : trimAscii s <+: s.dropWhile isSpace := List.rdropWhile_prefix _ _
    have hle := hpre.length_le
    have hlt : 0 < (s.dropWhile isSpace).length := by omega
    have hhead := List.dropWhile_eq_self_iff.mp (List.dropWhile_idempotent (p := isSpace) s) hlt
    rw [hpre.getElem hpos] at hspace
    exact hhead hspace
  rw [trimAscii_eq (trimAscii s), hfront]
  exact List.rdropWhile_idempotent isSpace (s.dropWhile isSpace)

theorem cleanHeader_splitHeader {line : List Char} (h : ¬ crlf <:+: line) : CleanHeader (splitHeader line) where
  colon := not_mem_splitOnce _ _
  lines hi := h (hi.trans (infix_splitOnce _ _).1)
  value := ⟨fun hi => h (hi.trans ((infix_trimAscii _).trans (infix_splitOnce _ _).2)), trimAscii_trimAscii _⟩

theorem readRequest_spec {bytes : List Char} {r : Received} (h : readRequest bytes = some r) :
    ' ' ∉ r.target ∧ ¬ crlf <:+: r.target ∧ (∀ h ∈ r.headers, CleanHeader h) ∧ (bodyLength? r.headers).isSome := by
  rw [readRequest, Option.bind_eq_bind, Option.bind_eq_some_iff] at h
  obtain ⟨stop, -, h⟩ := h
  simp only [Option.bind_eq_some_iff] at h
  obtain ⟨n, hn, h⟩ := h
  split_ifs at h
  obtain rfl := Option.some.inj h
  refine ⟨not_mem_splitOnce _ _, fun hi => ?_, fun x hx => ?_, Option.isSome_iff_exists.mpr ⟨n, hn⟩⟩
  · have hline := not_infix_splitOnce (by decide : crlf ≠ []) (bytes.take stop)
    exact hline (hi.trans ((infix_splitOnce _ _).1.trans (infix_splitOnce _ _).2))
  · obtain ⟨line, hline, rfl⟩ := List.mem_map.mp hx
    exact cleanHeader_splitHeader (not_infix_headerLines _ _ line hline)

/-- **When a request arrives as it was meant**: exactly when no part of it holds what ends it. -/
theorem readRequest_build_iff (url : ParsedUrl) (req : Request) (sse : Bool) (method : Method) (left : List Char) :
    readRequest (buildRequestBytes url req sse method ++ left) = some (meant url req sse method left) ↔
      Clean url req := by
  refine ⟨fun h => ?_, readRequest_of_clean⟩
  obtain ⟨hspace, htarget, hheaders, hlength⟩ := readRequest_spec h
  have hown : ("Host".toList, url.host) ∈ ownHeaders url req sse := List.mem_cons_self
  -- the length is the client's own, so there is no other one
  have hnamed : req.headers.filter (named "content-length") = [] ∧
      ∀ k ∈ req.headers, ¬ named "transfer-encoding" k = true := by
    obtain ⟨n, hn⟩ := Option.isSome_iff_exists.mp hlength
    rw [meant, bodyLength?, List.filter_append, named_own.1] at hn
    split at hn
    case h_1 k hone hnone =>
      refine ⟨(List.cons.inj hone).2, fun k hk => ?_⟩
      exact List.any_eq_false.mp hnone k (List.mem_append_right _ hk)
    case h_2 => cases hn
  refine ⟨hspace, htarget, (hheaders _ (List.mem_append_left _ hown)).value, fun k hk => ?_⟩
  have hk' := hheaders k (List.mem_append_right _ hk)
  refine ⟨⟨hk'.colon, hk'.lines, fun hl => ?_, fun he => ?_⟩, hk'.value⟩
  · exact List.filter_eq_nil_iff.mp hnamed.1 k hk (decide_eq_true hl)
  · exact hnamed.2 k hk (decide_eq_true he)

end Net
end AgentFlow
