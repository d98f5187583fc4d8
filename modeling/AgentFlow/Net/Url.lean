/-
# URLs

`ParseUrl` of http_parse.cc. A URL is taken apart at the end of its scheme, at
the first slash after it, and at the last colon of its authority, or after the
bracket that closes an IPv6 literal. What it is taken for is said by `Denotes`,
and `ParseUrl` accepts the URLs that denote something (`parseUrl_iff`).

Key definitions: `ParsedUrl`, `parseUrl`, `Authority`, `Denotes`.
Key theorem: `parseUrl_iff`.
-/
import AgentFlow.Net.Search

namespace AgentFlow
namespace Net

variable {a : List Char}

structure ParsedUrl where
  tls : Bool
  host : List Char
  port : List Char
  target : List Char
  deriving DecidableEq

def invalidUrl (what : String) (url : List Char) : Status.Error := ⟨.invalidArgument, what ++ String.ofList url⟩

/-- `authority.rfind(':')`. -/
def lastColon? (authority : List Char) : Option ℕ :=
  (find [':'] authority.reverse).map fun n => authority.length - 1 - n

/-- The host and the port of the authority, if it is well formed; a port that
is not written is that of the scheme. -/
def splitAuthority (port : List Char) (authority : List Char) : Option (List Char × List Char) :=
  if authority.head? = some '[' then
    -- a bracketed IPv6 literal
    (find [']'] authority).map fun close =>
      ((authority.take close).drop 1,
        if authority[close + 1]? = some ':' then authority.drop (close + 2) else port)
  else
    match lastColon? authority with
    | some colon => some (authority.take colon, authority.drop (colon + 1))
    | none => some (authority, port)

def schemePort (tls : Bool) : List Char := if tls then "443".toList else "80".toList

/-- The URL from the end of its scheme on. -/
def parseAfterScheme (url : List Char) (tls : Bool) (rest : List Char) : Except Status.Error ParsedUrl :=
  let slash := find ['/'] rest
  let authority := slash.elim rest rest.take
  let target := slash.elim ['/'] rest.drop
  if authority = [] then .error (invalidUrl "URL has no host: " url)
  else
    match splitAuthority (schemePort tls) authority with
    | none => .error (invalidUrl "unclosed IPv6 literal in URL: " url)
    | some (host, port) =>
      if host = [] then .error (invalidUrl "URL has no host: " url) else .ok ⟨tls, host, port, target⟩

def parseUrl (url : List Char) : Except Status.Error ParsedUrl :=
  if "https://".toList.isPrefixOf url then parseAfterScheme url true (url.drop 8)
  else if "http://".toList.isPrefixOf url then parseAfterScheme url false (url.drop 7)
  else .error (invalidUrl "unsupported URL scheme: " url)

example : parseUrl "https://api.example.com/v1".toList =
    .ok ⟨true, "api.example.com".toList, "443".toList, "/v1".toList⟩ := by decide +kernel

example : parseUrl "http://[::1]:8080".toList = .ok ⟨false, "::1".toList, "8080".toList, "/".toList⟩ := by decide +kernel

/-! ### What a URL stands for -/

/-- The host and the port that an authority stands for. -/
inductive Authority (port : List Char) : List Char → List Char → List Char → Prop
  /-- `[host]`, and what follows is passed over. -/
  | bracketed {host tail : List Char} : ']' ∉ host → tail.head? ≠ some ':' →
      Authority port ('[' :: (host ++ ']' :: tail)) host port
  | bracketedPort {host p : List Char} : ']' ∉ host → Authority port ('[' :: (host ++ ']' :: ':' :: p)) host p
  | named {host : List Char} : host.head? ≠ some '[' → ':' ∉ host → Authority port host host port
  /-- The last colon is before the port. -/
  | namedPort {host p : List Char} : (host ++ ':' :: p).head? ≠ some '[' → ':' ∉ p →
      Authority port (host ++ ':' :: p) host p

variable {port host p tail authority : List Char}

theorem splitAuthority_bracketed (h : ']' ∉ host) : splitAuthority port ('[' :: (host ++ ']' :: tail)) =
    some (host, if tail.head? = some ':' then tail.drop 1 else port) := by
  have hhead : ('[' :: (host ++ ']' :: tail)).head? = some '[' := rfl
  have hfind : find [']'] ('[' :: (host ++ ']' :: tail)) = some (host.length + 1) := by
    rw [← List.cons_append]
    exact find_cons_of_not_mem (by simp [h])
  have hnext : ('[' :: (host ++ ']' :: tail))[host.length + 1 + 1]? = tail.head? := by
    rw [List.getElem?_cons_succ, List.getElem?_append_right (by omega), Nat.add_sub_cancel_left,
      List.getElem?_cons_succ, List.head?_eq_getElem?]
  have hhost : (('[' :: (host ++ ']' :: tail)).take (host.length + 1)).drop 1 = host := by simp
  have hport : ('[' :: (host ++ ']' :: tail)).drop (host.length + 1 + 2) = tail.drop 1 := by
    rw [show '[' :: (host ++ ']' :: tail) = ('[' :: host ++ [']']) ++ tail by simp, List.drop_append,
      List.drop_eq_nil_of_le (by simp), List.nil_append]
    simp
  rw [splitAuthority, if_pos hhead, hfind, Option.map_some, hhost, hnext, hport]

theorem splitAuthority_unclosed (h : ']' ∉ tail) : splitAuthority port ('[' :: tail) = none := by
  have hhead : ('[' :: tail).head? = some '[' := rfl
  rw [splitAuthority, if_pos hhead, find_of_not_mem (by simp [h])]
  rfl

theorem splitAuthority_colon (hhead : (host ++ ':' :: p).head? ≠ some '[') (hp : ':' ∉ p) :
    splitAuthority port (host ++ ':' :: p) = some (host, p) := by
  have hlast : lastColon? (host ++ ':' :: p) = some host.length := by
    have hrev : (host ++ ':' :: p).reverse = p.reverse ++ ':' :: host.reverse := by simp
    rw [lastColon?, hrev, find_cons_of_not_mem fun h => hp (List.mem_reverse.mp h)]
    simp
  have hport : (host ++ ':' :: p).drop (host.length + 1) = p := by
    rw [← List.drop_drop, List.drop_left]
    rfl
  rw [splitAuthority, if_neg hhead, hlast]
  simp only [List.take_left, hport]

theorem splitAuthority_plain (hhead : authority.head? ≠ some '[') (h : ':' ∉ authority) :
    splitAuthority port authority = some (authority, port) := by
  rw [splitAuthority, if_neg hhead, lastColon?, find_of_not_mem fun hm => h (List.mem_reverse.mp hm)]
  rfl

theorem splitAuthority_iff : splitAuthority port authority = some (host, p) ↔ Authority port authority host p := by
  constructor
  · intro h
    by_cases hhead : authority.head? = some '['
    · obtain ⟨t, rfl⟩ : ∃ t, authority = '[' :: t := by
        cases authority with
        | nil => cases hhead
        | cons c t =>
          obtain rfl : c = '[' := by simpa using hhead
          exact ⟨t, rfl⟩
      rcases first_cases ']' t with hno | ⟨a, b, rfl, ha⟩
      · rw [splitAuthority_unclosed hno] at h
        cases h
      · rw [splitAuthority_bracketed ha, Option.some.injEq, Prod.mk.injEq] at h
        obtain ⟨rfl, hport⟩ := h
        split_ifs at hport with hcolon
        · cases b with
          | nil => cases hcolon
          | cons c b =>
            obtain rfl : c = ':' := by simpa using hcolon
            exact hport ▸ .bracketedPort ha
        · exact hport ▸ .bracketed ha hcolon
    · rcases first_cases ':' authority.reverse with hno | ⟨a, b, hrev, ha⟩
      · have hno' : ':' ∉ authority := fun h => hno (List.mem_reverse.mpr h)
        rw [splitAuthority_plain hhead hno'] at h
        cases h
        exact .named hhead hno'
      · obtain rfl : authority = b.reverse ++ ':' :: a.reverse := by
          rw [← List.reverse_reverse authority, hrev]
          simp
        have ha' : ':' ∉ a.reverse := fun hm => ha (List.mem_reverse.mp hm)
        rw [splitAuthority_colon hhead ha'] at h
        cases h
        exact .namedPort hhead ha'
  · intro h
    cases h with
    | bracketed hhost htail => rw [splitAuthority_bracketed hhost, if_neg htail]
    | bracketedPort hhost => exact splitAuthority_bracketed hhost
    | named hhead hno => exact splitAuthority_plain hhead hno
    | namedPort hhead hp => exact splitAuthority_colon hhead hp

def scheme (tls : Bool) : List Char := if tls then "https://".toList else "http://".toList

/-- What a URL stands for: its scheme, then the authority, up to the first slash, then the target. -/
structure Denotes (text : List Char) (url : ParsedUrl) (authority path : List Char) : Prop where
  text_eq : text = scheme url.tls ++ (authority ++ path)
  slash : '/' ∉ authority
  path : path = [] ∧ url.target = ['/'] ∨ path.head? = some '/' ∧ url.target = path
  authority : Authority (schemePort url.tls) authority url.host url.port
  host : url.host ≠ []

theorem Authority.ne_nil (h : Authority port authority host p) (hne : host ≠ []) : authority ≠ [] := by
  cases h with
  | bracketed => exact List.cons_ne_nil _ _
  | bracketedPort => exact List.cons_ne_nil _ _
  | named => exact hne
  | namedPort => exact List.append_ne_nil_of_right_ne_nil _ (List.cons_ne_nil _ _)

theorem takeWhile_authority {path : List Char} (ha : '/' ∉ a) (hpath : path = [] ∨ path.head? = some '/') :
    (a ++ path).takeWhile (fun c => c ≠ '/') = a := by
  have hall : ∀ c ∈ a, decide (c ≠ '/') = true := fun c hc => decide_eq_true fun he => ha (he ▸ hc)
  rw [List.takeWhile_append_of_pos hall]
  cases path with
  | nil => simp
  | cons c path =>
    have hslash : c = '/' := by simpa using hpath
    simp [hslash]

/-- There is one way to cut a text at its first slash. -/
theorem cut_unique {path path' a' : List Char} (ha : '/' ∉ a) (ha' : '/' ∉ a') (hpath : path = [] ∨ path.head? = some '/')
    (hpath' : path' = [] ∨ path'.head? = some '/') (h : a ++ path = a' ++ path') : a = a' ∧ path = path' := by
  have hsame : a = a' := by rw [← takeWhile_authority ha hpath, h, takeWhile_authority ha' hpath']
  subst hsame
  exact ⟨rfl, List.append_cancel_left h⟩

theorem target_eq_iff {path target : List Char} (hpath : path = [] ∨ path.head? = some '/') :
    (path = [] ∧ target = ['/'] ∨ path.head? = some '/' ∧ target = path) ↔
      (if path = [] then ['/'] else path) = target := by
  rcases hpath with rfl | hpath
  · simp [eq_comm]
  · have hne : path ≠ [] := fun h => by simp [h] at hpath
    simp [hne, hpath, eq_comm]

theorem parseAfterScheme_iff {text rest : List Char} {tls : Bool} {u : ParsedUrl} :
    parseAfterScheme text tls rest = .ok u ↔ u.tls = tls ∧ ∃ authority path, rest = authority ++ path ∧
      '/' ∉ authority ∧ (path = [] ∧ u.target = ['/'] ∨ path.head? = some '/' ∧ u.target = path) ∧
      Authority (schemePort tls) authority u.host u.port ∧ u.host ≠ [] := by
  -- the authority ends at the first slash
  obtain ⟨a, path, hrest, ha, hpath, hauth, htarget⟩ : ∃ a path, rest = a ++ path ∧ '/' ∉ a ∧
      (path = [] ∨ path.head? = some '/') ∧ (find ['/'] rest).elim rest rest.take = a ∧
      (find ['/'] rest).elim ['/'] rest.drop = if path = [] then ['/'] else path := by
    rcases first_cases '/' rest with hno | ⟨a, b, rfl, ha⟩
    · exact ⟨rest, [], (List.append_nil _).symm, hno, .inl rfl, by rw [find_of_not_mem hno]; rfl,
        by rw [find_of_not_mem hno]; rfl⟩
    · refine ⟨a, '/' :: b, rfl, ha, .inr rfl, ?_, ?_⟩ <;> rw [find_cons_of_not_mem ha]
      · exact List.take_left
      · exact List.drop_left
  rw [parseAfterScheme]
  simp only [hauth, htarget]
  generalize htarget' : (if path = [] then ['/'] else path) = target
  constructor
  · intro h
    split_ifs at h with hempty
    cases hs : splitAuthority (schemePort tls) a with
    | none => simp [hs] at h
    | some hp =>
      obtain ⟨host, p⟩ := hp
      simp only [hs] at h
      split_ifs at h with hhost
      obtain rfl := Except.ok.inj h
      exact ⟨rfl, a, path, hrest, ha, (target_eq_iff hpath).mpr htarget', splitAuthority_iff.mp hs, hhost⟩
  · rintro ⟨rfl, a', path', hrest', ha', hpath', hs, hhost⟩
    obtain ⟨rfl, rfl⟩ : a = a' ∧ path = path' :=
      cut_unique ha ha' hpath (hpath'.imp And.left And.left) (hrest.symm.trans hrest')
    obtain rfl : target = u.target := htarget'.symm.trans ((target_eq_iff hpath).mp hpath')
    rw [if_neg (hs.ne_nil hhost), splitAuthority_iff.mpr hs]
    simp only [if_neg hhost]

/-- **What `ParseUrl` accepts**, and what it takes it for. -/
theorem parseUrl_iff (text : List Char) (u : ParsedUrl) :
    parseUrl text = .ok u ↔ ∃ authority path, Denotes text u authority path := by
  have hparse : ∀ tls rest, text = scheme tls ++ rest → (parseAfterScheme text tls rest = .ok u ↔
      u.tls = tls ∧ ∃ authority path, Denotes text u authority path) := by
    intro tls rest htext
    rw [parseAfterScheme_iff]
    constructor
    · rintro ⟨rfl, authority, path, rfl, hslash, hpath, hs, hhost⟩
      exact ⟨rfl, authority, path, htext, hslash, hpath, hs, hhost⟩
    · rintro ⟨rfl, authority, path, hd⟩
      have hrest : rest = authority ++ path := List.append_cancel_left (htext.symm.trans hd.text_eq)
      exact ⟨rfl, authority, path, hrest, hd.slash, hd.path, hd.authority, hd.host⟩
  unfold parseUrl
  split_ifs with hs hp
  · have htext : text = scheme true ++ text.drop 8 :=
      (List.prefix_iff_eq_append.mp (List.isPrefixOf_iff_prefix.mp hs)).symm
    refine (hparse true _ htext).trans (and_iff_right_of_imp ?_)
    rintro ⟨authority, path, hd⟩
    cases htls : u.tls with
    | true => rfl
    | false =>
      have heq := htext.symm.trans hd.text_eq
      rw [htls] at heq
      simp [scheme] at heq
  · have htext : text = scheme false ++ text.drop 7 :=
      (List.prefix_iff_eq_append.mp (List.isPrefixOf_iff_prefix.mp hp)).symm
    refine (hparse false _ htext).trans (and_iff_right_of_imp ?_)
    rintro ⟨authority, path, hd⟩
    cases htls : u.tls with
    | true =>
      have heq := htext.symm.trans hd.text_eq
      rw [htls] at heq
      simp [scheme] at heq
    | false => rfl
  · refine iff_of_false nofun ?_
    rintro ⟨authority, path, hd⟩
    have hpre : scheme u.tls <+: text := ⟨_, hd.text_eq.symm⟩
    cases htls : u.tls with
    | true =>
      rw [htls] at hpre
      exact hs (List.isPrefixOf_iff_prefix.mpr hpre)
    | false =>
      rw [htls] at hpre
      exact hp (List.isPrefixOf_iff_prefix.mpr hpre)

theorem Authority.subset (h : Authority port authority host p) : ∀ c ∈ host, c ∈ authority := by
  intro c hc
  cases h with
  | bracketed => simp [hc]
  | bracketedPort => simp [hc]
  | named => exact hc
  | namedPort => simp [hc]

end Net
end AgentFlow
