/-
# Files, directories and links

A file system by its real paths: the names from the root to a file, a directory or
a link. A path that a program writes is walked element by element, and a link
on the way is replaced by its target. The walk of a canonical path, which has
neither links nor dot segments, stays on it (`resolve_of_canonical`).

Key definitions: `Elem`, `FileSystem`, `walk`, `Canonical`, `ResolvesExisting`.
Key theorems: `walkWith_names`, `resolve_of_canonical`.
-/
import Mathlib.Data.List.Infix
import Mathlib.Tactic

namespace Files

/-- An element of a path. `trailing` is the empty one after a separator at its end. -/
inductive Elem (ν : Type)
  | root
  | trailing
  | dot
  | dotdot
  | name (n : ν)
  deriving DecidableEq, Repr

/-- What is under a name, with content of type `κ`. -/
inductive Node (ν κ : Type)
  | directory
  | regular (content : κ)
  | symlink (target : List (Elem ν))
  | other
  deriving DecidableEq, Repr

/-- What stands where, the working directory and how many links a walk follows. -/
structure FileSystem (ν κ : Type) where
  node : List ν → Option (Node ν κ)
  cwd : List ν
  maxLinks : ℕ

namespace FileSystem

inductive WalkError
  | notFound
  | tooManyLinks
  deriving DecidableEq, Repr

variable {ν κ : Type}

/-- An absolute path without dot segments on which there is no link. -/
def Canonical (fs : FileSystem ν κ) (path : List (Elem ν)) : Prop :=
  ∃ names : List ν, path = .root :: names.map .name ∧
    ∀ before, before <+: names → ∀ target, fs.node before ≠ some (.symlink target)

variable {fs : FileSystem ν κ}

/-- What a canonical path begins with is canonical. -/
theorem Canonical.of_prefix {path before : List (Elem ν)} (h : fs.Canonical path) (hbefore : before <+: path)
    (hne : before ≠ []) : fs.Canonical before := by
  obtain ⟨names, rfl, hlinks⟩ := h
  cases before with
  | nil => exact absurd rfl hne
  | cons e before =>
    obtain ⟨rfl, hprefix⟩ := List.cons_prefix_cons.mp hbefore
    obtain ⟨after, hafter⟩ := hprefix
    obtain ⟨own, others, rfl, rfl, -⟩ := List.map_eq_append_iff.mp hafter.symm
    exact ⟨own, rfl, fun start hstart => hlinks start (hstart.trans (List.prefix_append _ _))⟩

variable [DecidableEq ν] [DecidableEq κ]

/-- From the real path `current` along the elements; `follow` goes on where a link
is met. -/
def walkWith (fs : FileSystem ν κ) (follow : List ν → List (Elem ν) → Except WalkError (List ν))
    (current : List ν) : List (Elem ν) → Except WalkError (List ν)
  | [] => .ok current
  | .root :: rest => fs.walkWith follow [] rest
  | .trailing :: rest | .dot :: rest =>
    if fs.node current = some .directory then fs.walkWith follow current rest else .error .notFound
  | .dotdot :: rest =>
    if fs.node current = some .directory then fs.walkWith follow current.dropLast rest else .error .notFound
  | .name n :: rest =>
    if fs.node current = some .directory then
      match fs.node (current ++ [n]) with
      | none => .error .notFound
      | some (.symlink target) => follow current (target ++ rest)
      | some _ => fs.walkWith follow (current ++ [n]) rest
    else .error .notFound

/-- A walk that may follow so many links. -/
def walk (fs : FileSystem ν κ) : ℕ → List ν → List (Elem ν) → Except WalkError (List ν)
  | 0 => fs.walkWith fun _ _ => .error .tooManyLinks
  | links + 1 => fs.walkWith (fs.walk links)

/-- The real path that a path leads to. -/
def resolve (fs : FileSystem ν κ) (path : List (Elem ν)) : Except WalkError (List ν) :=
  fs.walk fs.maxLinks fs.cwd path

/-- What is asked of a function that makes paths canonical as far as they exist: where
the path has no `..`, what exists of the result is canonical. -/
def ResolvesExisting (fs : FileSystem ν κ) (f : List (Elem ν) → Option (List (Elem ν))) : Prop :=
  ∀ path result, .dotdot ∉ path → f path = some result →
    ∀ before, before <+: result → before ≠ [] → (∃ names, fs.resolve before = .ok names) → fs.Canonical before

/-- A walk that meets no link stays on its names. -/
theorem walkWith_names {follow : List ν → List (Elem ν) → Except WalkError (List ν)} {current names result : List ν}
    (hlinks : ∀ before, before <+: names → ∀ target, fs.node (current ++ before) ≠ some (.symlink target))
    (h : fs.walkWith follow current (names.map .name) = .ok result) : result = current ++ names := by
  induction names generalizing current with
  | nil =>
    rw [List.map_nil, walkWith] at h
    rw [List.append_nil, Except.ok.inj h]
  | cons n names ih =>
    rw [List.map_cons, walkWith] at h
    split_ifs at h with hdirectory
    have hhere := hlinks [n] ⟨names, rfl⟩
    have hnext : ∀ before, before <+: names → ∀ target,
        fs.node (current ++ [n] ++ before) ≠ some (.symlink target) := by
      intro before hbefore
      rw [List.append_assoc]
      exact hlinks (n :: before) ((List.prefix_cons_inj n).mpr hbefore)
    split at h
    · cases h
    · rename_i target htarget
      exact absurd htarget (hhere target)
    · rw [ih hnext h, List.append_assoc, List.singleton_append]

/-- A canonical path leads to itself. -/
theorem resolve_of_canonical {path : List (Elem ν)} {names : List ν} (hcanonical : fs.Canonical path)
    (h : fs.resolve path = .ok names) : path = .root :: names.map .name := by
  obtain ⟨own, rfl, hlinks⟩ := hcanonical
  rw [resolve] at h
  cases hmax : fs.maxLinks with
  | zero =>
    rw [hmax, walk, walkWith] at h
    rw [walkWith_names hlinks h, List.nil_append]
  | succ links =>
    rw [hmax, walk, walkWith] at h
    rw [walkWith_names hlinks h, List.nil_append]

end FileSystem

end Files
