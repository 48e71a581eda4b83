import QuicSync.Filesystem.Paths

/-!
# Ignore policies

A policy is a list of rule sets, each with the directory it was found in; a later one overrides an
earlier one.  Matching a rule set is the work of a library, `IgnoreCrate`, which is a parameter
here: how rules are collected, scoped and combined is the program's.
-/

namespace QuicSync

open Posix

/-- Whether an entry belongs to the source-managed path set. -/
inductive IgnoreDecision where
  | managed
  | ignored
  | «protected»
  deriving DecidableEq, Repr

/-- What one rule set says about a path. -/
inductive Match where
  | none
  | ignore
  | whitelist
  deriving DecidableEq, Repr

/-- The library that builds and matches rule sets. -/
structure IgnoreCrate where
  GitignoreBuilder : Type
  Gitignore : Type
  /-- A builder for rules in a directory. -/
  new : Bytes → GitignoreBuilder
  /-- Add a rule, with the file it is from; a rule may be malformed. -/
  addLine : GitignoreBuilder → Option Bytes → String → Except String GitignoreBuilder
  build : GitignoreBuilder → Except String Gitignore
  matchedPathOrAnyParents : Gitignore → Bytes → Bool → Match

/-- A path name from components. -/
def componentsToPath (components : List Bytes) : Bytes := List.intercalate [slash] components

/-- The components of a directory below the root; none denotes the root. -/
def scopeComponents (scope : Option RelativePath) : List Bytes :=
  scope.elim [] RelativePath.components

def relativeToPath (path : Option RelativePath) : Bytes := componentsToPath (scopeComponents path)

def isProtected (path : RelativePath) : Bool :=
  path.components.any fun component => component ∈ protectedComponents

theorem isProtected_eq_false_iff {path : RelativePath} :
    isProtected path = false ↔ Unprotected path := by
  simp [isProtected, Unprotected]

/-- A path relative to a directory, unless it lies outside or is the directory. -/
def scopedPath (path : RelativePath) (scope : Option RelativePath) : Option Bytes :=
  match scope.elim (some path.components) fun scope =>
      if scope.components <+: path.components then
        some (path.components.drop scope.components.length)
      else none with
  | none => none
  | some [] => none
  | some relative => some (componentsToPath relative)

/-- The lines of a text: a line ends with a line feed, which may follow a carriage return, and the
last one need not end. -/
def lines (text : String) : List String :=
  let parts := text.toList.splitOn '\n'
  let ended := parts.dropLast.map fun line =>
    if line.getLast? = some '\r' then line.dropLast else line
  let last := parts.getLastD []
  (ended ++ if last = [] then [] else [last]).map String.ofList

namespace Ignore

/-- An error of this module. -/
def failure (message : String) : QuicSyncError :=
  QuicSyncError.new .invalidConfiguration none (.text message)

end Ignore

section

variable (crate : IgnoreCrate)

/-- Add the rules of a file one after the other. -/
def addLines (source : Option Bytes) :
    crate.GitignoreBuilder → List String → Except QuicSyncError crate.GitignoreBuilder
  | builder, [] => .ok builder
  | builder, line :: rest => do
    let builder ← (crate.addLine builder source line).mapError fun error =>
      Ignore.failure ("invalid ignore-policy rule: " ++ error)
    addLines source builder rest

/-- The rule set of an ignore file in a directory.  Where its bytes are not text the diagnostic also
says at which position; this is left out. -/
def buildMatcher (scope : Option RelativePath) (contents : Bytes) :
    Except QuicSyncError crate.Gitignore := do
  let text ← (match String.fromUTF8? ⟨contents.toArray⟩ with
    | some text => .ok text
    | none => .error (Ignore.failure "ignore-policy rule file is not valid UTF-8: "))
  let source := scope.map fun scope =>
    componentsToPath (scope.components ++ [ascii ".gitignore"])
  let builder ← addLines crate source (crate.new (relativeToPath scope)) (lines text)
  (crate.build builder).mapError fun error =>
    Ignore.failure ("cannot build ignore-policy matcher: " ++ error)

/-- The rules of one file and the directory they are for. -/
structure ScopedRuleSet where
  scope : Option RelativePath
  matcher : crate.Gitignore

/-- Ignore rules accumulated by the active traversal. -/
structure IgnorePolicy where
  «scoped» : List (ScopedRuleSet crate)

end

namespace IgnorePolicy

variable {crate : IgnoreCrate}

def empty : IgnorePolicy crate := ⟨[]⟩

/-- Add a `.gitignore` file found in a directory. -/
def addIgnoreContents (policy : IgnorePolicy crate) (scope : Option RelativePath)
    (contents : Bytes) : Except QuicSyncError (IgnorePolicy crate) := do
  let matcher ← buildMatcher crate scope contents
  .ok ⟨policy.scoped ++ [⟨scope, matcher⟩]⟩

/-- A policy with configured exclusions for the whole tree. -/
def withConfiguredExclusions (configuredExclusions : List String) :
    Except QuicSyncError (IgnorePolicy crate) :=
  if configuredExclusions.isEmpty then .ok empty
  else empty.addIgnoreContents none
    (String.intercalate "\n" configuredExclusions).toUTF8.toList

def checkpoint (policy : IgnorePolicy crate) : ℕ := policy.scoped.length

/-- Discard the rules of a completed directory. -/
def restore (policy : IgnorePolicy crate) (checkpoint : ℕ) : IgnorePolicy crate :=
  ⟨policy.scoped.take checkpoint⟩

/-- Whether a path is ignored, after one more rule set. -/
def override (path : RelativePath) (isDir ignored : Bool) (rules : ScopedRuleSet crate) : Bool :=
  match scopedPath path rules.scope with
  | none => ignored
  | some relative =>
    match crate.matchedPathOrAnyParents rules.matcher relative isDir with
    | .none => ignored
    | .ignore => true
    | .whitelist => false

/-- The decision for a path, given whether it is that of a directory. -/
def decisionFor (policy : IgnorePolicy crate) (path : RelativePath) (isDir : Bool) :
    IgnoreDecision :=
  if isProtected path then .«protected»
  else if policy.scoped.foldl (override path isDir) false then .ignored
  else .managed

/-- The decision for an entry. -/
def decision (policy : IgnorePolicy crate) (path : RelativePath) (kind : EntryKind) :
    IgnoreDecision :=
  policy.decisionFor path (kind = .directory)

theorem unprotected_of_managed {policy : IgnorePolicy crate} {path : RelativePath} {isDir : Bool}
    (h : policy.decisionFor path isDir = .managed) : Unprotected path := by
  rw [← isProtected_eq_false_iff]
  by_contra hprot
  rw [Bool.not_eq_false] at hprot
  rw [decisionFor, if_pos hprot] at h
  cases h

end IgnorePolicy

end QuicSync
