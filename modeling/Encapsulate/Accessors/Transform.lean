import Encapsulate.Accessors.Member
import Encapsulate.Accessors.Usage

/-!
The accessors transform: the targets of a unit are selected, the usages in the
function bodies of its primary file are rewritten, accessors are added to the
records it declares, and all edits are applied at once.
-/

namespace Encapsulate.Accessors

open Cpp

/-- Which function bodies are searched. -/
inductive UsageScope where
  /-- All of them. -/
  | all
  /-- Free functions named `main` only. -/
  | main
deriving DecidableEq, Repr

def UsageScope.includes (scope : UsageScope) (f : Function) : Bool :=
  match scope with
  | .all => true
  | .main => f.name == "main" && f.record.isNone

structure AccessorsConfig where
  /-- Qualified names of the fields to encapsulate. -/
  fields : List String
  scope : UsageScope := .all
deriving DecidableEq, Repr

/-- The result for one unit. -/
structure Outcome where
  /-- The new text, unless nothing changed. -/
  rewritten : Option String
  diagnostics : List Diagnostic
  stats : Stats
deriving DecidableEq, Repr

def parseWarnings (file : SourceFile) : List Diagnostic :=
  if file.hasErrors then
    [.locate .warning file.path file.source 0
      "file contains syntax errors; rewriting what could be parsed"]
  else
    []

def scanUnit (config : AccessorsConfig) (u : SourceUnit) (targets : List Target) : Scan :=
  scan ⟨u.primary, Symbols.ofUnit u, targets⟩ (u.primary.functions.filter config.scope.includes)

def run (config : AccessorsConfig) (u : SourceUnit) : Except SpliceError Outcome :=
  let file := u.primary
  let selection := select config.fields u
  let targets := selection.targets
  let early := parseWarnings file ++ selection.diagnostics
  if targets.isEmpty then
    .ok { rewritten := none, diagnostics := early, stats := {} }
  else
    let found := scanUnit config u targets
    let queue : EditQueue := found.queue ++ insertions file targets
    match queue.apply file.source 0 with
    | .error e => .error e
    | .ok text =>
      .ok { rewritten := if text == file.source then none else some (String.ofList text)
            diagnostics := early ++ found.diagnostics ++ specWarnings file targets
            stats := { found.stats with
                       targets := targets.length
                       accessorsInserted := insertedCount file targets } }

end Encapsulate.Accessors
