import QueryFilter.Compile.Predicate
import QueryFilter.Log.Basic
import QueryFilter.Model.Configuration

/-!
Compilation and configuration with a log of what happens. At level `trace` the
compiled filter is rendered for the log. A refusal is logged; a fault is not. A
text that cannot be made, of a refusal or of a line for the log, is a fault too.
-/

namespace QueryFilter

/-- What a compilation reports: a filter, or why there is none. -/
structure Outcome where
  success : Bool
  filter : Option Filter
  kind : ErrorKind
  message : String
  expression : Option Expr

namespace Outcome

def ofFilter (f : Filter) : Outcome := ⟨true, some f, .none, "", none⟩

def ofError (e : CompileError) (message : String) : Outcome :=
  ⟨false, none, e.kind, message, e.expression⟩

end Outcome

end QueryFilter

namespace QueryFilter.Log

inductive Fault where
  | compile (error : CompileError) (message : String)
  | render (error : RenderError)
  | text (error : TextError)

/-- Writes a line whose text is made only where it is kept. -/
def note (log : Log) (level : Level) (text : Except TextError String) : Except TextError Log :=
  if log.enabled level then text.map (log.write level) else .ok log

/-- Logs what a predicate was compiled to. -/
def trace (print : Printer) (log : Log) (p : Predicate) (f : Filter) :
    Log × Except Fault Filter :=
  if log.enabled .trace then
    match f.render with
    | .error e => (log, .error (.render e))
    | .ok document =>
      let text : Except TextError String := do
        let predicate ← p.toExpr.text print
        let document ← print.text document
        pure ("Translated " ++ predicate ++ " -> " ++ document)
      match log.note .trace text with
      | .ok log => (log, .ok f)
      | .error e => (log, .error (.text e))
  else (log, .ok f)

def compile (print : Printer) (log : Log) (model : Model) (maxDepth : Nat) (p : Predicate) :
    Log × Except Fault Filter :=
  let start := (p.toExpr.text print).map ("Translating filter predicate: " ++ ·)
  match log.note .debug start with
  | .error e => (log, .error (.text e))
  | .ok log =>
    match Compile.predicate model maxDepth p with
    | .ok f => log.trace print p f
    | .error e =>
      match e.message print with
      | .error e => (log, .error (.text e))
      | .ok message =>
        let failure := "Filter translation failed [" ++ e.kind.text ++ "]: " ++ message
        (if e.isRefusal then log.write .debug failure else log, .error (.compile e message))

/-- A refusal is an outcome; a fault gets out. -/
def tryCompile (print : Printer) (log : Log) (model : Model) (maxDepth : Nat) (p : Predicate) :
    Log × Except Fault Outcome :=
  match log.compile print model maxDepth p with
  | (log, .ok f) => (log, .ok (.ofFilter f))
  | (log, .error (.compile e message)) =>
    (log, if e.isRefusal then .ok (.ofError e message) else .error (.compile e message))
  | (log, .error fault) => (log, .error fault)

def configure (reader : Reader) (log : Log) (text : String) :
    Log × Except ModelError Configuration :=
  match Configuration.ofText reader text with
  | .ok c =>
    (log.write .info
      ("Loaded model configuration (" ++ toString c.model.registry.size ++ " classes)"), .ok c)
  | .error .malformed =>
    (log.write .error ("Failed to parse model configuration: " ++ ModelError.malformed.message),
      .error .malformed)
  | .error e => (log.write .error ("Invalid model configuration: " ++ e.message), .error e)

end QueryFilter.Log
