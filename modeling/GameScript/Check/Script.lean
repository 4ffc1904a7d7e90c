import GameScript.Check.Declare

/-!
# Checking scripts

A script is checked in two passes: first its declarations, then the initial values of its variables
and the bodies of its functions. The result is a typed program together with the diagnostics; the
program is fit for code generation when no error was reported.
-/
namespace GameScript

structure CheckResult where
  program : TypedProgram
  diagnostics : Diagnostics

def CheckResult.isSuccess (r : CheckResult) : Bool := !r.diagnostics.hasErrors

/-- Check the initial value of a static or global variable; `kind` is its name in messages. -/
def dataInit (kind : String) (symbols : GlobalTable) (data : DeclaredData) : Checked TypedExpr :=
  match data.init with
  | none => { value? := none }
  | some init => do
    if data.ty == .string then
      .fail init.span
        (.invalidStaticInitializer kind data.name s!"STRING {kind}s cannot be initialized")
    else
      let value ← typeValue (Scope.new symbols) init
      match coerce value data.ty with
      | .ok value => return value
      | .error found =>
        .fail init.span (.invalidStaticInitializer kind data.name
          (TypeError.mismatch data.ty.name found.name).message)

/-- What the second pass adds to: interned types and diagnostics. -/
structure BodiesState where
  registry : Registry
  diagnostics : Diagnostics

abbrev BodiesM := StateM BodiesState

def checkData (kind : String) (symbols : GlobalTable) (data : DeclaredData) :
    BodiesM TypedData := do
  let checked := dataInit kind symbols data
  modify fun s => { s with diagnostics := s.diagnostics.extend ⟨checked.reports⟩ }
  return ⟨data.name, data.ty, data.isArg, checked.value?, data.span⟩

/-- Declare the arguments of a function. One that cannot be declared is reported and left out. -/
def declareArgs : List (ParamDecl × Ty) → BodyM Unit
  | [] => return
  | (param, ty) :: rest => do
    let s ← get
    match s.scope.declareArg param.name ty param.span with
    | .ok (_, scope) => set { s with scope := scope }
    | .error e => BodyM.report param.span (.declaration e)
    declareArgs rest

def checkFunctionBody (f : DeclaredFunction) : BodyM (List TypedStmt) := do
  declareArgs (f.decl.params.zip f.params)
  let (labels, reports) := scanLabels f.decl.body ([], [])
  modify fun s => { s with diagnostics := s.diagnostics.extend ⟨reports⟩ }
  let body ← checkBlock { labels := labels, result := f.result } f.decl.body
  match f.result with
  | none => return body
  | some ty =>
    unless lastReturns body do
      BodyM.report f.decl.span (.typing (.missingReturnValue ty.name))
    return body

def checkFunction (symbols : GlobalTable) (f : DeclaredFunction) : BodiesM TypedFunction := do
  let s ← get
  let (body, final) := (checkFunctionBody f).run
    { scope := Scope.new symbols, registry := s.registry, diagnostics := s.diagnostics }
  set ({ registry := final.registry, diagnostics := final.diagnostics } : BodiesState)
  return {
    name := f.decl.name
    args := final.scope.args
    locals := final.scope.locals
    result := f.result
    body := body
    span := f.decl.span }

/-- Check a script against the types of a registry, all of which the script can use. -/
def checkWith (registry : Registry) (script : Script) : CheckResult :=
  let (declared, first) := (declareScript script).run
    { registry := registry, symbols := GlobalTable.ofRegistry registry }
  let bodies : BodiesM (List TypedData × List TypedData × List TypedFunction) := do
    let statics ← declared.statics.mapM (checkData "static" first.symbols)
    let globals ← declared.globals.mapM (checkData "global" first.symbols)
    let functions ← declared.functions.mapM (checkFunction first.symbols)
    return (statics, globals, functions)
  let ((statics, globals, functions), final) := bodies.run
    { registry := first.registry, diagnostics := first.diagnostics }
  { program := {
      types := final.registry
      symbols := first.symbols
      statics := statics
      globals := globals
      natives := declared.natives
      functions := functions }
    diagnostics := final.diagnostics }

/-- Check a script against the built-in types. -/
def check (script : Script) : CheckResult := checkWith Registry.withBuiltins script

end GameScript
