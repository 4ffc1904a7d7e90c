import GameScript.Check.Expr
import GameScript.Symbol.Label

/-!
# Checking statements

The body of a function is checked statement by statement. Each nested block has its own scope, the
labels of a function are known before its body is checked, and a statement with a mistake is left
out of the typed body once the mistake is reported.
-/
namespace GameScript

/-- Intern the arrays that a written type stands for, from the innermost out. What is interned stays
in the registry even when a later array fails. -/
def internArrays : Registry → Ty → List UInt32 → Except DeclarationError Ty × Registry
  | r, ty, [] => (.ok ty, r)
  | r, ty, n :: rest =>
    match r.registerArray ty n with
    | .ok (array, r) => internArrays r array rest
    | .error e => (.error e, r)

/-- The type that a written type stands for, where `find?` gives the meaning of its name. -/
def resolveType (find? : String → Option Symbol) (r : Registry) (ref : TypeRef) :
    Except Cause Ty × Registry :=
  match find? ref.name with
  | none => (.error (.declaration (.unknownType ref.name)), r)
  | some s =>
    if s.kind.isType then
      match internArrays r s.ty ref.lengths with
      | (.ok ty, r) => (.ok ty, r)
      | (.error e, r) => (.error (.declaration e), r)
    else (.error (.typing (.notAType ref.name)), r)

/-- What is fixed while a body is checked: its labels and the result type of its function. -/
structure BodyContext where
  labels : LabelTable := []
  result : Option Ty := none

structure BodyState where
  scope : Scope
  registry : Registry
  diagnostics : Diagnostics := {}

abbrev BodyM := StateM BodyState

namespace BodyM

def report (span : Span) (cause : Cause) : BodyM Unit :=
  modify fun s => { s with diagnostics := s.diagnostics.push (errorAt span cause) }

/-- Take the value of a check over and report its problems. -/
def take {α : Type} (x : Checked α) : BodyM (Option α) := do
  modify fun s => { s with diagnostics := s.diagnostics.extend ⟨x.reports⟩ }
  return x.value?

/-- Type an expression that must be a value. -/
def value (e : Expr) : BodyM (Option TypedExpr) := do
  take (typeValue (← get).scope e)

/-- Type an expression that must have exactly the type `ty`. -/
def required (e : Expr) (ty : Ty) (context : String) : BodyM (Option TypedExpr) := do
  match ← value e with
  | none => return none
  | some x =>
    if x.ty == ty then return some x
    else
      report e.span (.typing (.requiredType context ty.name x.ty.name))
      return none

/-- Fit a value for storage in `ty`, or report that it does not fit. -/
def fit (x : TypedExpr) (ty : Ty) (span : Span) : BodyM (Option TypedExpr) := do
  match coerce x ty with
  | .ok x => return some x
  | .error found =>
    report span (.typing (.mismatch ty.name found.name))
    return none

def localType (ref : TypeRef) : BodyM (Option Ty) := do
  let s ← get
  let (found, registry) := resolveType s.scope.findName? s.registry ref
  set { s with registry := registry }
  match found with
  | .ok ty => return some ty
  | .error cause =>
    report ref.span cause
    return none

def declareLocal (name : String) (ty : Ty) (span : Span) : BodyM (Option UInt32) := do
  let s ← get
  match s.scope.declareLocal name ty span with
  | .ok (slot, scope) =>
    set { s with scope := scope }
    return some slot
  | .error e =>
    report span (.declaration e)
    return none

def inBlock {α : Type} (step : BodyM α) : BodyM α := do
  modify fun s => { s with scope := s.scope.push }
  let result ← step
  modify fun s => { s with scope := s.scope.pop }
  return result

/-- A counter, which must be storage. -/
def counter (e : Expr) : BodyM (Option TypedExpr) := do
  match ← required e .int "REPEAT statement counter" with
  | none => return none
  | some x =>
    if x.isLValue then return some x
    else
      report x.span (.typing .notAnLValue)
      return none

/-- The value of a switch case, which must be constant. -/
def caseValue (e : Expr) : BodyM (Option Int32) := do
  let context := "SWITCH case value"
  match ← required e .int context with
  | none => return none
  | some x =>
    match x.intConstant? with
    | some v => return some v
    | none =>
      report e.span
        (.typing (.requiredType context "a constant INT" "a non-constant expression"))
      return none

/-- Declare a variable. Its initial value cannot see it. -/
def declare (span : Span) (name : String) (ref : TypeRef) (init : Option Expr) :
    BodyM (List TypedStmt) := do
  match ← localType ref with
  | none => return []
  | some declared =>
    let initial ←
      match init with
      | none => pure none
      | some e => value e
    let ty :=
      match initial with
      | some x => if declared == .auto && x.ty != .null then x.ty else declared
      | none => declared
    let fitted ←
      match init, initial with
      | some e, some x => fit x ty e.span
      | _, _ => pure none
    match ← declareLocal name ty span with
    | none => return []
    | some slot =>
      let target := TypedExpr.frame ty span slot
      match fitted with
      | some x => return [.assign target x]
      | none =>
        if init.isNone && ty.needsDefaultInit then return [.defaultInit target] else return []

def assign (span : Span) (target value : Expr) : BodyM (List TypedStmt) := do
  let target ← BodyM.value target
  let value ← BodyM.value value
  match target, value with
  | some target, some value =>
    if target.isLValue then
      match ← fit value target.ty span with
      | some value => return [.assign target value]
      | none => return []
    else
      report target.span (.typing .notAnLValue)
      return []
  | _, _ => return []

/-- A return is kept even when its value is wrong, so that one bad return is one report. -/
def ret (result : Option Ty) (span : Span) (value : Option Expr) : BodyM TypedStmt := do
  match value, result with
  | none, none => return .ret none
  | some v, none =>
    report v.span (.typing .unexpectedReturnValue)
    return .ret none
  | none, some ty =>
    report span (.typing (.missingReturnValue ty.name))
    return .ret none
  | some v, some ty =>
    match ← BodyM.value v with
    | none => return .ret none
    | some x =>
      match coerce x ty with
      | .ok x => return .ret (some x)
      | .error found =>
        report v.span (.typing (.returnMismatch ty.name found.name))
        return .ret none

/-- A statement that is an expression must be a call. -/
def callStmt (e : Expr) : BodyM (List TypedStmt) := do
  match e with
  | .call _ _ _ =>
    match ← value e with
    | some x => return [.expr x]
    | none => return []
  | _ =>
    report e.span (.typing (.requiredType "statement" "a call" "an expression"))
    return []

end BodyM

mutual

/-- Check a statement. It yields one typed statement, or none when it is in error or when it
declares a variable that need not be written to. -/
def checkStmt (ctx : BodyContext) : Stmt → BodyM (List TypedStmt)
  | .var span name ty init => BodyM.declare span name ty init
  | .assign span target value => BodyM.assign span target value
  | .cond _ condition thenBody elseBody => do
    let condition ← BodyM.required condition .bool "IF statement condition"
    let thenBody ← BodyM.inBlock (checkBlock ctx thenBody)
    let elseBody ← BodyM.inBlock (checkBlock ctx elseBody)
    match condition with
    | some condition => return [.cond condition thenBody elseBody]
    | none => return []
  | .whileLoop _ condition body => do
    let condition ← BodyM.required condition .bool "WHILE statement condition"
    let body ← BodyM.inBlock (checkBlock ctx body)
    match condition with
    | some condition => return [.whileLoop condition body]
    | none => return []
  | .repeatLoop _ limit counter body => do
    let limit ← BodyM.required limit .int "REPEAT statement limit"
    let counter ← BodyM.counter counter
    let body ← BodyM.inBlock (checkBlock ctx body)
    match limit, counter with
    | some limit, some counter => return [.repeatLoop limit counter body]
    | _, _ => return []
  | .switch _ value cases default => do
    let value ← BodyM.required value .int "SWITCH statement value"
    let cases ← checkCases ctx [] cases
    let default ←
      match default with
      | none => pure none
      | some body => do
        let body ← BodyM.inBlock (checkBlock ctx body)
        pure (some body)
    match value with
    | some value => return [.switch value cases default]
    | none => return []
  | .ret span value => do
    let stmt ← BodyM.ret ctx.result span value
    return [stmt]
  | .call _ e => BodyM.callStmt e
  | .label _ name => return [.label name]
  | .goto span name =>
    match ctx.labels.findName? name with
    | some label => return [.goto label.name]
    | none => do
      BodyM.report span (.typing (.unknownLabel name))
      return []
  | .block _ body => do
    let body ← BodyM.inBlock (checkBlock ctx body)
    return [.block body]

def checkBlock (ctx : BodyContext) : List Stmt → BodyM (List TypedStmt)
  | [] => return []
  | s :: rest => do
    let first ← checkStmt ctx s
    let more ← checkBlock ctx rest
    return first ++ more

/-- Check the cases of a switch, of which the values `seen` came before. -/
def checkCases (ctx : BodyContext) (seen : List Int32) : List SwitchCase → BodyM (List TypedCase)
  | [] => return []
  | ⟨e, body, span⟩ :: rest => do
    let value ← BodyM.caseValue e
    let body ← BodyM.inBlock (checkBlock ctx body)
    match value with
    | none => checkCases ctx seen rest
    | some v =>
      if seen.contains v then do
        BodyM.report span (.typing (.duplicateCase v.toInt))
        checkCases ctx seen rest
      else do
        let more ← checkCases ctx (seen ++ [v]) rest
        return ⟨v, body⟩ :: more

end

/-- Labels with the reports on those that could not be added. -/
abbrev LabelScan := LabelTable × List Diagnostic

mutual

/-- Collect the labels of a statement and of all its blocks. -/
def Stmt.scanLabels : Stmt → LabelScan → LabelScan
  | .label span name, (table, reports) =>
    match table.add name span with
    | .ok table => (table, reports)
    | .error e => (table, reports ++ [errorAt span (.declaration e)])
  | .cond _ _ thenBody elseBody, scan => scanLabels elseBody (scanLabels thenBody scan)
  | .whileLoop _ _ body, scan | .repeatLoop _ _ _ body, scan | .block _ body, scan =>
    scanLabels body scan
  | .switch _ _ cases default, scan =>
    match default with
    | some body => scanLabels body (scanCaseLabels cases scan)
    | none => scanCaseLabels cases scan
  | _, scan => scan

def scanLabels : List Stmt → LabelScan → LabelScan
  | [], scan => scan
  | s :: rest, scan => scanLabels rest (s.scanLabels scan)

def scanCaseLabels : List SwitchCase → LabelScan → LabelScan
  | [], scan => scan
  | ⟨_, body, _⟩ :: rest, scan => scanCaseLabels rest (scanLabels body scan)

end

mutual

/-- Whether control can never go past a statement, as far as its last parts show. -/
def TypedStmt.alwaysReturns : TypedStmt → Bool
  | .ret _ => true
  | .block body => lastReturns body
  | .cond _ thenBody elseBody => lastReturns thenBody && lastReturns elseBody
  | .switch _ cases (some default) => casesReturn cases && lastReturns default
  | _ => false

def lastReturns : List TypedStmt → Bool
  | [] => false
  | s :: rest =>
    match rest with
    | [] => s.alwaysReturns
    | _ :: _ => lastReturns rest

def casesReturn : List TypedCase → Bool
  | [] => true
  | ⟨_, body⟩ :: rest => lastReturns body && casesReturn rest

end
end GameScript
