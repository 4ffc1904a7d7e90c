import GameScript.Lowering.Value

/-!
# Code for statements

Control flow becomes jumps between generated labels. They start with a dollar sign and are numbered
through each function; labels of the script keep their names. No statement leaves anything on the
stack.
-/
namespace GameScript
namespace Lowering

open Statement (op pushInt mark)

def freshLabel (kind : String) (n : Nat) : String := "$" ++ kind ++ "_" ++ toString n

def jumpTo (opcode : Opcode) (label : String) : Statement := op opcode [.ident label]

/-- What the statements of one function need to know: where data lies, and the sizes that a return
gives back. -/
structure BodyInfo where
  layout : DataLayout
  argSlots : Nat
  resultSlots : Nat

/-- The slots of all parameters as a signed operand of 64 bits. A type whose size can be counted has
fewer slots than that, but several of them together may have more. -/
def slotsOperand (n : Nat) : Operand := .int (Int64.ofNat n).toInt

def BodyInfo.leave (info : BodyInfo) : Statement :=
  op .leave [slotsOperand info.argSlots, .int info.resultSlots]

/-- Code together with the number of the next generated label. -/
abbrev Emitted := Except EncodingError (List Statement × Nat)

mutual

/-- The code of a statement, where `next` is the number of the next generated label. -/
def stmt (info : BodyInfo) : TypedStmt → Nat → Emitted
  | .assign target source, next => do
    return (← store info.layout target source, next)
  | .defaultInit target, next => do
    let place ← address info.layout target
    return (place ++ initInPlace target.ty ++ [op .drop], next)
  | .cond condition thenBody elseBody, next => do
    let done := freshLabel "if_end" next
    let test ← value info.layout condition
    if elseBody.isEmpty then
      let (body, next) ← block info thenBody (next + 1)
      return (test ++ [jumpTo .jumpZero done] ++ body ++ [mark done], next)
    else
      let otherwise := freshLabel "if_else" (next + 1)
      let (first, next) ← block info thenBody (next + 2)
      let (second, next) ← block info elseBody next
      return (test ++ [jumpTo .jumpZero otherwise] ++ first ++
        [jumpTo .jump done, mark otherwise] ++ second ++ [mark done], next)
  | .whileLoop condition body, next => do
    let start := freshLabel "while_begin" next
    let done := freshLabel "while_end" (next + 1)
    let test ← value info.layout condition
    let (body, next) ← block info body (next + 2)
    return ([mark start] ++ test ++ [jumpTo .jumpZero done] ++ body ++
      [jumpTo .jump start, mark done], next)
  | .repeatLoop limit counter body, next => do
    let start := freshLabel "repeat_begin" next
    let done := freshLabel "repeat_end" (next + 1)
    let place ← address info.layout counter
    let current ← load info.layout counter
    let bound ← value info.layout limit
    let (body, next) ← block info body (next + 2)
    return ([pushInt 0] ++ place ++ [op .store, mark start] ++ current ++ bound ++
      [op .ilt, jumpTo .jumpZero done] ++ body ++ current ++ [pushInt 1, op .iadd] ++ place ++
      [op .store, jumpTo .jump start, mark done], next)
  | .switch selector cases default, next => do
    let done := freshLabel "switch_end" next
    let first := next + 1
    let next := first + cases.length
    let selector ← value info.layout selector
    let targets := caseOperands first cases
    match default with
    | none =>
      let (bodies, next) ← caseBodies info done first cases next
      return (selector ++ [op .switch targets, jumpTo .jump done] ++ bodies ++ [mark done], next)
    | some body =>
      let otherwise := freshLabel "switch_default" next
      let (bodies, next) ← caseBodies info done first cases (next + 1)
      let (body, next) ← block info body next
      return (selector ++ [op .switch targets, jumpTo .jump otherwise] ++ bodies ++
        [mark otherwise] ++ body ++ [mark done], next)
  | .ret none, next => .ok ([info.leave], next)
  | .ret (some result), next => do
    return ((← value info.layout result) ++ [info.leave], next)
  | .expr call, next => do
    return ((← value info.layout call) ++ List.replicate call.ty.slots (op .drop), next)
  | .label name, next => .ok ([mark name], next)
  | .goto name, next => .ok ([jumpTo .jump name], next)
  | .block body, next => block info body next

def block (info : BodyInfo) : List TypedStmt → Nat → Emitted
  | [], next => .ok ([], next)
  | s :: rest, next => do
    let (first, next) ← stmt info s next
    let (more, next) ← block info rest next
    return (first ++ more, next)

/-- The bodies of the cases of a switch that ends at `done`. The label of the first case has number
`index`. -/
def caseBodies (info : BodyInfo) (done : String) (index : Nat) : List TypedCase → Nat → Emitted
  | [], next => .ok ([], next)
  | ⟨_, body⟩ :: rest, next => do
    let (first, next) ← block info body next
    let (more, next) ← caseBodies info done (index + 1) rest next
    return ([mark (freshLabel "case" index)] ++ first ++ [jumpTo .jump done] ++ more, next)

/-- The operands of a switch: each case with its label, the first of which has number `index`. -/
def caseOperands (index : Nat) : List TypedCase → List Operand
  | [] => []
  | ⟨v, _⟩ :: rest => .case v.toInt (freshLabel "case" index) :: caseOperands (index + 1) rest

end

/-- Whether a body ends in a return, so that no further one is needed. -/
def endsInReturn (body : List TypedStmt) : Bool :=
  match body.getLast? with
  | some (.ret _) => true
  | _ => false

/-- The code of a function whose body is preceded by `prelude`. -/
def functionBody (layout : DataLayout) (prelude : List TypedStmt) (f : TypedFunction) :
    Except EncodingError (List Statement) := do
  let info : BodyInfo := ⟨layout, f.argSlots, f.resultSlots⟩
  let (before, next) ← block info prelude 0
  let (body, _) ← block info f.body next
  return before ++ body ++ if endsInReturn f.body then [] else [info.leave]

end Lowering

structure GeneratedScript where
  functions : List FunctionDef := []
  statics : List DataField := []
  globals : List DataField := []

namespace Lowering

/-- The data field of a variable. An initial value that is not a literal is assigned later. -/
def dataField (d : TypedData) : DataField := ⟨d.name, d.ty, d.literal?, d.isArg⟩

/-- The assignment of an initial value that is not a literal to its storage. -/
def deferred (storage : Ty → Span → String → TypedExpr) (d : TypedData) : Option TypedStmt :=
  match d.init, d.literal? with
  | some init, none => some (.assign (storage d.ty d.span d.name) init)
  | _, _ => none

/-- The definition of one function; `prelude` runs at the start of the entry function. -/
def functionDef (layout : DataLayout) (prelude : List TypedStmt) (f : TypedFunction) :
    Except EncodingError FunctionDef := do
  let body ← functionBody layout (if f.isMain then prelude else []) f
  return {
    name := f.name
    args := f.args
    locals := f.locals
    result := f.result
    body := body }

end Lowering

/-- Generate the assembly of a program. Initial values of variables that are not literals are
assigned at the start of the entry function, which must exist if there are any. -/
def generate (p : TypedProgram) : Except EncodingError GeneratedScript := do
  let statics := p.statics.map Lowering.dataField
  let globals := p.globals.map Lowering.dataField
  let prelude :=
    p.statics.filterMap (Lowering.deferred .static) ++
      p.globals.filterMap (Lowering.deferred .global)
  if !prelude.isEmpty && !p.functions.any TypedFunction.isMain then
    throw (.unsupported .initializerWithoutMain)
  let layout := DataLayout.ofFields statics globals
  let functions ← p.functions.mapM (Lowering.functionDef layout prelude)
  return { functions, statics, globals }

end GameScript
