import GameScript.Check.Body

/-!
# Checking declarations

The top-level names of a script are collected before any body is checked. Enums come first, then
structs, then everything else in the order of the source. A struct is declared once the types of all
its fields are known, so structs may stand in any order; those that never get there, because they
refer to something undefined or to each other in a circle, are reported together.
-/
namespace GameScript

structure DeclareState where
  registry : Registry
  symbols : GlobalTable
  diagnostics : Diagnostics := {}

abbrev DeclareM := StateM DeclareState

namespace DeclareM

def report (span : Span) (cause : Cause) : DeclareM Unit :=
  modify fun s => { s with diagnostics := s.diagnostics.push (errorAt span cause) }

/-- Add a top-level symbol, or report that its identity is taken. Tells whether it was added. -/
def add (symbol : Symbol) : DeclareM Bool := do
  let s ← get
  match s.symbols.add symbol with
  | .ok symbols =>
    set { s with symbols := symbols }
    return true
  | .error e =>
    report symbol.span (.declaration e)
    return false

/-- Register a type, or report that it clashes with another. -/
def register (ty : Ty) (span : Span) : DeclareM (Option Ty) := do
  let s ← get
  match s.registry.register ty with
  | .ok (ty, registry) =>
    set { s with registry := registry }
    return some ty
  | .error e =>
    report span (.declaration e)
    return none

/-- The type that a written type stands for at top level. -/
def resolve (ref : TypeRef) : DeclareM (Except Cause Ty) := do
  let s ← get
  let (found, registry) := resolveType s.symbols.findName? s.registry ref
  set { s with registry := registry }
  return found

def resolveOrReport (ref : TypeRef) : DeclareM (Option Ty) := do
  match ← resolve ref with
  | .ok ty => return some ty
  | .error cause =>
    report ref.span cause
    return none

end DeclareM

/-- Values of enum members: as written, else one more than the member before, from `next` on. The
addition wraps around. -/
def memberValues (next : Int32) : List MemberDecl → List (String × Int32)
  | [] => []
  | m :: rest =>
    let value := m.value.getD next
    (m.name, value) :: memberValues (value + 1) rest

def declareEnum (decl : EnumDecl) : DeclareM Unit := do
  let members := memberValues 0 decl.members
  match ← DeclareM.register (.enum decl.name members) decl.span with
  | none => return
  | some ty =>
    let _ ← DeclareM.add ⟨decl.name, ty, decl.span, .type⟩
    (decl.members.zip members).forM fun (member, name, value) => do
      let _ ← DeclareM.add ⟨name, ty, member.span, .member value⟩

/-- Why a field cannot have this default: defaults are written in place when a local is declared, so
only numbers and booleans can have one. -/
def fieldInitError? (ty : Ty) (init : Literal) : Option TypeError :=
  match ty with
  | .int | .float | .bool =>
    if ty.accepts init.type then none else some (.mismatch ty.name init.type.name)
  | _ => some (.requiredType "field initializer" "an INT, FLOAT or BOOL" ty.name)

inductive StructAttempt where
  | ready (fields : List Field)
  /-- Some field's type is not known yet. -/
  | pending
  /-- Reported; not to be tried again. -/
  | failed

/-- Whether a type could not be resolved because its name means nothing so far. -/
def isUnknownType : Except Cause Ty → Bool
  | .error (.declaration (.unknownType _)) => true
  | _ => false

/-- The fields of a struct whose types are known. Names already `seen` are reported and left out;
so is a default that the field cannot have. -/
def structFields : List String → List (FieldDecl × Ty) → DeclareM (List Field)
  | _, [] => return []
  | seen, (decl, ty) :: rest => do
    if seen.any (sameName · decl.name) then
      DeclareM.report decl.span (.declaration (.duplicateIdentity decl.name))
      structFields seen rest
    else
      let init ←
        match decl.init with
        | none => pure none
        | some value =>
          match fieldInitError? ty value with
          | none => pure (some value)
          | some e => do
            DeclareM.report decl.span (.typing e)
            pure none
      let more ← structFields (seen ++ [decl.name]) rest
      return ⟨decl.name, ty, init⟩ :: more

def attemptStruct (decl : StructDecl) : DeclareM StructAttempt := do
  let found ← decl.fields.mapM fun f => DeclareM.resolve f.ty
  let fields := decl.fields.zip found
  if found.any isUnknownType then return .pending
  else
    let problems := fields.filterMap fun (f, r) =>
      match r with
      | .error cause => some (f.ty.span, cause)
      | .ok _ => none
    if problems.isEmpty then
      let known := fields.filterMap fun (f, r) =>
        match r with
        | .ok ty => some (f, ty)
        | .error _ => none
      return .ready (← structFields [] known)
    else
      problems.forM fun (span, cause) => DeclareM.report span cause
      return .failed

def registerStruct (decl : StructDecl) (fields : List Field) : DeclareM Unit := do
  match ← DeclareM.register (.ofFields decl.name fields) decl.span with
  | none => return
  | some ty =>
    let _ ← DeclareM.add ⟨decl.name, ty, decl.span, .type⟩

/-- Try each struct once and give back those that are still pending, in order. -/
def structRound : List StructDecl → DeclareM (List StructDecl)
  | [] => return []
  | decl :: rest => do
    match ← attemptStruct decl with
    | .ready fields =>
      registerStruct decl fields
      structRound rest
    | .pending => return decl :: (← structRound rest)
    | .failed => structRound rest

/-- Report the structs that can never be declared. -/
def reportUnresolved (queue : List StructDecl) : DeclareM Unit :=
  DeclareM.report (queue.head?.map StructDecl.span |>.getD {})
    (.declaration (.undefinedOrCircular (queue.map StructDecl.name)))

/-- Declare all structs: try them in rounds until none is pending or a round makes no progress. A
round that makes progress leaves fewer structs. -/
def declareStructs (queue : List StructDecl) : DeclareM Unit :=
  if queue.isEmpty then pure ()
  else do
    let pending ← structRound queue
    if _h : pending.length < queue.length then declareStructs pending
    else reportUnresolved pending
termination_by queue.length

/-- A static or global variable whose type is known. -/
structure DeclaredData where
  name : String
  ty : Ty
  init : Option Expr
  isArg : Bool
  span : Span

structure DeclaredFunction where
  decl : FunctionDecl
  params : List Ty
  result : Option Ty

/-- The declarations of a script that bodies and data initializers belong to. -/
structure Declared where
  statics : List DeclaredData := []
  globals : List DeclaredData := []
  natives : List TypedNative := []
  functions : List DeclaredFunction := []

def declareStatic (decl : StaticDecl) : DeclareM (Option DeclaredData) := do
  match ← DeclareM.resolveOrReport decl.ty with
  | none => return none
  | some ty =>
    if ← DeclareM.add ⟨decl.name, ty, decl.span, .static decl.isArg none⟩ then
      return some ⟨decl.name, ty, decl.init, decl.isArg, decl.span⟩
    else return none

def declareGlobal (decl : GlobalDecl) : DeclareM (Option DeclaredData) := do
  match ← DeclareM.resolveOrReport decl.ty with
  | none => return none
  | some ty =>
    if ← DeclareM.add ⟨decl.name, ty, decl.span, .global⟩ then
      return some ⟨decl.name, ty, decl.init, false, decl.span⟩
    else return none

/-- Declare the variables of a block and give back those that could be declared. -/
def declareGlobals : List GlobalDecl → DeclareM (List DeclaredData)
  | [] => return []
  | decl :: rest => do
    let first ← declareGlobal decl
    let more ← declareGlobals rest
    return first.toList ++ more

/-- The parameter types and the result type of a signature. Every type that cannot be resolved is
reported. -/
def resolveSignature (params : List ParamDecl) (result : Option TypeRef) :
    DeclareM (Option (List Ty × Option Ty)) := do
  let found ← params.mapM fun p => DeclareM.resolveOrReport p.ty
  let foundResult ←
    match result with
    | none => pure (some none)
    | some ref => do
      let ty ← DeclareM.resolveOrReport ref
      pure (ty.map some)
  return do return (← found.mapM id, ← foundResult)

/-- Declare a function symbol and give its parameter and result types. -/
def declareCallable (name : String) (params : List ParamDecl) (result : Option TypeRef)
    (span : Span) (linkage : Linkage) : DeclareM (Option (List Ty × Option Ty)) := do
  match ← resolveSignature params result with
  | none => return none
  | some (params, result) =>
    match ← DeclareM.register (.function result params) span with
    | none => return none
    | some ty =>
      if ← DeclareM.add ⟨name, ty, span, .function linkage⟩ then return some (params, result)
      else return none

/-- Declare an item that is neither an enum nor a struct. `block` is the block of globals that came
before, if any: a script has one global segment. -/
def declareItem (block : Option GlobalBlockDecl) (declared : Declared) :
    Item → DeclareM (Option GlobalBlockDecl × Declared)
  | .enum _ | .struct _ => return (block, declared)
  | .static decl => do
    let found ← declareStatic decl
    return (block, { declared with statics := declared.statics ++ found.toList })
  | .globals new =>
    match block with
    | some existing => do
      DeclareM.report new.span (.declaration (.duplicateGlobalBlock new.name existing.name))
      return (block, declared)
    | none => do
      let found ← declareGlobals new.vars
      return (some new, { declared with globals := declared.globals ++ found })
  | .native decl => do
    match ← declareCallable decl.name decl.params decl.result decl.span .native with
    | none => return (block, declared)
    | some (params, result) =>
      return (block,
        { declared with natives := declared.natives ++ [⟨decl.name, params, result⟩] })
  | .function decl => do
    match ← declareCallable decl.name decl.params decl.result decl.span .script with
    | none => return (block, declared)
    | some (params, result) =>
      return (block,
        { declared with functions := declared.functions ++ [⟨decl, params, result⟩] })

def declareItems (block : Option GlobalBlockDecl) (declared : Declared) :
    List Item → DeclareM Declared
  | [] => return declared
  | item :: rest => do
    let (block, declared) ← declareItem block declared item
    declareItems block declared rest

def Script.enums (script : Script) : List EnumDecl :=
  script.filterMap fun
    | .enum decl => some decl
    | _ => none

def Script.structs (script : Script) : List StructDecl :=
  script.filterMap fun
    | .struct decl => some decl
    | _ => none

def declareScript (script : Script) : DeclareM Declared := do
  script.enums.forM declareEnum
  declareStructs script.structs
  declareItems none {} script

end GameScript
