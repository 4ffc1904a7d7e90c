import GameScript.Proofs.StatementLabels

/-!
# Well-typed programs

What it means for typed expressions and statements to be well typed is stated here apart from the
checker, relative to what a function can refer to: the slots of its frame, the variables and
functions of the script, and the natives. Conversions have been made already, so an operator stands
only on types that it is defined on, and an argument only where its type is admitted.
-/
namespace GameScript

/-- What the expressions of a function can refer to. -/
structure TypingEnv where
  frame : UInt32 → Ty → Prop
  static : String → Ty → Prop
  global : String → Ty → Prop
  function : String → Option Ty → List Ty → Prop
  native : String → Option Ty → List Ty → Prop

/-- The types of a constant: its own, or an enum for a member's value. Texts are no constants. -/
def Literal.HasType (v : Literal) (ty : Ty) : Prop :=
  match v with
  | .text _ => False
  | .int _ => ty = .int ∨ ∃ name members, ty = .enum name members
  | v => ty = v.type

/-- Whether a conversion can be made. The address of a text label is taken, so it must have one. -/
def Conversion.Applies (c : Conversion) (x : TypedExpr) : Prop :=
  match c with
  | .intToFloat => x.ty = .int
  | .floatToVector => x.ty = .float
  | .labelToString => x.isLValue = true ∧ ∃ n, x.ty = .textLabel n

mutual

inductive TypedExpr.WellTyped (Γ : TypingEnv) : TypedExpr → Prop where
  | const {ty span v} : v.HasType ty → WellTyped Γ (.const ty span v)
  | string {span s} : WellTyped Γ (.string .string span s)
  | frame {ty span slot} : Γ.frame slot ty → WellTyped Γ (.frame ty span slot)
  | static {ty span name} : Γ.static name ty → WellTyped Γ (.static ty span name)
  | global {ty span name} : Γ.global name ty → WellTyped Γ (.global ty span name)
  | convert {span c x} : WellTyped Γ x → c.Applies x → WellTyped Γ (.convert c.type span c x)
  | unary {span op x} : WellTyped Γ x → Typing.unaryDefined op x.ty = true →
      WellTyped Γ (.unary x.ty span op x)
  | binary {ty span op x y} : WellTyped Γ x → WellTyped Γ y →
      binaryRule? op x.ty y.ty = some { result := ty } → WellTyped Γ (.binary ty span op x y)
  | field {span x name p} : WellTyped Γ x → x.isLValue = true → x.ty.field? name = some p →
      WellTyped Γ (.field p.field.ty span x (UInt32.ofNat (p.offset / slotSize)))
  | index {item n span x i} : WellTyped Γ x → x.isLValue = true → x.ty = .array item n →
      WellTyped Γ i → i.ty = .int →
      WellTyped Γ (.index item span x i (UInt32.ofNat item.slots))
  | call {result params span name args} : Γ.function name result params →
      TypedExpr.Arguments Γ args params →
      WellTyped Γ (.call (result.getD .void) span name args)
  | native {result params span name args} : Γ.native name result params →
      TypedExpr.Arguments Γ args params →
      WellTyped Γ (.native (result.getD .void) span name args (UInt32.ofNat (slotsOf params))
        (UInt32.ofNat ((result.map Ty.slots).getD 0)))
  | vector {span x y z} : WellTyped Γ x → x.ty = .float → WellTyped Γ y → y.ty = .float →
      WellTyped Γ z → z.ty = .float → WellTyped Γ (.vector .vector span x y z)

/-- One argument for each parameter, of a type that the parameter admits. -/
inductive TypedExpr.Arguments (Γ : TypingEnv) : List TypedExpr → List Ty → Prop where
  | nil : TypedExpr.Arguments Γ [] []
  | cons {x args param params} : TypedExpr.WellTyped Γ x → param.Admits x.ty →
      TypedExpr.Arguments Γ args params → TypedExpr.Arguments Γ (x :: args) (param :: params)

end

/-- Whether an expression is a call, which may stand as a statement. -/
def TypedExpr.isCall : TypedExpr → Bool
  | .call _ _ _ _ | .native _ _ _ _ _ _ => true
  | _ => false

/-- A statement of a function with this result and these labels. -/
inductive TypedStmt.WellTyped (Γ : TypingEnv) (result : Option Ty) (labels : List String) :
    TypedStmt → Prop where
  | assign {x y} : x.WellTyped Γ → x.isLValue = true → y.WellTyped Γ → x.ty.Admits y.ty →
      WellTyped Γ result labels (.assign x y)
  | defaultInit {x} : x.WellTyped Γ → x.isLValue = true →
      WellTyped Γ result labels (.defaultInit x)
  | cond {x thenBody elseBody} : x.WellTyped Γ → x.ty = .bool →
      (∀ s ∈ thenBody, WellTyped Γ result labels s) →
      (∀ s ∈ elseBody, WellTyped Γ result labels s) →
      WellTyped Γ result labels (.cond x thenBody elseBody)
  | whileLoop {x body} : x.WellTyped Γ → x.ty = .bool →
      (∀ s ∈ body, WellTyped Γ result labels s) → WellTyped Γ result labels (.whileLoop x body)
  | repeatLoop {limit counter body} : limit.WellTyped Γ → limit.ty = .int →
      counter.WellTyped Γ → counter.ty = .int → counter.isLValue = true →
      (∀ s ∈ body, WellTyped Γ result labels s) →
      WellTyped Γ result labels (.repeatLoop limit counter body)
  | switch {x cases default} : x.WellTyped Γ → x.ty = .int → (cases.map TypedCase.value).Nodup →
      (∀ c ∈ cases, ∀ s ∈ c.body, WellTyped Γ result labels s) →
      (∀ body, default = some body → ∀ s ∈ body, WellTyped Γ result labels s) →
      WellTyped Γ result labels (.switch x cases default)
  | leave : result = none → WellTyped Γ result labels (.ret none)
  | ret {x ty} : x.WellTyped Γ → result = some ty → ty.Admits x.ty →
      WellTyped Γ result labels (.ret (some x))
  | expr {x} : x.WellTyped Γ → x.isCall = true → WellTyped Γ result labels (.expr x)
  | label {name} : name ∈ labels → WellTyped Γ result labels (.label name)
  | goto {name} : name ∈ labels → WellTyped Γ result labels (.goto name)
  | block {body} : (∀ s ∈ body, WellTyped Γ result labels s) →
      WellTyped Γ result labels (.block body)

/-- The first slot of an argument or a local, in the order arguments, reserved slots, locals. Slot
numbers have 32 bits. -/
inductive FrameSlot (args locals : List Variable) : UInt32 → Ty → Prop where
  | arg (before after : List Variable) (v : Variable) : args = before ++ v :: after →
      FrameSlot args locals (UInt32.ofNat (variableSlots before)) v.ty
  | var (before after : List Variable) (v : Variable) : locals = before ++ v :: after →
      FrameSlot args locals
        (UInt32.ofNat (variableSlots args + reservedSlots + variableSlots before)) v.ty

theorem FrameSlot.mono {args locals : List Variable} {slot : UInt32} {ty : Ty}
    (h : FrameSlot args locals slot ty) (more : List Variable) :
    FrameSlot args (locals ++ more) slot ty := by
  cases h with
  | arg before after v h => exact .arg before after v h
  | var before after v h =>
      apply FrameSlot.var before (after ++ more) v
      rw [h, List.append_assoc, List.cons_append]

/-! ## Programs -/

structure Signature where
  name : String
  params : List Ty
  result : Option Ty

/-- Whether a signature has this result and these parameters. Enums of one name are the same
type. -/
def Signature.Matches (f : Signature) (result : Option Ty) (params : List Ty) : Prop :=
  (Ty.function result params).same (.function f.result f.params) = true

theorem Signature.Matches.same {f : Signature} {result : Option Ty} {params : List Ty}
    (h : f.Matches result params) :
    Ty.sameResult result f.result = true ∧ Ty.sameList params f.params = true := by
  rw [Matches, Ty.same, Bool.and_eq_true] at h
  exact h

/-- What the expressions of a script can refer to outside of functions. -/
def TypingEnv.ofScript (statics globals : List (String × Ty)) (functions natives : List Signature) :
    TypingEnv where
  frame _ _ := False
  static name ty := (name, ty) ∈ statics
  global name ty := (name, ty) ∈ globals
  function name result params := ∃ f ∈ functions, f.name = name ∧ f.Matches result params
  native name result params := ∃ f ∈ natives, f.name = name ∧ f.Matches result params

def TypingEnv.inside (Γ : TypingEnv) (args locals : List Variable) : TypingEnv :=
  { Γ with frame := FrameSlot args locals }

def TypedData.entry (d : TypedData) : String × Ty := (d.name, d.ty)

def TypedNative.signature (f : TypedNative) : Signature := ⟨f.name, f.params, f.result⟩

def TypedFunction.signature (f : TypedFunction) : Signature :=
  ⟨f.name, f.args.map Variable.ty, f.result⟩

def TypedProgram.env (p : TypedProgram) : TypingEnv :=
  .ofScript (p.statics.map TypedData.entry) (p.globals.map TypedData.entry)
    (p.functions.map TypedFunction.signature) (p.natives.map TypedNative.signature)

/-- An initial value may be stored in its variable. Texts have no initial value. -/
structure TypedData.WellTyped (Γ : TypingEnv) (d : TypedData) : Prop where
  ty : d.ty.WellFormed
  init : ∀ x, d.init = some x → x.WellTyped Γ ∧ d.ty.Admits x.ty ∧ d.ty ≠ .string

/-- The statements of a function are well typed, its labels can be told apart, and a function with a
result cannot be left at its end. -/
structure TypedFunction.WellTyped (Γ : TypingEnv) (f : TypedFunction) : Prop where
  body : ∀ s ∈ f.body, s.WellTyped (Γ.inside f.args f.locals) f.result
    (TypedStmt.blockLabels f.body)
  labels : ((TypedStmt.blockLabels f.body).map Identity.ofName).Nodup
  returns : f.result.isSome = true → lastReturns f.body = true

/-- Everything in a program is well typed, and its functions can be told apart. -/
structure TypedProgram.WellTyped (p : TypedProgram) : Prop where
  statics : ∀ d ∈ p.statics, d.WellTyped p.env
  globals : ∀ d ∈ p.globals, d.WellTyped p.env
  functions : ∀ f ∈ p.functions, f.WellTyped p.env
  distinct : (p.functions.map fun f => Identity.ofName f.name).Nodup

end GameScript
