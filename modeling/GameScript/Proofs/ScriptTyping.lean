import GameScript.Check.Script
import GameScript.Proofs.BodyTyping
import GameScript.Proofs.DeclareInvariant

/-!
# Accepted scripts are well typed

A script in which no error is reported becomes a well-typed program. Its functions are those of the
script, in order, with the same labels. The two passes of the checker meet here: the first pass
gives a table of symbols that agrees with what was declared, and the second types initial values and
bodies against it. Nothing is said about scripts with errors, whose typed programs have gaps.
-/
namespace GameScript

theorem Scope.declareArg_ok {s s' : Scope} {name : String} {ty : Ty} {span : Span} {slot : UInt32}
    (h : s.declareArg name ty span = .ok (slot, s')) :
    s' = { s with
      innermost := s.innermost ++ [(Identity.ofName name, ⟨name, ty, span, .arg s.argSlots⟩)]
      args := s.args ++ [⟨name, ty⟩]
      argSlots := s.argSlots + UInt32.ofNat ty.slots } := by
  obtain ⟨block, hblock, hp⟩ := bind_eq_ok.mp h
  obtain ⟨-, rfl⟩ := SymbolTable.insert_ok hblock
  exact (Prod.mk.inj (Except.ok.inj hp)).2.symm

def ParamDecl.variable (p : ParamDecl × Ty) : Variable := ⟨p.1.name, p.2⟩

/-- What declaring arguments does to a state without locals. -/
structure BodyState.ArgsDeclared (Γ : TypingEnv) (params : List (ParamDecl × Ty))
    (s s' : BodyState) : Prop where
  locals : s'.scope.locals = []
  args : s.scope.args <+: s'.scope.args
  reports : s.diagnostics.items <+: s'.diagnostics.items
  holds : s'.Clean Γ → s.Holds Γ →
    s'.Holds Γ ∧ s'.scope.args = s.scope.args ++ params.map ParamDecl.variable

/-- An argument is refused and reported, or it is the last one of the frame so far. -/
theorem declareArgs_cases (param : ParamDecl) (ty : Ty) (params : List (ParamDecl × Ty))
    (s : BodyState) :
    (∃ e, declareArgs ((param, ty) :: params) s = declareArgs params { s with
      diagnostics := s.diagnostics.push (errorAt param.span (.declaration e)) }) ∨
    declareArgs ((param, ty) :: params) s = declareArgs params { s with
      scope := { s.scope with
        innermost := s.scope.innermost ++ [(Identity.ofName param.name,
          ⟨param.name, ty, param.span, .arg s.scope.argSlots⟩)]
        args := s.scope.args ++ [⟨param.name, ty⟩]
        argSlots := s.scope.argSlots + UInt32.ofNat ty.slots } } := by
  cases hdeclare : s.scope.declareArg param.name ty param.span with
  | error e =>
      left
      refine ⟨e, ?_⟩
      simp only [declareArgs, bind, StateT.bind, get, getThe, MonadStateOf.get, StateT.get, pure,
        hdeclare]
      rfl
  | ok q =>
      right
      have hscope := Scope.declareArg_ok hdeclare
      simp only [declareArgs, bind, StateT.bind, get, getThe, MonadStateOf.get, StateT.get, pure,
        hdeclare]
      rw [← hscope]
      rfl

theorem declareArgs_spec (Γ : TypingEnv) (params : List (ParamDecl × Ty)) (s : BodyState)
    (hlocals : s.scope.locals = []) : s.ArgsDeclared Γ params (declareArgs params s).2 := by
  induction params generalizing s with
  | nil =>
      exact ⟨hlocals, List.prefix_refl _, List.prefix_refl _, fun _ hs =>
        ⟨hs, (List.append_nil _).symm⟩⟩
  | cons p params ih =>
      obtain ⟨param, ty⟩ := p
      rcases declareArgs_cases param ty params s with ⟨e, hrun⟩ | hrun
      · rw [hrun]
        have hrest := ih { s with
          diagnostics := s.diagnostics.push (errorAt param.span (.declaration e)) } hlocals
        refine ⟨hrest.locals, hrest.args, (List.prefix_append _ _).trans hrest.reports, ?_⟩
        intro hclean
        have herror := hclean.reports _ (hrest.reports.subset
          (List.mem_append_right _ (List.mem_singleton_self _)))
        cases herror
      · rw [hrun]
        have hrest := ih { s with scope := { s.scope with
          innermost := s.scope.innermost ++ [(Identity.ofName param.name,
            ⟨param.name, ty, param.span, .arg s.scope.argSlots⟩)]
          args := s.scope.args ++ [⟨param.name, ty⟩]
          argSlots := s.scope.argSlots + UInt32.ofNat ty.slots } } hlocals
        refine ⟨hrest.locals, (List.prefix_append _ _).trans hrest.args, hrest.reports, ?_⟩
        intro hclean hs
        -- The first slot of the new argument is the size of those before it.
        have hframe : Γ.frame s.scope.argSlots ty := by
          obtain ⟨more, hmore⟩ := hrest.args
          rw [hs.argSlots]
          apply hclean.frame
          apply FrameSlot.arg s.scope.args more ⟨param.name, ty⟩
          rw [← hmore, List.append_assoc]
          rfl
        have hsymbol : Symbol.Agrees Γ ⟨param.name, ty, param.span, .arg s.scope.argSlots⟩ :=
          hframe
        have hnext := hrest.holds hclean ⟨hs.agrees.insert hsymbol rfl rfl rfl, by
          simp only [variableSlots_append, variableSlots_singleton, UInt32.ofNat_add, hs.argSlots],
          hs.localSlots⟩
        refine ⟨hnext.1, hnext.2.trans ?_⟩
        rw [List.append_assoc]
        rfl

/-- What checking the body of a function gives when no error is reported. -/
structure DeclaredFunction.BodyTyped (Γ : TypingEnv) (f : DeclaredFunction)
    (body : List TypedStmt) :
    Prop where
  checks : TypedStmt.Checks Γ f.result (Stmt.blockLabels f.decl.body)
    (Stmt.blockLabels f.decl.body) body
  labels : ((Stmt.blockLabels f.decl.body).map Identity.ofName).Nodup
  returns : f.result.isSome = true → lastReturns body = true

def DeclaredFunction.checkStatements (f : DeclaredFunction) : BodyM (List TypedStmt) := do
  let scan := scanLabels f.decl.body ([], [])
  modify fun s => { s with diagnostics := s.diagnostics.extend ⟨scan.2⟩ }
  let body ← checkBlock { labels := scan.1, result := f.result } f.decl.body
  match f.result with
  | none => return body
  | some ty =>
    unless lastReturns body do
      BodyM.report f.decl.span (.typing (.missingReturnValue ty.name))
    return body

theorem checkFunctionBody_eq (f : DeclaredFunction) :
    checkFunctionBody f = declareArgs (f.decl.params.zip f.params) >>= fun _ => f.checkStatements :=
  rfl

open BodyM in
/-- Reports that are all errors must be none. -/
theorem extend_ensures {Γ : TypingEnv} {H : Prop} {reports : List Diagnostic}
    (herrors : ∀ d ∈ reports, d.isError = true) :
    Ensures Γ H (modify fun s => { s with diagnostics := s.diagnostics.extend ⟨reports⟩ }) fun _ =>
      reports = [] := by
  intro s
  refine ⟨⟨rfl, List.prefix_refl _, List.prefix_append _ _⟩, fun _ hclean hs =>
    ⟨⟨hs.agrees, hs.argSlots, hs.localSlots⟩, ?_⟩⟩
  rw [List.eq_nil_iff_forall_not_mem]
  intro d hd
  have hnoerror := hclean.reports d (List.mem_append_right _ hd)
  rw [herrors d hd] at hnoerror
  cases hnoerror

open BodyM in
theorem checkStatements_ensures {Γ : TypingEnv} (f : DeclaredFunction) :
    Ensures Γ True f.checkStatements (f.BodyTyped Γ) := by
  have hscan := scanLabels_body f.decl.body
  refine (extend_ensures hscan.errors).bind fun _ => ?_
  refine ((checkBlock_ensures f.decl.body).weaken fun h =>
    ⟨fun _ _ hfind => ((hscan.table h.2).mem_of_find hfind).1, fun _ hn => hn⟩).bind fun body => ?_
  split
  · next hresult =>
      apply Ensures.pure
      intro h
      exact ⟨h.2, (hscan.table h.1.2).nodup, fun hsome => by rw [hresult] at hsome; cases hsome⟩
  · cases hreturns : lastReturns body with
    | true =>
        apply Ensures.pure
        intro h
        exact ⟨h.2, (hscan.table h.1.2).nodup, fun _ => hreturns⟩
    | false => exact report_then _ _ impossible

/-! ## The second pass -/

def Diagnostics.Clean (ds : Diagnostics) : Prop := ∀ d ∈ ds.items, d.isError = false

/-- A step of the second pass: if it ends without an error, its result has the property. -/
def BodiesM.Ensures {α : Type} (x : BodiesM α) (P : α → Prop) : Prop :=
  ∀ s : BodiesState, s.diagnostics.items <+: (x s).2.diagnostics.items ∧
    ((x s).2.diagnostics.Clean → P (x s).1)

namespace BodiesM

variable {α β : Type} {P : α → Prop} {Q : β → Prop}

theorem Ensures.pure {a : α} (h : P a) : Ensures (Pure.pure a) P :=
  fun _ => ⟨List.prefix_refl _, fun _ => h⟩

theorem Ensures.bind {x : BodiesM α} {f : α → BodiesM β} (hx : Ensures x P)
    (hf : ∀ a, Ensures (f a) fun b => P a → Q b) : Ensures (x >>= f) Q := by
  intro s
  have hfirst := hx s
  have hthen := hf (x s).1 (x s).2
  refine ⟨hfirst.1.trans hthen.1, fun hclean => ?_⟩
  exact hthen.2 hclean (hfirst.2 fun d hd => hclean d (hthen.1.subset hd))

/-- Every result has the property, and the view `g` of the results is that of the inputs. -/
theorem Ensures.mapM {γ : Type} {xs : List α} {f : α → BodiesM β} {view : α → γ} {view' : β → γ}
    (h : ∀ a ∈ xs, Ensures (f a) fun b => Q b ∧ view' b = view a) :
    Ensures (xs.mapM f) fun bs => (∀ b ∈ bs, Q b) ∧ bs.map view' = xs.map view := by
  induction xs with
  | nil =>
      rw [List.mapM_nil]
      exact .pure ⟨fun b hb => absurd hb List.not_mem_nil, rfl⟩
  | cons a xs ih =>
      rw [List.forall_mem_cons] at h
      rw [List.mapM_cons]
      refine h.1.bind fun b => (ih h.2).bind fun bs => .pure ?_
      intro hbs hb
      exact ⟨List.forall_mem_cons.mpr
        ⟨hb.1, hbs.1⟩, by rw [List.map_cons, List.map_cons, hb.2, hbs.2]⟩

end BodiesM

/-- An initial value is typed and fits its variable, or an error is reported. -/
theorem dataInit_yields {Γ : TypingEnv} {symbols : GlobalTable}
    (hsymbols : ∀ e ∈ symbols.symbols, e.2.Agrees Γ) (kind : String) (d : DeclaredData)
    {init : Expr} (hinit : d.init = some init) :
    (dataInit kind symbols d).Yields fun x =>
      x.WellTyped Γ ∧ d.ty.Admits x.ty ∧ d.ty ≠ .string := by
  have hagrees : (Scope.new symbols).Agrees Γ := by
    refine ⟨hsymbols, fun t ht e he => ?_⟩
    rw [List.mem_singleton.mp ht] at he
    exact absurd he List.not_mem_nil
  unfold dataInit
  rw [hinit]
  simp only []
  split
  · exact .fail _ _
  · next hstring =>
      have hne : d.ty ≠ .string := by
        intro h
        rw [h, Ty.beq_eq_same, Ty.same_refl] at hstring
        exact hstring rfl
      refine (typeValue_yields hagrees init).bind fun x hx => ?_
      cases hcoerce : coerce x d.ty with
      | error found =>
          exact .fail _ _
      | ok y =>
          have hy := Typing.coerce_ok hx hcoerce
          exact .pure ⟨hy.1, hy.2, hne⟩

theorem checkData_ensures {Γ : TypingEnv} {symbols : GlobalTable}
    (hsymbols : ∀ e ∈ symbols.symbols, e.2.Agrees Γ) (kind : String) {d : DeclaredData}
    (hty : d.ty.WellFormed) :
    BodiesM.Ensures (checkData kind symbols d) fun t => t.WellTyped Γ ∧ t.entry = d.entry := by
  intro s
  refine ⟨List.prefix_append _ _, fun _ => ⟨⟨hty, fun x hx => ?_⟩, rfl⟩⟩
  cases hinit : d.init with
  | none =>
      have hnone : (dataInit kind symbols d).value? = none := by rw [dataInit, hinit]
      cases hnone.symm.trans hx
  | some init => exact (dataInit_yields hsymbols kind d hinit).value x hx

/-- A function of the script is well typed and keeps its signature and its labels. -/
theorem checkFunction_ensures {declared : Declared} {symbols : GlobalTable}
    (hsymbols : ∀ e ∈ symbols.symbols, e.2.Agrees declared.env) {f : DeclaredFunction}
    (harity : f.params.length = f.decl.params.length) :
    BodiesM.Ensures (checkFunction symbols f) fun t =>
      t.WellTyped declared.env ∧ (t.signature, TypedStmt.blockLabels t.body) =
        (f.signature, Stmt.blockLabels f.decl.body) := by
  intro s
  let start : BodyState :=
    { scope := Scope.new symbols, registry := s.registry, diagnostics := s.diagnostics }
  let ready := (declareArgs (f.decl.params.zip f.params) start).2
  let final := (f.checkStatements ready).2
  let Γ := declared.env.inside final.scope.args final.scope.locals
  have hargs : start.ArgsDeclared Γ (f.decl.params.zip f.params) ready := declareArgs_spec Γ _ _ rfl
  have hbody := checkStatements_ensures (Γ := Γ) f ready
  refine ⟨hargs.reports.trans hbody.1.reports, fun hreports => ?_⟩
  -- The frame that `Γ` knows is the one at the end of the body.
  have hclean : final.Clean Γ := ⟨hreports, fun _ _ h => h⟩
  have hstart : start.Holds Γ := by
    refine ⟨⟨fun e he => (hsymbols e he).mono ?_, fun t ht e he => ?_⟩, rfl, rfl⟩
    · exact TypingEnv.sub_inside _ _ _ _ _ _
    · rw [List.mem_singleton.mp ht] at he
      exact absurd he List.not_mem_nil
  have hready := hargs.holds (hclean.of_extends hbody.1) hstart
  have htyped := (hbody.2 trivial hclean hready.1).2
  have hparams : final.scope.args.map Variable.ty = f.params := by
    have hdeclared : ready.scope.args = (f.decl.params.zip f.params).map ParamDecl.variable :=
      hready.2
    rw [hbody.1.args, hdeclared, List.map_map]
    exact List.map_snd_zip (Nat.le_of_eq harity)
  refine ⟨⟨?_, ?_, htyped.returns⟩, ?_⟩
  · exact htyped.checks.labels ▸ htyped.checks.wellTyped
  · exact htyped.checks.labels ▸ htyped.labels
  · exact Prod.ext (congrArg (Signature.mk f.decl.name · f.result) hparams) htyped.checks.labels

theorem Diagnostics.clean_of_not_hasErrors {ds : Diagnostics} (h : ds.hasErrors = false) :
    ds.Clean := by
  intro d hd
  have hnone := List.any_eq_false.mp h d hd
  exact Bool.eq_false_iff.mpr hnone

def checkBodies (declared : Declared) (symbols : GlobalTable) :
    BodiesM (List TypedData × List TypedData × List TypedFunction) := do
  let statics ← declared.statics.mapM (checkData "static" symbols)
  let globals ← declared.globals.mapM (checkData "global" symbols)
  let functions ← declared.functions.mapM (checkFunction symbols)
  return (statics, globals, functions)

structure Declared.BodiesTyped (declared : Declared)
    (p : List TypedData × List TypedData × List TypedFunction) : Prop where
  statics : ∀ d ∈ p.1, d.WellTyped declared.env
  globals : ∀ d ∈ p.2.1, d.WellTyped declared.env
  functions : ∀ f ∈ p.2.2, f.WellTyped declared.env
  staticEntries : p.1.map TypedData.entry = declared.statics.map DeclaredData.entry
  globalEntries : p.2.1.map TypedData.entry = declared.globals.map DeclaredData.entry
  signatures : p.2.2.map (fun f => (f.signature, TypedStmt.blockLabels f.body)) =
    declared.functions.map fun f => (f.signature, Stmt.blockLabels f.decl.body)

theorem checkBodies_ensures {declared : Declared} {done : List FunctionDecl} {first : DeclareState}
    (hfirst : first.Holds declared done) :
    BodiesM.Ensures (checkBodies declared first.symbols) declared.BodiesTyped := by
  have hstatics := BodiesM.Ensures.mapM fun d hd =>
    checkData_ensures hfirst.symbols "static" (hfirst.statics d hd).1
  have hglobals := BodiesM.Ensures.mapM fun d hd =>
    checkData_ensures hfirst.symbols "global" (hfirst.globals d hd).1
  have hfunctions := BodiesM.Ensures.mapM fun f hf =>
    checkFunction_ensures hfirst.symbols (hfirst.arity f hf)
  exact hstatics.bind fun statics => hglobals.bind fun globals => hfunctions.bind fun functions =>
    .pure fun hf hg hs => ⟨hs.1, hg.1, hf.1, hs.2, hg.2, hf.2⟩

/-- The two passes one after the other. -/
theorem check_eq (script : Script) :
    check script =
      let first := declareScript script (DeclareState.start Registry.withBuiltins)
      let second := checkBodies first.1 first.2.symbols ⟨first.2.registry, first.2.diagnostics⟩
      ⟨⟨second.2.registry, first.2.symbols, second.1.1, second.1.2.1, first.1.natives,
        second.1.2.2⟩, second.2.diagnostics⟩ :=
  rfl

theorem declareScript_holds (script : Script) :
    (declareScript script (DeclareState.start Registry.withBuiltins)).2.Holds
      (declareScript script (DeclareState.start Registry.withBuiltins)).1 script.functions :=
  declareScript_triple script _ (DeclareState.holds_start Registry.wellFormed_withBuiltins)

/-- Neither pass over an accepted script reports an error. -/
theorem clean_of_isSuccess {script : Script} (h : (check script).isSuccess = true) :
    let first := declareScript script (DeclareState.start Registry.withBuiltins)
    first.2.diagnostics.Clean ∧
      (checkBodies first.1 first.2.symbols
          ⟨first.2.registry, first.2.diagnostics⟩).2.diagnostics.Clean := by
  intro first
  have hnoErrors : (check script).diagnostics.hasErrors = false := by
    simpa only [CheckResult.isSuccess, Bool.not_eq_true'] using h
  rw [check_eq] at hnoErrors
  have hclean := Diagnostics.clean_of_not_hasErrors hnoErrors
  have hbodies :=
    checkBodies_ensures (declareScript_holds script) ⟨first.2.registry, first.2.diagnostics⟩
  exact ⟨fun d hd => hclean d (hbodies.1.subset hd), hclean⟩

theorem bodiesTyped_of_isSuccess {script : Script} (h : (check script).isSuccess = true) :
    let first := declareScript script (DeclareState.start Registry.withBuiltins)
    first.1.BodiesTyped
      (checkBodies first.1 first.2.symbols ⟨first.2.registry, first.2.diagnostics⟩).1 :=
  (checkBodies_ensures (declareScript_holds script) _).2 (clean_of_isSuccess h).2

def TypedProgram.names (p : TypedProgram) : List String :=
  p.statics.map TypedData.name ++ p.globals.map TypedData.name ++ p.natives.map TypedNative.name ++
    p.functions.map TypedFunction.name

/-- No two of them have the same identity in a script without errors. -/
theorem check_distinct {script : Script} (h : (check script).isSuccess = true) :
    ((check script).program.names.map Identity.ofName).Nodup := by
  let first := declareScript script (DeclareState.start Registry.withBuiltins)
  let second := checkBodies first.1 first.2.symbols ⟨first.2.registry, first.2.diagnostics⟩
  have hfirst : first.2.Holds first.1 script.functions := declareScript_holds script
  have htyped : first.1.BodiesTyped second.1 := bodiesTyped_of_isSuccess h
  have hstatics := congrArg (List.map Prod.fst) htyped.staticEntries
  have hglobals := congrArg (List.map Prod.fst) htyped.globalEntries
  have hfunctions := congrArg (List.map fun v => v.1.name) htyped.signatures
  rw [List.map_map, List.map_map] at hstatics hglobals hfunctions
  have hnames : (check script).program.names = first.1.statics.map DeclaredData.name ++
      first.1.globals.map DeclaredData.name ++ first.1.natives.map TypedNative.name ++
      first.1.functions.map fun f => f.decl.name :=
    congr (congrArg _ (congrArg (· ++ first.1.natives.map TypedNative.name)
      (congr (congrArg _ hstatics) hglobals))) hfunctions
  rw [hnames]
  exact hfirst.distinct

/-- A variable of a script without errors is found under its name. -/
theorem check_symbols {script : Script} (h : (check script).isSuccess = true) :
    (∀ d ∈ (check script).program.statics, ∃ span isArg init,
      (check script).program.symbols.findName? d.name =
        some ⟨d.name, d.ty, span, .static isArg init⟩) ∧
    ∀ d ∈ (check script).program.globals, ∃ span,
      (check script).program.symbols.findName? d.name = some ⟨d.name, d.ty, span, .global⟩ := by
  have hfirst := declareScript_holds script
  have htyped := bodiesTyped_of_isSuccess h
  constructor
  · intro d hd
    have hentry : d.entry ∈ _ := htyped.staticEntries ▸ List.mem_map_of_mem hd
    obtain ⟨declared, hdeclared, heq⟩ := List.mem_map.mp hentry
    obtain ⟨-, symbol, hfind, span, isArg, init, rfl⟩ := hfirst.statics declared hdeclared
    obtain ⟨hname, hty⟩ := Prod.mk.inj heq
    rw [hname, hty] at hfind
    exact ⟨span, isArg, init, hfind⟩
  · intro d hd
    have hentry : d.entry ∈ _ := htyped.globalEntries ▸ List.mem_map_of_mem hd
    obtain ⟨declared, hdeclared, heq⟩ := List.mem_map.mp hentry
    obtain ⟨-, symbol, hfind, span, rfl⟩ := hfirst.globals declared hdeclared
    obtain ⟨hname, hty⟩ := Prod.mk.inj heq
    rw [hname, hty] at hfind
    exact ⟨span, hfind⟩

/-- A script without errors becomes a well-typed program with the functions of the script. -/
theorem check_wellTyped {script : Script} (h : (check script).isSuccess = true) :
    (check script).program.WellTyped ∧
    (check script).program.functions.map (fun f => (f.name, TypedStmt.blockLabels f.body)) =
      script.functions.map fun decl => (decl.name, Stmt.blockLabels decl.body) := by
  let first := declareScript script (DeclareState.start Registry.withBuiltins)
  let second := checkBodies first.1 first.2.symbols ⟨first.2.registry, first.2.diagnostics⟩
  have hfirst : first.2.Holds first.1 script.functions := declareScript_holds script
  have htyped : first.1.BodiesTyped second.1 := bodiesTyped_of_isSuccess h
  have hdecls : first.1.functions.map DeclaredFunction.decl = script.functions :=
    hfirst.complete (clean_of_isSuccess h).1
  -- Whatever is read off signatures and labels is the same for typed and for declared functions.
  have hview {α : Type} (g : Signature × List String → α) :
      second.1.2.2.map (fun f => g (f.signature, TypedStmt.blockLabels f.body)) =
        first.1.functions.map fun f => g (f.signature, Stmt.blockLabels f.decl.body) := by
    have hmap := congrArg (List.map g) htyped.signatures
    rw [List.map_map, List.map_map] at hmap
    exact hmap
  have henv : (check script).program.env = first.1.env := by
    have hsignatures : second.1.2.2.map TypedFunction.signature =
        first.1.functions.map DeclaredFunction.signature := hview Prod.fst
    show TypingEnv.ofScript (second.1.1.map TypedData.entry) (second.1.2.1.map TypedData.entry)
      (second.1.2.2.map TypedFunction.signature) (first.1.natives.map TypedNative.signature) = _
    rw [htyped.staticEntries, htyped.globalEntries, hsignatures]
    rfl
  refine ⟨⟨?_, ?_, ?_, ?_⟩, ?_⟩
  · rw [henv]
    exact htyped.statics
  · rw [henv]
    exact htyped.globals
  · rw [henv]
    exact htyped.functions
  · have hdistinct := check_distinct h
    rw [TypedProgram.names, List.map_append] at hdistinct
    have hfunctions := (List.nodup_append.mp hdistinct).2.1
    rwa [List.map_map] at hfunctions
  · have hnames := hview fun v => (v.1.name, v.2)
    rw [← hdecls, List.map_map]
    exact hnames

end GameScript
