import GameScript.Proofs.CheckEvaluation
import GameScript.Proofs.KeptDeclarations

/-!
# Nothing of an accepted script is dropped

A script that is accepted is translated as a whole. Its program lists the functions, natives,
statics and globals of the script in the order of the source, its types are types of the program,
every initial value is there, and every body is translated statement by statement.
-/
namespace GameScript

open BodyM (Given Adds Keeps)

/-- The variable keeps its name, its type and its place. It has an initial value exactly if one is
written. -/
structure StaticDecl.KeptAs (symbols : GlobalTable) (decl : StaticDecl) (d : TypedData) : Prop where
  name : d.name = decl.name
  ty : decl.ty.Denotes symbols d.ty
  isArg : d.isArg = decl.isArg
  span : d.span = decl.span
  init : Option.Rel (fun e x => x.span = e.span) decl.init d.init

/-- The function keeps its name and its signature. Its body is translated, and its locals are the
variables that its body declares. -/
structure FunctionDecl.KeptAs (symbols : GlobalTable) (decl : FunctionDecl) (f : TypedFunction) :
    Prop where
  name : f.name = decl.name
  args : List.Forall₂ (fun p v => v.name = p.name ∧ p.ty.Denotes symbols v.ty) decl.params f.args
  result : Option.Rel (TypeRef.Denotes symbols) decl.result f.result
  body : Stmt.BlockBecomes symbols decl.body f.locals f.body
  span : f.span = decl.span

structure Script.KeptAs (script : Script) (p : TypedProgram) : Prop where
  functions : List.Forall₂ (FunctionDecl.KeptAs p.symbols) script.functions p.functions
  natives : List.Forall₂ (NativeDecl.KeptAs p.symbols) script.natives p.natives
  statics : List.Forall₂ (StaticDecl.KeptAs p.symbols) script.statics p.statics
  globals : List.Forall₂ (fun decl d => decl.asStatic.KeptAs p.symbols d) script.globalVars
    p.globals
  enums : ∀ decl ∈ script.enums, decl.KeptIn p.symbols
  structs : ∀ decl ∈ script.structs, decl.KeptIn p.symbols

/-! ## Variables -/

theorem dataInit_stands (kind : String) (symbols : GlobalTable) {d : DeclaredData} {init : Expr}
    (hinit : d.init = some init) : (dataInit kind symbols d).Yields (·.span = init.span) := by
  unfold dataInit
  rw [hinit]
  simp only []
  split
  · exact .fail _ _
  · refine (typeValue_stands (Scope.new symbols) init).bind fun x hx => ?_
    cases hcoerce : coerce x d.ty with
    | error found => exact .fail _ _
    | ok y => exact .pure ((Typing.coerce_stands hcoerce).1.trans hx)

theorem checkData_keeps (kind : String) {symbols : GlobalTable} {decl : StaticDecl}
    {d : DeclaredData} (hd : decl.DeclaredAs symbols d) :
    BodiesM.Ensures (checkData kind symbols d) (decl.KeptAs symbols) := by
  intro s
  refine ⟨List.prefix_append _ _, fun hclean => ⟨hd.name, hd.ty, hd.isArg, hd.span, ?_⟩⟩
  have hvalue : Option.Rel (fun e x => x.span = e.span) d.init
      (dataInit kind symbols d).value? := by
    cases hinit : d.init with
    | none =>
        rw [dataInit, hinit]
        exact .none
    | some init =>
        have hyields := dataInit_stands kind symbols hinit
        cases hx : (dataInit kind symbols d).value? with
        | some x => exact .some (hyields.value x hx)
        | none =>
            obtain ⟨report, hreport, herror⟩ := hyields.report hx
            have hnoerror := hclean report (List.mem_append_right _ hreport)
            rw [herror] at hnoerror
            cases hnoerror
  exact hd.init ▸ hvalue

/-! ## Functions -/

/-- What declaring arguments leaves behind when no error is reported. -/
theorem declareArgs_keeps {symbols : GlobalTable} (params : List (ParamDecl × Ty)) (s : BodyState)
    (hs : s.scope.Over symbols) :
    (declareArgs params s).2.scope.Over symbols ∧
      (declareArgs params s).2.scope.locals = s.scope.locals ∧
      s.diagnostics.items <+: (declareArgs params s).2.diagnostics.items ∧
      ((declareArgs params s).2.diagnostics.Clean →
        (declareArgs params s).2.scope.args = s.scope.args ++ params.map ParamDecl.variable) := by
  induction params generalizing s with
  | nil => exact ⟨hs, rfl, List.prefix_refl _, fun _ => (List.append_nil _).symm⟩
  | cons p params ih =>
      obtain ⟨param, ty⟩ := p
      rcases declareArgs_cases param ty params s with ⟨e, hrun⟩ | hrun
      · rw [hrun]
        obtain ⟨hscope, hlocals, hreports, -⟩ := ih { s with
          diagnostics := s.diagnostics.push (errorAt param.span (.declaration e)) } hs
        refine ⟨hscope, hlocals, (List.prefix_append _ _).trans hreports, fun hclean => ?_⟩
        cases hclean _ (hreports.subset (List.mem_append_right _ (List.mem_singleton_self _)))
      · rw [hrun]
        have hblocks := List.forall_mem_cons.mp hs.blocks
        obtain ⟨hscope, hlocals, hreports, hargs⟩ := ih { s with scope := { s.scope with
          innermost := s.scope.innermost ++ [(Identity.ofName param.name,
            ⟨param.name, ty, param.span, .arg s.scope.argSlots⟩)]
          args := s.scope.args ++ [⟨param.name, ty⟩]
          argSlots := s.scope.argSlots + UInt32.ofNat ty.slots } } ⟨hs.globals,
            List.forall_mem_cons.mpr ⟨List.forall_mem_append.mpr
              ⟨hblocks.1, List.forall_mem_singleton.mpr rfl⟩, hblocks.2⟩⟩
        refine ⟨hscope, hlocals, hreports, fun hclean => (hargs hclean).trans ?_⟩
        rw [List.append_assoc]
        rfl

theorem extend_adds {symbols : GlobalTable} (reports : List Diagnostic) :
    Adds symbols (modify fun s => { s with diagnostics := s.diagnostics.extend ⟨reports⟩ })
      (Keeps fun _ => ∀ d ∈ reports, d.isError = false) :=
  fun _ hs => ⟨hs, List.prefix_append _ _, fun hclean => ⟨[], (List.append_nil _).symm, rfl,
    fun d hd => hclean d (List.mem_append_right _ hd)⟩⟩

theorem checkStatements_adds {symbols : GlobalTable} (f : DeclaredFunction) :
    Adds symbols f.checkStatements (Stmt.BlockBecomes symbols f.decl.body) := by
  have hscan := scanLabels_body f.decl.body
  have hfinds (h : ∀ d ∈ (scanLabels f.decl.body ([], [])).2, d.isError = false) :
      BodyContext.Finds ⟨(scanLabels f.decl.body ([], [])).1, f.result⟩ := by
    have hnone : (scanLabels f.decl.body ([], [])).2 = [] := by
      rw [List.eq_nil_iff_forall_not_mem]
      intro d hd
      have hnoerror := h d hd
      rw [hscan.errors d hd] at hnoerror
      cases hnoerror
    exact fun _ _ hfind => ((hscan.table hnone).mem_of_find hfind).2
  refine (extend_adds _).bindKeeps fun _ => (checkBlock_adds f.decl.body).bind fun body => ?_
  have hdone {body : List TypedStmt} :
      ∀ before, (BodyContext.Finds ⟨(scanLabels f.decl.body ([], [])).1, f.result⟩ →
        Stmt.BlockBecomes symbols f.decl.body before body) →
      (∀ d ∈ (scanLabels f.decl.body ([], [])).2, d.isError = false) →
      Stmt.BlockBecomes symbols f.decl.body (before ++ []) body := by
    intro before hbody hreports
    rw [List.append_nil]
    exact hbody (hfinds hreports)
  split
  · exact .pure hdone
  · cases lastReturns body with
    | true => exact .pure hdone
    | false => exact BodyM.report_thenAdds _ _ (.pure trivial)

theorem keptArgs {symbols : GlobalTable} {params : List ParamDecl} {tys : List Ty}
    (h : List.Forall₂ (fun p ty => p.ty.Denotes symbols ty) params tys) :
    List.Forall₂ (fun p v => v.name = p.name ∧ p.ty.Denotes symbols v.ty) params
      ((params.zip tys).map ParamDecl.variable) := by
  induction h with
  | nil => exact .nil
  | cons hp _ ih => exact .cons ⟨rfl, hp⟩ ih

theorem checkFunction_keeps {symbols : GlobalTable} {decl : FunctionDecl} {f : DeclaredFunction}
    (hf : decl.DeclaredAs symbols f) :
    BodiesM.Ensures (checkFunction symbols f) (decl.KeptAs symbols) := by
  intro s
  obtain ⟨rfl, hsignature⟩ := hf
  let start : BodyState :=
    { scope := Scope.new symbols, registry := s.registry, diagnostics := s.diagnostics }
  have hstart : start.scope.Over symbols := by
    refine ⟨rfl, fun t ht e he => ?_⟩
    rw [List.mem_singleton.mp ht] at he
    exact absurd he List.not_mem_nil
  obtain ⟨hscope, hlocals, hreports, hargs⟩ :=
    declareArgs_keeps (f.decl.params.zip f.params) start hstart
  let ready := (declareArgs (f.decl.params.zip f.params) start).2
  obtain ⟨-, hreports', hbody⟩ := checkStatements_adds f ready hscope
  have hkeepsArgs := (checkStatements_ensures (Γ := .ofScript [] [] [] []) f ready).1.args
  refine ⟨hreports.trans hreports', fun hclean => ⟨rfl, ?_, hsignature.result, ?_, rfl⟩⟩
  · have hdeclared : ready.scope.args = (f.decl.params.zip f.params).map ParamDecl.variable :=
      hargs fun d hd => hclean d (hreports'.subset hd)
    have hfinal : (checkFunction symbols f s).1.args =
        (f.decl.params.zip f.params).map ParamDecl.variable :=
      hkeepsArgs.trans hdeclared
    rw [hfinal]
    exact keptArgs hsignature.params
  · obtain ⟨vars, hvars, hbecomes⟩ := hbody hclean
    have hnone : ready.scope.locals = [] := hlocals
    rw [hnone, List.nil_append] at hvars
    have hfinal : (checkFunction symbols f s).1.locals = vars := hvars
    rw [hfinal]
    exact hbecomes

/-! ## Scripts -/

theorem BodiesM.Ensures.forall₂ {α β γ : Type} {R : α → β → Prop} {Q : α → γ → Prop} {xs : List α}
    {ys : List β} {f : β → BodiesM γ} (h : List.Forall₂ R xs ys)
    (hf : ∀ x y, R x y → BodiesM.Ensures (f y) (Q x)) :
    BodiesM.Ensures (ys.mapM f) (List.Forall₂ Q xs) := by
  induction h with
  | nil =>
      rw [List.mapM_nil]
      exact .pure .nil
  | cons hxy _ ih =>
      rw [List.mapM_cons]
      exact (hf _ _ hxy).bind fun b => ih.bind fun bs => .pure fun hbs hb => .cons hb hbs

/-- What the second pass gives when no error is reported, for any property that checking a variable
ensures. -/
theorem checkBodies_ensuresData {script : Script} {declared : Declared} {symbols : GlobalTable}
    {Q : StaticDecl → TypedData → Prop} (h : declared.Complete symbols script)
    (hdata : ∀ kind decl d, StaticDecl.DeclaredAs symbols decl d →
      BodiesM.Ensures (checkData kind symbols d) (Q decl)) :
    BodiesM.Ensures (checkBodies declared symbols) fun p =>
      List.Forall₂ Q script.statics p.1 ∧
      List.Forall₂ (fun decl d => Q decl.asStatic d) script.globalVars p.2.1 ∧
      List.Forall₂ (FunctionDecl.KeptAs symbols) script.functions p.2.2 := by
  have hstatics := BodiesM.Ensures.forall₂ h.statics fun decl d hd => hdata "static" decl d hd
  have hglobals := BodiesM.Ensures.forall₂ h.globals fun decl d hd => hdata "global" decl.asStatic d
    hd
  have hfunctions := BodiesM.Ensures.forall₂ h.functions fun decl f hf => checkFunction_keeps hf
  exact hstatics.bind fun statics => hglobals.bind fun globals => hfunctions.bind fun functions =>
    .pure fun hf hg hs => ⟨hs, hg, hf⟩

theorem checkBodies_keeps {script : Script} {declared : Declared} {symbols : GlobalTable}
    (h : declared.Complete symbols script) :
    BodiesM.Ensures (checkBodies declared symbols) fun p =>
      List.Forall₂ (StaticDecl.KeptAs symbols) script.statics p.1 ∧
      List.Forall₂ (fun decl d => decl.asStatic.KeptAs symbols d) script.globalVars p.2.1 ∧
      List.Forall₂ (FunctionDecl.KeptAs symbols) script.functions p.2.2 :=
  checkBodies_ensuresData h fun kind _ _ hd => checkData_keeps kind hd

/-- Nothing of a script without errors is dropped. -/
theorem check_keepsScript {script : Script} (h : (check script).isSuccess = true) :
    script.KeptAs (check script).program := by
  let first := declareScript script (DeclareState.start Registry.withBuiltins)
  obtain ⟨hdeclared, hclean⟩ := clean_of_isSuccess h
  have hcomplete : first.1.Complete first.2.symbols script :=
    (declareScript_ensures script _).2 ⟨List.prefix_refl _, hdeclared⟩
  obtain ⟨hstatics, hglobals, hfunctions⟩ :=
    (checkBodies_keeps hcomplete ⟨first.2.registry, first.2.diagnostics⟩).2 hclean
  rw [check_eq]
  exact ⟨hfunctions, hcomplete.natives, hstatics, hglobals, hcomplete.enums, hcomplete.structs⟩

/-- A script with every kind of declaration, and with variables that do and do not need a
statement. -/
def inventory : Script :=
  let count : Expr := .name {} "count"
  let number (v : Int32) : Expr := .literal {} (.int v)
  [.struct {
      name := "SLOT"
      fields := [{ name := "what", ty := { name := "ITEM" } },
        { name := "count", ty := { name := "INT" }, init := some (.int 1) }] },
    .enum { name := "ITEM", members := [{ name := "KEY" }, { name := "MAP", value := some 4 }] },
    .static { name := "held", ty := { name := "SLOT", lengths := [2] } },
    .static { name := "limit", ty := { name := "INT" }, init := some (number 3) },
    .globals { name := "SHARED", vars := [{ name := "seen", ty := { name := "BOOL" } }] },
    .native { name := "WAIT", params := [{ name := "time", ty := { name := "INT" } }] },
    .function {
      name := "main"
      params := []
      body := [
        .var {} "fresh" { name := "SLOT" } none,
        .var {} "plain" { name := "ITEM" } none,
        .var {} "count" { name := "AUTO" } (some (.name {} "limit")),
        .cond {} (.binary {} .gt count (number 0)) [.block {} [.label {} "again"]]
          [.assign {} (.field {} (.name {} "fresh") "count") count],
        .switch {} count [⟨number 7, [.call {} (.call {} (.name {} "WAIT") [count])], {}⟩]
          (some [.goto {} "AGAIN"])] }]

theorem check_keepsScript_inventory :
    (check inventory).isSuccess = true ∧ inventory.KeptAs (check inventory).program := by
  have hsuccess : (check inventory).isSuccess = true := by
    rw [check_eq_checkFrom]
    decide +kernel
  exact ⟨hsuccess, check_keepsScript hsuccess⟩

end GameScript
