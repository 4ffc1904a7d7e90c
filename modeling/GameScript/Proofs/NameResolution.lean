import GameScript.Proofs.NameLookups
import GameScript.Proofs.NothingDropped

/-!
# Names resolve to what has their identity

In a script that is accepted every name of a value, function, type or label stands for something
that is declared where the name can be seen. What is found has the identity of the name that is
written, since tables are searched by identity and each symbol stands under its own.

It need not have the same spelling. Two names that share an identity cannot both be declared in one
table, but a name that is only used is never compared with the one that is found: a name that
nothing declares is accepted if it shares its identity with one that is visible. That is the only
exception. If the names that an item uses share no identity with a name that is spelled otherwise,
each stands for a declaration of its own spelling.
-/
namespace GameScript

open BodyM (Moves)

/-! ## Names of a script -/

def SpelledAs (written declared : String) : Prop := foldName declared = foldName written

instance (written declared : String) : Decidable (SpelledAs written declared) :=
  inferInstanceAs (Decidable (foldName declared = foldName written))

def SharesIdentity (written declared : String) : Prop :=
  Identity.ofName declared = Identity.ofName written

def builtinNames : List String := Registry.withBuiltins.entries.map fun e => e.2.name

def Item.names : Item → List String
  | .struct decl => [decl.name]
  | .enum decl => decl.name :: decl.members.map MemberDecl.name
  | .static decl => [decl.name]
  | .globals block => block.vars.map GlobalDecl.name
  | .function decl => [decl.name]
  | .native decl => [decl.name]

def Script.names (script : Script) : List String := builtinNames ++ script.flatMap Item.names

/-- The names that only the item itself can see: parameters, locals and labels of a function. -/
def Item.inner : Item → List String
  | .function decl =>
    decl.params.map ParamDecl.name ++ (Stmt.blockLocals decl.body ++ Stmt.blockLabels decl.body)
  | _ => []

def signatureUses (params : List ParamDecl) (result : Option TypeRef) : List String :=
  (params.map fun p => p.ty.name) ++ result.toList.map TypeRef.name

def StaticDecl.uses (decl : StaticDecl) : List String := decl.ty.name :: Expr.optionNames decl.init

def Item.uses : Item → List String
  | .struct decl => decl.fields.map fun f => f.ty.name
  | .enum _ => []
  | .static decl => decl.uses
  | .globals block => block.vars.flatMap fun v => v.asStatic.uses
  | .native decl => signatureUses decl.params decl.result
  | .function decl => signatureUses decl.params decl.result ++ Stmt.blockUses decl.body

/-- No name that an item uses shares its identity with a name that it can see and that is spelled
otherwise. -/
def Script.CollisionFree (script : Script) : Prop :=
  ∀ item ∈ script, Settles SpelledAs (script.names ++ item.inner) item.uses

instance (script : Script) : Decidable script.CollisionFree :=
  inferInstanceAs (Decidable (∀ item ∈ script, ∀ w ∈ item.uses, ∀ d ∈ script.names ++ item.inner,
    Identity.ofName d = Identity.ofName w → SpelledAs w d))

section
variable (R : String → String → Prop)

structure SignatureResolves (scope : Scope) (params : List ParamDecl) (result : Option TypeRef) :
    Prop where
  params : ∀ p ∈ params, p.ty.Resolves R scope
  result : ∀ ref ∈ result, ref.Resolves R scope

structure StaticDecl.Resolves (scope : Scope) (decl : StaticDecl) : Prop where
  ty : decl.ty.Resolves R scope
  init : ∀ e ∈ decl.init, e.Resolves R scope

/-- The names of a function are found: those of its signature at top level, those of its body after
its parameters are declared. -/
structure FunctionDecl.Resolves (symbols : GlobalTable) (decl : FunctionDecl) : Prop where
  signature : SignatureResolves R (Scope.new symbols) decl.params decl.result
  body : ∃ scope scope', (Scope.new symbols).Params decl.params scope ∧
    Stmt.BlockResolves R (scanLabels decl.body ([], [])).1 decl.body scope scope'

def Item.Resolves (symbols : GlobalTable) : Item → Prop
  | .struct decl => ∀ f ∈ decl.fields, f.ty.Resolves R (Scope.new symbols)
  | .enum _ => True
  | .static decl => decl.Resolves R (Scope.new symbols)
  | .globals block => ∀ v ∈ block.vars, v.asStatic.Resolves R (Scope.new symbols)
  | .native decl => SignatureResolves R (Scope.new symbols) decl.params decl.result
  | .function decl => decl.Resolves R symbols

/-- All names of a script are found, and each is related to the name of what it stands for. -/
def Script.Resolves (symbols : GlobalTable) (script : Script) : Prop :=
  ∀ item ∈ script, item.Resolves R symbols

end

/-! ## The table of a script -/

namespace DeclareM

/-- The step adds only symbols with these names, each under its identity. -/
def Names {α : Type} (names : List String) (x : DeclareM α) : Prop :=
  Triple (·.symbols.symbols.Keyed names) x fun _ s => s.symbols.symbols.Keyed names

section
variable {names : List String} {α β : Type}

theorem Names.pure {a : α} : Names names (Pure.pure a) := fun _ hs => hs

theorem Names.bind {x : DeclareM α} {f : α → DeclareM β} (hx : Names names x)
    (hf : ∀ a, Names names (f a)) : Names names (x >>= f) :=
  Triple.bind hx hf

theorem Names.mapM {xs : List β} {f : β → DeclareM α} (h : ∀ b ∈ xs, Names names (f b)) :
    Names names (xs.mapM f) :=
  (Triple.mapM (R := fun _ => True) fun b hb s hs => ⟨h b hb s hs, trivial⟩).imp fun _ _ h => h.1

theorem report_names (span : Span) (cause : Cause) : Names names (report span cause) :=
  fun _ hs => hs

theorem add_names {symbol : Symbol} (h : symbol.name ∈ names) : Names names (add symbol) :=
  add_triple (fun _ hs _ => hs.append h) fun _ _ hs _ => hs

/-- What follows may depend on whether the symbol was added. -/
theorem add_thenNames {symbol : Symbol} (h : symbol.name ∈ names) {x y : DeclareM β}
    (hx : Names names x) (hy : Names names y) :
    Names names (add symbol >>= fun added => if added = true then x else y) := by
  refine (add_names h).bind fun added => ?_
  cases added with
  | true => exact hx
  | false => exact hy

theorem register_names (ty : Ty) (span : Span) : Names names (register ty span) := by
  intro s hs
  rw [register_run]
  cases s.registry.register ty with
  | ok p => exact hs
  | error e => exact hs

theorem resolve_names (ref : TypeRef) : Names names (resolve ref) := fun _ hs => hs

theorem resolveOrReport_names (ref : TypeRef) : Names names (resolveOrReport ref) := by
  refine (resolve_names ref).bind fun found => ?_
  cases found with
  | ok ty => exact .pure
  | error cause => exact (report_names _ _).bind fun _ => .pure

end

end DeclareM

open DeclareM

section
variable {names : List String}

theorem memberValues_names (members : List MemberDecl) (next : Int32) :
    (memberValues next members).map Prod.fst = members.map MemberDecl.name := by
  induction members generalizing next with
  | nil => rfl
  | cons m rest ih => rw [memberValues, List.map_cons, List.map_cons, ih]

theorem declareEnum_names {decl : EnumDecl} (h : (Item.enum decl).names ⊆ names) :
    Names names (declareEnum decl) := by
  obtain ⟨hname, hmembers⟩ := List.cons_subset.mp h
  refine (register_names _ _).bind fun o => ?_
  cases o with
  | none => exact .pure
  | some ty =>
      refine Names.bind (add_names hname) fun _ => Triple.forM fun m hm => ?_
      refine Names.bind (add_names (hmembers ?_)) fun _ => .pure
      rw [← memberValues_names decl.members 0]
      exact List.mem_map_of_mem (List.of_mem_zip hm).2

theorem structFields_names (seen : List String) (known : List (FieldDecl × Ty)) :
    Names names (structFields seen known) := by
  induction known generalizing seen with
  | nil => exact .pure
  | cons p known ih =>
      obtain ⟨decl, ty⟩ := p
      have hrest (init : Option Literal) : Names names
          (structFields (seen ++ [decl.name]) known >>=
              fun more => pure (⟨decl.name, ty, init⟩ :: more)) :=
        (ih _).bind fun _ => .pure
      rw [structFields]
      split
      · exact (report_names _ _).bind fun _ => ih seen
      · cases decl.init with
        | none => exact hrest none
        | some value =>
            simp only []
            split
            · exact hrest (some value)
            · exact (report_names _ _).bind fun _ => hrest none

theorem attemptStruct_names (decl : StructDecl) : Names names (attemptStruct decl) := by
  refine (Names.mapM fun f _ => resolve_names f.ty).bind fun found => ?_
  simp only []
  split
  · exact .pure
  · split
    · exact (structFields_names [] _).bind fun _ => .pure
    · exact Names.bind (Triple.forM fun p _ => report_names p.1 p.2) fun _ => .pure

theorem registerStruct_names {decl : StructDecl} (h : decl.name ∈ names) (fields : List Field) :
    Names names (registerStruct decl fields) := by
  refine (register_names _ _).bind fun o => ?_
  cases o with
  | none => exact .pure
  | some ty => exact Names.bind (add_names h) fun _ => .pure

/-- Structs that wait for the next round have the names that they had. -/
theorem structRound_names {queue : List StructDecl} (h : ∀ decl ∈ queue, decl.name ∈ names) :
    Triple (·.symbols.symbols.Keyed names) (structRound queue) fun pending s =>
      s.symbols.symbols.Keyed names ∧ ∀ decl ∈ pending, decl.name ∈ names := by
  induction queue with
  | nil => exact .pure fun _ hs => ⟨hs, fun _ hdecl => absurd hdecl List.not_mem_nil⟩
  | cons decl rest ih =>
      rw [List.forall_mem_cons] at h
      refine Triple.bind (attemptStruct_names decl) fun attempt => ?_
      cases attempt with
      | ready fields => exact Triple.bind (registerStruct_names h.1 fields) fun _ => ih h.2
      | pending =>
          exact (ih h.2).bind fun _ => .pure fun _ hs =>
            ⟨hs.1, List.forall_mem_cons.mpr ⟨h.1, hs.2⟩⟩
      | failed => exact ih h.2

theorem declareStructs_names (queue : List StructDecl) (h : ∀ decl ∈ queue, decl.name ∈ names) :
    Names names (declareStructs queue) := by
  induction queue using declareStructs.induct with
  | case1 queue hempty =>
      rw [declareStructs, if_pos hempty]
      exact .pure
  | case2 queue hempty ih =>
      rw [declareStructs, if_neg hempty]
      refine Triple.bind (structRound_names h) fun pending => Triple.given (fun _ hs => hs)
        fun hpending => ?_
      split
      · next hprogress => exact ih pending hprogress hpending
      · exact report_names _ _

theorem declareStatic_names {decl : StaticDecl} (h : decl.name ∈ names) :
    Names names (declareStatic decl) := by
  refine (resolveOrReport_names decl.ty).bind fun o => ?_
  cases o with
  | none => exact .pure
  | some ty => exact add_thenNames h .pure .pure

theorem declareGlobal_names {decl : GlobalDecl} (h : decl.name ∈ names) :
    Names names (declareGlobal decl) := by
  refine (resolveOrReport_names decl.ty).bind fun o => ?_
  cases o with
  | none => exact .pure
  | some ty => exact add_thenNames h .pure .pure

theorem declareGlobals_names {decls : List GlobalDecl} (h : decls.map GlobalDecl.name ⊆ names) :
    Names names (declareGlobals decls) := by
  induction decls with
  | nil => exact .pure
  | cons decl rest ih =>
      rw [List.map_cons, List.cons_subset] at h
      exact (declareGlobal_names h.1).bind fun _ => (ih h.2).bind fun _ => .pure

theorem declareCallable_names {name : String} (h : name ∈ names) (params : List ParamDecl)
    (result : Option TypeRef) (span : Span) (linkage : Linkage) :
    Names names (declareCallable name params result span linkage) := by
  have hsignature : Names names (resolveSignature params result) := by
    refine (Names.mapM fun p _ => resolveOrReport_names p.ty).bind fun found => ?_
    cases result with
    | none => exact .pure
    | some ref => exact (resolveOrReport_names ref).bind fun _ => .pure
  refine hsignature.bind fun o => ?_
  cases o with
  | none => exact .pure
  | some signature =>
      refine (register_names _ span).bind fun o => ?_
      cases o with
      | none => exact .pure
      | some ty => exact add_thenNames h .pure .pure

theorem declareItem_names (block : Option GlobalBlockDecl) (declared : Declared) {item : Item}
    (h : item.names ⊆ names) : Names names (declareItem block declared item) := by
  cases item with
  | enum decl => exact .pure
  | struct decl => exact .pure
  | static decl => exact (declareStatic_names (List.cons_subset.mp h).1).bind fun _ => .pure
  | globals new =>
      cases block with
      | some existing => exact (report_names _ _).bind fun _ => .pure
      | none => exact (declareGlobals_names h).bind fun _ => .pure
  | native decl =>
      refine (declareCallable_names (List.cons_subset.mp h).1 _ _ _ _).bind fun o => ?_
      cases o with
      | none => exact .pure
      | some signature => exact .pure
  | function decl =>
      refine (declareCallable_names (List.cons_subset.mp h).1 _ _ _ _).bind fun o => ?_
      cases o with
      | none => exact .pure
      | some signature => exact .pure

theorem declareItems_names {items : List Item} (h : ∀ item ∈ items, item.names ⊆ names)
    (block : Option GlobalBlockDecl) (declared : Declared) :
    Names names (declareItems block declared items) := by
  induction items generalizing block declared with
  | nil => exact .pure
  | cons item rest ih =>
      rw [List.forall_mem_cons] at h
      exact (declareItem_names block declared h.1).bind fun r => ih h.2 r.1 r.2

end

theorem Item.names_subset {script : Script} {item : Item} (h : item ∈ script) :
    item.names ⊆ script.names :=
  fun _ hname => List.mem_append_right _ (List.mem_flatMap.mpr ⟨item, h, hname⟩)

theorem Script.mem_of_mem_enums {script : Script} {decl : EnumDecl} (h : decl ∈ script.enums) :
    Item.enum decl ∈ script := by
  obtain ⟨item, hitem, heq⟩ := List.mem_filterMap.mp h
  split at heq
  · exact Option.some.inj heq ▸ hitem
  · cases heq

theorem Script.mem_of_mem_structs {script : Script} {decl : StructDecl}
    (h : decl ∈ script.structs) :
    Item.struct decl ∈ script := by
  obtain ⟨item, hitem, heq⟩ := List.mem_filterMap.mp h
  split at heq
  · exact Option.some.inj heq ▸ hitem
  · cases heq

theorem declareScript_names (script : Script) : Names script.names (declareScript script) := by
  refine Names.bind (Triple.forM fun decl hdecl =>
    declareEnum_names (Item.names_subset (Script.mem_of_mem_enums hdecl))) fun _ => ?_
  refine (declareStructs_names script.structs fun decl hdecl => ?_).bind fun _ => ?_
  · exact Item.names_subset (Script.mem_of_mem_structs hdecl) List.mem_cons_self
  · exact declareItems_names (fun item hitem => Item.names_subset hitem) none {}

theorem Registry.seed_keys {r : Registry} (h : ∀ e ∈ r.entries, e.1 = e.2.identity)
    (tys : List Ty) :
    ∀ e ∈ (tys.foldl seed r).entries, e.1 = e.2.identity := by
  induction tys generalizing r with
  | nil => exact h
  | cons ty tys ih => exact ih (List.forall_mem_append.mpr ⟨h, List.forall_mem_singleton.mpr rfl⟩)

theorem builtinTable_keyed : builtinTable.symbols.Keyed builtinNames := by
  have hkeys : ∀ e ∈ Registry.withBuiltins.entries, e.1 = e.2.identity :=
    Registry.seed_keys (r := {}) (fun _ he => absurd he List.not_mem_nil) (.auto :: Ty.builtins)
  intro e he
  simp only [builtinTable, List.mem_map] at he
  obtain ⟨entry, hsorted, rfl⟩ := he
  have hentry := List.mem_of_mem_filter ((List.mem_insertionSort Registry.entryLE).mp hsorted)
  exact ⟨hkeys entry hentry, List.mem_map_of_mem hentry⟩

/-- Every symbol of a script's table has a name of the script, and stands under its identity. -/
theorem check_keyed (script : Script) :
    (check script).program.symbols.symbols.Keyed script.names := by
  rw [check_eq]
  apply declareScript_names
  show (GlobalTable.ofRegistry Registry.withBuiltins).symbols.Keyed script.names
  rw [ofRegistry_withBuiltins]
  intro e he
  obtain ⟨hkey, hname⟩ := builtinTable_keyed e he
  exact ⟨hkey, List.mem_append_left _ hname⟩

/-! ## Items -/

theorem TypeRef.Denotes.resolves {symbols : GlobalTable} {ref : TypeRef} {ty : Ty}
    (h : ref.Denotes symbols ty) : ref.Resolves AnySpelling (Scope.new symbols) := by
  obtain ⟨base, hfind, -⟩ := h
  unfold GlobalTable.findType? at hfind
  split at hfind
  · next s hs =>
      split at hfind
      · next htype => exact ⟨s, hs, htype, trivial⟩
      · cases hfind
  · cases hfind

theorem KeepsSignature.resolves {symbols : GlobalTable} {params : List ParamDecl}
    {result : Option TypeRef} {signature : List Ty × Option Ty}
    (h : KeepsSignature symbols params result signature) :
    SignatureResolves AnySpelling (Scope.new symbols) params result := by
  refine ⟨fun p hp => ?_, fun ref href => ?_⟩
  · obtain ⟨ty, -, hty⟩ := exists_of_mem_left_forall₂ h.params hp
    exact TypeRef.Denotes.resolves hty
  · have hresult := h.result
    obtain rfl := Option.mem_def.mp href
    generalize signature.2 = found at hresult
    cases hresult with
    | some hty => exact TypeRef.Denotes.resolves hty

/-- Names in the initial value of a variable are looked up. -/
theorem checkData_resolves (kind : String) (symbols : GlobalTable) (d : DeclaredData) :
    BodiesM.Ensures (checkData kind symbols d) fun _ =>
      ∀ e ∈ d.init, e.Resolves AnySpelling (Scope.new symbols) := by
  intro s
  refine ⟨List.prefix_append _ _, fun hclean e he => ?_⟩
  have hyields : (dataInit kind symbols d).Yields fun _ =>
      e.Resolves AnySpelling (Scope.new symbols) := by
    unfold dataInit
    rw [Option.mem_def.mp he]
    simp only []
    split
    · exact .fail _ _
    · refine (typeValue_resolves (Scope.new symbols) e).bind fun x hx => ?_
      split
      · exact .pure hx
      · exact .fail _ _
  obtain ⟨-, -, hresolves⟩ := hyields.of_clean fun report hreport =>
    hclean report (List.mem_append_right _ hreport)
  exact hresolves

theorem declareArgs_moves {params : List ParamDecl} {tys : List Ty}
    (h : params.length = tys.length) :
    Moves (declareArgs (params.zip tys)) fun scope _ scope' => scope.Params params scope' := by
  induction params generalizing tys with
  | nil => exact .pure fun _ => .nil
  | cons p params ih =>
      cases tys with
      | nil => cases h
      | cons ty tys =>
          have hrest := ih (Nat.succ.inj h)
          intro s
          rw [List.zip_cons_cons]
          cases hdeclare : s.scope.declareArg p.name ty p.span with
          | ok q =>
              have hrun : declareArgs ((p, ty) :: params.zip tys) s =
                  declareArgs (params.zip tys) { s with scope := q.2 } := by
                simp only [declareArgs, bind, StateT.bind, get, getThe, MonadStateOf.get,
                  StateT.get, pure, hdeclare]
                rfl
              rw [hrun]
              obtain ⟨hreports, hthen⟩ := hrest { s with scope := q.2 }
              exact ⟨hreports, fun hclean => .cons hdeclare (hthen hclean)⟩
          | error e =>
              have hrun : declareArgs ((p, ty) :: params.zip tys) s =
                  (BodyM.report p.span (.declaration e) >>= fun _ =>
                    declareArgs (params.zip tys)) s := by
                simp only [declareArgs, bind, StateT.bind, get, getThe, MonadStateOf.get,
                  StateT.get, pure, hdeclare]
              have hreport : Moves
                  (BodyM.report p.span (.declaration e) >>= fun _ => declareArgs (params.zip tys))
                  fun scope _ scope' => scope.Params (p :: params) scope' :=
                BodyM.report_thenMoves _ _ (hrest.imp fun _ _ _ _ => trivial)
              rw [hrun]
              exact hreport s

theorem checkStatements_moves (f : DeclaredFunction) :
    Moves f.checkStatements fun scope _ scope' =>
      (scanLabels f.decl.body ([], [])).1.Lists (Stmt.blockLabels f.decl.body) ∧
      Stmt.BlockResolves AnySpelling (scanLabels f.decl.body ([], [])).1 f.decl.body
        scope scope' := by
  have hscan := scanLabels_body f.decl.body
  have hlabels : Moves
      (modify fun s =>
        { s with diagnostics := s.diagnostics.extend ⟨(scanLabels f.decl.body ([], [])).2⟩ })
      (BodyM.Stays fun _ _ =>
        (scanLabels f.decl.body ([], [])).1.Lists (Stmt.blockLabels f.decl.body)) := by
    refine fun s => ⟨List.prefix_append _ _, fun hclean => ⟨rfl, hscan.table ?_⟩⟩
    rw [List.eq_nil_iff_forall_not_mem]
    intro d hd
    have hnoerror := hclean d (List.mem_append_right _ hd)
    rw [hscan.errors d hd] at hnoerror
    cases hnoerror
  refine hlabels.bindStays fun _ => (checkBlock_moves f.decl.body).bind fun body => ?_
  split
  · exact .pure fun _ _ hbody hlists => ⟨hlists, hbody⟩
  · cases lastReturns body with
    | true => exact .pure fun _ _ hbody hlists => ⟨hlists, hbody⟩
    | false => exact BodyM.report_thenMoves _ _ (.pure fun _ => trivial)

/-- What checking the body of a function shows about its names. -/
structure FunctionDecl.BodyResolves (symbols : GlobalTable) (decl : FunctionDecl) : Prop where
  labels : (scanLabels decl.body ([], [])).1.Lists (Stmt.blockLabels decl.body)
  body : ∃ scope scope', (Scope.new symbols).Params decl.params scope ∧
    Stmt.BlockResolves AnySpelling (scanLabels decl.body ([], [])).1 decl.body scope scope'

theorem checkFunction_resolves {symbols : GlobalTable} {f : DeclaredFunction}
    (harity : f.decl.params.length = f.params.length) :
    BodiesM.Ensures (checkFunction symbols f) fun _ => f.decl.BodyResolves symbols := by
  intro s
  let start : BodyState :=
    { scope := Scope.new symbols, registry := s.registry, diagnostics := s.diagnostics }
  have hbody : Moves (checkFunctionBody f) fun before _ _ =>
      (scanLabels f.decl.body ([], [])).1.Lists (Stmt.blockLabels f.decl.body) ∧
      ∃ scope scope', before.Params f.decl.params scope ∧
        Stmt.BlockResolves AnySpelling (scanLabels f.decl.body ([], [])).1 f.decl.body
          scope scope' := by
    rw [checkFunctionBody_eq]
    refine (declareArgs_moves harity).bind fun _ => (checkStatements_moves f).imp ?_
    intro scope _ scope' hstatements before hparams
    exact ⟨hstatements.1, scope, scope', hparams, hstatements.2⟩
  obtain ⟨hreports, hthen⟩ := hbody start
  exact ⟨hreports, fun hclean => ⟨(hthen hclean).1, (hthen hclean).2⟩⟩

/-- What the second pass shows about the names of a script. -/
structure Script.LooksUp (symbols : GlobalTable) (script : Script) : Prop where
  statics : ∀ decl ∈ script.statics, decl.Resolves AnySpelling (Scope.new symbols)
  globals : ∀ decl ∈ script.globalVars, decl.asStatic.Resolves AnySpelling (Scope.new symbols)
  functions : ∀ decl ∈ script.functions, decl.BodyResolves symbols

theorem StaticDecl.DeclaredAs.resolves (kind : String) {symbols : GlobalTable} {decl : StaticDecl}
    {d : DeclaredData} (h : decl.DeclaredAs symbols d) :
    BodiesM.Ensures (checkData kind symbols d) fun _ =>
      decl.Resolves AnySpelling (Scope.new symbols) := by
  intro s
  obtain ⟨hreports, hinit⟩ := checkData_resolves kind symbols d s
  exact ⟨hreports, fun hclean => ⟨TypeRef.Denotes.resolves h.ty, h.init ▸ hinit hclean⟩⟩

theorem forall_of_forall₂ {α β : Type} {P : α → Prop} {xs : List α} {ys : List β}
    (h : List.Forall₂ (fun a _ => P a) xs ys) : ∀ a ∈ xs, P a := by
  intro a ha
  obtain ⟨-, -, hP⟩ := exists_of_mem_left_forall₂ h ha
  exact hP

theorem checkBodies_looksUp {script : Script} {declared : Declared} {symbols : GlobalTable}
    (h : declared.Complete symbols script) :
    BodiesM.Ensures (checkBodies declared symbols) fun _ => script.LooksUp symbols := by
  have hstatics := BodiesM.Ensures.forall₂ h.statics fun _ _ hd => hd.resolves "static"
  have hglobals := BodiesM.Ensures.forall₂ h.globals fun _ _ hd => hd.resolves "global"
  have hfunctions :=
    BodiesM.Ensures.forall₂ (Q := fun decl _ => decl.BodyResolves symbols) h.functions <| by
    rintro decl f ⟨rfl, hsignature⟩
    exact checkFunction_resolves hsignature.params.length_eq
  exact hstatics.bind fun _ => hglobals.bind fun _ => hfunctions.bind fun _ => .pure fun hf hg hs =>
    ⟨forall_of_forall₂ hs, forall_of_forall₂ hg, forall_of_forall₂ hf⟩

/-! ## Scripts -/

section
variable {R : String → String → Prop} {names : List String} {scope : Scope}

theorem TypeRef.Resolves.settleMem {ref : TypeRef} (h : ref.Resolves AnySpelling scope)
    (hkeyed : scope.Keyed names) {uses : List String} (hmem : ref.name ∈ uses)
    (hR : Settles R names uses) : ref.Resolves R scope :=
  h.settle hkeyed (hR ref.name hmem)

theorem StaticDecl.Resolves.settle {decl : StaticDecl} (h : decl.Resolves AnySpelling scope)
    (hkeyed : scope.Keyed names) (hR : Settles R names decl.uses) : decl.Resolves R scope := by
  obtain ⟨hty, hinit⟩ := settles_cons.mp hR
  exact ⟨h.ty.settle hkeyed hty, Expr.Resolves.settleOption h.init hkeyed hinit⟩

theorem SignatureResolves.settle {params : List ParamDecl} {result : Option TypeRef}
    (h : SignatureResolves AnySpelling scope params result) (hkeyed : scope.Keyed names)
    (hR : Settles R names (signatureUses params result)) :
    SignatureResolves R scope params result := by
  obtain ⟨hparams, hresult⟩ := settles_append.mp hR
  refine ⟨fun p hp => ?_, fun ref href => ?_⟩
  · exact (h.params p hp).settleMem hkeyed (List.mem_map.mpr ⟨p, hp, rfl⟩) hparams
  · exact (h.result ref href).settleMem hkeyed
      (List.mem_map_of_mem (Option.mem_toList.mpr href)) hresult

theorem FunctionDecl.BodyResolves.settle {symbols : GlobalTable} {decl : FunctionDecl}
    (h : decl.BodyResolves symbols) (hkeyed : (Scope.new symbols).Keyed names)
    (hinner : (Item.function decl).inner ⊆ names)
    (hR : Settles R names (Stmt.blockUses decl.body)) :
    ∃ scope scope', (Scope.new symbols).Params decl.params scope ∧
      Stmt.BlockResolves R (scanLabels decl.body ([], [])).1 decl.body scope scope' := by
  obtain ⟨hparams, hinner⟩ := List.append_subset.mp hinner
  obtain ⟨hlocals, hlabels⟩ := List.append_subset.mp hinner
  obtain ⟨scope, scope', hdeclare, hbody⟩ := h.body
  have htable : (scanLabels decl.body ([], [])).1.Keyed names := by
    intro name l hfind
    obtain ⟨hmem, hid⟩ := h.labels.mem_of_find hfind
    exact ⟨hlabels hmem, hid⟩
  have hscope := hkeyed.params hdeclare hparams
  have hsettled := Stmt.BlockResolves.settle htable decl.body hbody hscope hlocals hR
  exact ⟨scope, scope', hdeclare, hsettled.1⟩

end

/-- Names of an accepted script are related to what they stand for as soon as equal identities make
them so. -/
theorem resolves_of_isSuccess {R : String → String → Prop} {script : Script}
    (h : (check script).isSuccess = true)
    (hR : ∀ item ∈ script, Settles R (script.names ++ item.inner) item.uses) :
    script.Resolves R (check script).program.symbols := by
  let first := declareScript script (DeclareState.start Registry.withBuiltins)
  let symbols := first.2.symbols
  obtain ⟨hdeclared, hclean⟩ := clean_of_isSuccess h
  have hcomplete : first.1.Complete symbols script :=
    (declareScript_ensures script _).2 ⟨List.prefix_refl _, hdeclared⟩
  have hlooks : script.LooksUp symbols :=
    (checkBodies_looksUp hcomplete ⟨first.2.registry, first.2.diagnostics⟩).2 hclean
  have hsymbols := check_keyed script
  rw [check_eq] at hsymbols ⊢
  show ∀ item ∈ script, item.Resolves R symbols
  intro item hitem
  have hsettles := hR item hitem
  have hkeyed : (Scope.new symbols).Keyed (script.names ++ item.inner) :=
    .new fun e he => ⟨(hsymbols e he).1, List.mem_append_left _ (hsymbols e he).2⟩
  cases item with
  | struct decl =>
      intro f hf
      have hdecl : decl ∈ script.structs := List.mem_filterMap.mpr ⟨_, hitem, rfl⟩
      obtain ⟨_, fields, -, -, hfields⟩ := hcomplete.structs decl hdecl
      obtain ⟨_, -, hkept⟩ := exists_of_mem_left_forall₂ hfields hf
      exact (TypeRef.Denotes.resolves hkept.ty).settleMem hkeyed (List.mem_map.mpr ⟨f, hf, rfl⟩)
        hsettles
  | enum decl => trivial
  | static decl =>
      have hdecl : decl ∈ script.statics := List.mem_filterMap.mpr ⟨_, hitem, rfl⟩
      exact (hlooks.statics decl hdecl).settle hkeyed hsettles
  | globals block =>
      intro v hv
      have hdecl : v ∈ script.globalVars := List.mem_flatMap.mpr ⟨_, hitem, hv⟩
      refine (hlooks.globals v hdecl).settle hkeyed fun w hw => ?_
      exact hsettles w (List.mem_flatMap.mpr ⟨v, hv, hw⟩)
  | native decl =>
      have hdecl : decl ∈ script.natives := List.mem_filterMap.mpr ⟨_, hitem, rfl⟩
      obtain ⟨_, -, hkept⟩ := exists_of_mem_left_forall₂ hcomplete.natives hdecl
      exact hkept.signature.resolves.settle hkeyed hsettles
  | function decl =>
      obtain ⟨hsignature, hbody⟩ := settles_append.mp hsettles
      have hdecl : decl ∈ script.functions := List.mem_filterMap.mpr ⟨_, hitem, rfl⟩
      obtain ⟨_, -, hkept⟩ := exists_of_mem_left_forall₂ hcomplete.functions hdecl
      exact ⟨hkept.signature.resolves.settle hkeyed hsignature,
        (hlooks.functions decl hdecl).settle hkeyed (List.subset_append_right _ _) hbody⟩

/-- In an accepted script every name stands for something visible with its identity. If no name that
is used collides with a name that is spelled otherwise, it stands for something that is spelled like
it. -/
theorem check_resolves {script : Script} (h : (check script).isSuccess = true) :
    script.Resolves SharesIdentity (check script).program.symbols ∧
    (script.CollisionFree → script.Resolves SpelledAs (check script).program.symbols) :=
  ⟨resolves_of_isSuccess h fun _ _ _ _ _ _ hid => hid, fun hfree => resolves_of_isSuccess h hfree⟩

/-- A script that sets its only variable, under a name that may be the variable's own or not. -/
def assignTo (name : String) : Script :=
  [.static { name := "v55020", ty := { name := "INT" } },
    .function {
      name := "main"
      params := []
      body := [.assign {} (.name {} name) (.literal {} (.int 1))] }]

/-- `v59344` is accepted for `v55020`, which shares its identity but not its spelling. -/
theorem check_resolves_assignTo :
    ((check (assignTo "V55020")).isSuccess = true ∧ (assignTo "V55020").CollisionFree ∧
      (assignTo "V55020").Resolves SpelledAs (check (assignTo "V55020")).program.symbols) ∧
    (check (assignTo "v59344")).isSuccess = true ∧
      (assignTo "v59344").Resolves SharesIdentity (check (assignTo "v59344")).program.symbols ∧
      ¬ (assignTo "v59344").Resolves SpelledAs (check (assignTo "v59344")).program.symbols := by
  have hown : (check (assignTo "V55020")).isSuccess = true := by
    rw [check_eq_checkFrom]
    decide +kernel
  have hother : (check (assignTo "v59344")).isSuccess = true := by
    rw [check_eq_checkFrom]
    decide +kernel
  have hfree : (assignTo "V55020").CollisionFree := by decide +kernel
  have hunknown : ∀ d ∈ (assignTo "v59344").names, ¬ SpelledAs "v59344" d := by decide +kernel
  refine ⟨⟨hown, hfree, (check_resolves hown).2 hfree⟩, hother, (check_resolves hother).1,
    fun hspelled => ?_⟩
  have hmain := hspelled _ (List.mem_cons_of_mem _ List.mem_cons_self)
  obtain ⟨scope, scope', hparams, hbody⟩ := FunctionDecl.Resolves.body hmain
  cases hparams with
  | nil =>
      cases hbody with
      | cons hassign _ =>
          cases hassign with
          | assign htarget _ =>
              obtain ⟨s, hfind, hname⟩ := htarget "v59344" List.mem_cons_self
              have hdeclared := (Scope.Keyed.new (check_keyed (assignTo "v59344"))).find hfind
              exact hunknown s.name hdeclared.1 hname

end GameScript
