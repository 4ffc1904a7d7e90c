import GameScript.Proofs.ExprTyping
import GameScript.Proofs.Outcomes

/-!
# What declarations leave behind

Collecting the declarations of a script fills a table of symbols and a list of what was declared.
The two belong together: every symbol of the table is in the list with the same type, whether or not
a problem was reported on the way. What is in the list has different identities, and if no error was
reported, none of the script's functions is missing. All this is one invariant of the state, which
every step keeps; it is stated as triples of a condition before, a step, and a condition after.
-/
namespace GameScript

def DeclaredData.entry (d : DeclaredData) : String × Ty := (d.name, d.ty)

def DeclaredFunction.signature (f : DeclaredFunction) : Signature :=
  ⟨f.decl.name, f.params, f.result⟩

/-- What expressions can refer to once these declarations are known. -/
def Declared.env (d : Declared) : TypingEnv :=
  .ofScript (d.statics.map DeclaredData.entry) (d.globals.map DeclaredData.entry)
    (d.functions.map DeclaredFunction.signature) (d.natives.map TypedNative.signature)

structure TypingEnv.Sub (Γ Γ' : TypingEnv) : Prop where
  frame : ∀ slot ty, Γ.frame slot ty → Γ'.frame slot ty
  static : ∀ name ty, Γ.static name ty → Γ'.static name ty
  global : ∀ name ty, Γ.global name ty → Γ'.global name ty
  function : ∀ name result params, Γ.function name result params → Γ'.function name result params
  native : ∀ name result params, Γ.native name result params → Γ'.native name result params

theorem TypingEnv.Sub.refl (Γ : TypingEnv) : Γ.Sub Γ :=
  ⟨fun _ _ h => h, fun _ _ h => h, fun _ _ h => h, fun _ _ _ h => h, fun _ _ _ h => h⟩

theorem TypingEnv.sub_ofScript {statics statics' globals globals' : List (String × Ty)}
    {functions functions' natives natives' : List Signature} (hstatics : statics ⊆ statics')
    (hglobals : globals ⊆ globals') (hfunctions : functions ⊆ functions')
    (hnatives : natives ⊆ natives') :
    (ofScript statics globals functions natives).Sub
      (ofScript statics' globals' functions' natives') where
  frame _ _ h := h
  static _ _ h := hstatics h
  global _ _ h := hglobals h
  function _ _ _ := fun ⟨f, hf, h⟩ => ⟨f, hfunctions hf, h⟩
  native _ _ _ := fun ⟨f, hf, h⟩ => ⟨f, hnatives hf, h⟩

theorem TypingEnv.sub_inside (statics globals : List (String × Ty))
    (functions natives : List Signature) (args locals : List Variable) :
    (ofScript statics globals functions natives).Sub
      ((ofScript statics globals functions natives).inside args locals) where
  frame _ _ h := h.elim
  static _ _ h := h
  global _ _ h := h
  function _ _ _ h := h
  native _ _ _ h := h

theorem Symbol.Agrees.mono {Γ Γ' : TypingEnv} {s : Symbol} (h : s.Agrees Γ) (hsub : Γ.Sub Γ') :
    s.Agrees Γ' := by
  unfold Symbol.Agrees at h ⊢
  split at h
  · exact trivial
  · exact hsub.static _ _ h
  · exact hsub.global _ _ h
  · exact fun result params hty => hsub.function _ _ _ (h result params hty)
  · exact fun result params hty => hsub.native _ _ _ (h result params hty)
  · exact h
  · exact hsub.frame _ _ h
  · exact hsub.frame _ _ h

theorem GlobalTable.find?_of_prefix {t t' : GlobalTable} (h : t.symbols <+: t'.symbols)
    {id : Identity} {s : Symbol} (hs : t.find? id = some s) : t'.find? id = some s := by
  obtain ⟨more, hmore⟩ := h
  unfold GlobalTable.find? SymbolTable.find? at hs ⊢
  rw [← hmore, List.lookup_append, hs, Option.some_or]

def Symbol.IsStatic (symbol : Symbol) (d : DeclaredData) : Prop :=
  ∃ span isArg init, symbol = ⟨d.name, d.ty, span, .static isArg init⟩

def Symbol.IsGlobal (symbol : Symbol) (d : DeclaredData) : Prop :=
  ∃ span, symbol = ⟨d.name, d.ty, span, .global⟩

def Item.function? : Item → Option FunctionDecl
  | .function decl => some decl
  | _ => none

def Script.functions (script : Script) : List FunctionDecl := script.filterMap Item.function?

/-- The identities of everything that is declared, apart from types. -/
def Declared.ids (d : Declared) : List Identity :=
  (d.statics.map DeclaredData.name ++ d.globals.map DeclaredData.name ++
    d.natives.map TypedNative.name ++ d.functions.map fun f => f.decl.name).map Identity.ofName

/-- The invariant of collecting declarations, of which the functions `done` came so far. -/
structure DeclareState.Holds (declared : Declared) (done : List FunctionDecl) (s : DeclareState) :
    Prop where
  registry : s.registry.WellFormed
  symbols : ∀ e ∈ s.symbols.symbols, e.2.Agrees declared.env
  types : ∀ e ∈ s.symbols.symbols, e.2.kind.isType = true → e.2.ty.WellFormed
  statics : ∀ d ∈ declared.statics, d.ty.WellFormed ∧
    ∃ symbol, s.symbols.findName? d.name = some symbol ∧ symbol.IsStatic d
  globals : ∀ d ∈ declared.globals, d.ty.WellFormed ∧
    ∃ symbol, s.symbols.findName? d.name = some symbol ∧ symbol.IsGlobal d
  arity : ∀ f ∈ declared.functions, f.params.length = f.decl.params.length
  known : ∀ id ∈ declared.ids, id ∈ s.symbols.symbols.map Prod.fst
  distinct : declared.ids.Nodup
  complete : (∀ d ∈ s.diagnostics.items, d.isError = false) →
    declared.functions.map DeclaredFunction.decl = done

/-- An error was reported, so nothing is said about what is missing. -/
def DeclareState.Failed (declared : Declared) (s : DeclareState) : Prop :=
  ∀ done, s.Holds declared done

/-- How a new symbol may change what is declared. -/
structure Declared.Grows (declared : Declared) (done : List FunctionDecl) (declared' : Declared)
    (done' : List FunctionDecl) (symbol : Symbol) : Prop where
  sub : declared.env.Sub declared'.env
  agrees : symbol.Agrees declared'.env
  type : symbol.kind.isType = true → symbol.ty.WellFormed
  statics : ∀ d ∈ declared'.statics, d ∈ declared.statics ∨ d.ty.WellFormed ∧ symbol.IsStatic d
  globals : ∀ d ∈ declared'.globals, d ∈ declared.globals ∨ d.ty.WellFormed ∧ symbol.IsGlobal d
  functions : (declared'.functions = declared.functions ∧ done' = done) ∨
    ∃ f, declared'.functions = declared.functions ++ [f] ∧ done' = done ++ [f.decl] ∧
      f.params.length = f.decl.params.length
  ids : declared'.ids = declared.ids ∨ declared'.ids.Perm (symbol.id :: declared.ids)

namespace DeclareState.Holds

variable {declared declared' : Declared} {done done' : List FunctionDecl} {s : DeclareState}

theorem fail (h : s.Holds declared done) {d : Diagnostic} (hd : d.isError = true) :
    Failed declared { s with diagnostics := s.diagnostics.push d } := by
  intro done'
  refine { h with complete := fun hclean => ?_ }
  have hnoerror := hclean d (List.mem_append_right _ (List.mem_singleton_self d))
  rw [hd] at hnoerror
  cases hnoerror

theorem setRegistry (h : s.Holds declared done) {r : Registry} (hr : r.WellFormed) :
    Holds declared done { s with registry := r } :=
  { h with registry := hr }

theorem add (h : s.Holds declared done) {symbol : Symbol}
    (hfresh : s.symbols.find? symbol.id = none)
    (hgrows : declared.Grows done declared' done' symbol) :
    Holds declared' done'
      { s with symbols := ⟨s.symbols.symbols ++ [(symbol.id, symbol)]⟩ } := by
  have hforall {P : Identity × Symbol → Prop} (hold : ∀ e ∈ s.symbols.symbols, P e)
      (hnew : P (symbol.id, symbol)) :
      ∀ e ∈ s.symbols.symbols ++ [(symbol.id, symbol)], P e := by
    intro e he
    rcases List.mem_append.mp he with he | he
    · exact hold e he
    · rw [List.mem_singleton.mp he]
      exact hnew
  have hunknown : symbol.id ∉ s.symbols.symbols.map Prod.fst := not_mem_keys_of_lookup hfresh
  let table : GlobalTable := ⟨s.symbols.symbols ++ [(symbol.id, symbol)]⟩
  have hfound : table.findName? symbol.name = some symbol := by
    show (s.symbols.symbols ++ [(symbol.id, symbol)]).lookup symbol.id = some symbol
    rw [List.lookup_append, show s.symbols.symbols.lookup symbol.id = none from hfresh,
      Option.none_or, List.lookup_cons_self]
  have hkept {name : String} {found : Symbol} (h : s.symbols.findName? name = some found) :
      table.findName? name = some found :=
    GlobalTable.find?_of_prefix (List.prefix_append _ _) h
  constructor
  case registry => exact h.registry
  case symbols => exact hforall (fun e he => (h.symbols e he).mono hgrows.sub) hgrows.agrees
  case types => exact hforall h.types hgrows.type
  case statics =>
      intro d hd
      rcases hgrows.statics d hd with hold | ⟨hty, hnew⟩
      · obtain ⟨hty, found, hfind, hsymbol⟩ := h.statics d hold
        exact ⟨hty, found, hkept hfind, hsymbol⟩
      · obtain ⟨span, isArg, init, hsymbol⟩ := hnew
        have hname : symbol.name = d.name := congrArg Symbol.name hsymbol
        exact ⟨hty, symbol, hname ▸ hfound, span, isArg, init, hsymbol⟩
  case globals =>
      intro d hd
      rcases hgrows.globals d hd with hold | ⟨hty, hnew⟩
      · obtain ⟨hty, found, hfind, hsymbol⟩ := h.globals d hold
        exact ⟨hty, found, hkept hfind, hsymbol⟩
      · obtain ⟨span, hsymbol⟩ := hnew
        have hname : symbol.name = d.name := congrArg Symbol.name hsymbol
        exact ⟨hty, symbol, hname ▸ hfound, span, hsymbol⟩
  case arity =>
      rcases hgrows.functions with ⟨hsame, -⟩ | ⟨f, hf, -, harity⟩
      · rw [hsame]
        exact h.arity
      · rw [hf]
        exact List.forall_mem_append.mpr ⟨h.arity, List.forall_mem_singleton.mpr harity⟩
  case known =>
      rw [List.map_append]
      have hold (id : Identity) (hid : id ∈ declared.ids) :
          id ∈ s.symbols.symbols.map Prod.fst ++ [symbol.id] :=
            List.mem_append_left _ (h.known id hid)
      rcases hgrows.ids with hsame | hnew
      · rw [hsame]
        exact hold
      · intro id hid
        rcases List.mem_cons.mp (hnew.subset hid) with rfl | hid
        · exact List.mem_append_right _ (List.mem_singleton_self _)
        · exact hold id hid
  case distinct =>
      rcases hgrows.ids with hsame | hnew
      · rw [hsame]
        exact h.distinct
      · rw [hnew.nodup_iff, List.nodup_cons]
        exact ⟨fun hmem => hunknown (h.known _ hmem), h.distinct⟩
  case complete =>
      intro hclean
      rcases hgrows.functions with ⟨hsame, hdone⟩ | ⟨f, hf, hdone, -⟩
      · rw [hsame, hdone]
        exact h.complete hclean
      · rw [hf, hdone, List.map_append, h.complete hclean]
        rfl

end DeclareState.Holds

/-- A step that starts where `I` holds ends where `P` holds of its result and state. -/
def DeclareM.Triple {α : Type} (I : DeclareState → Prop) (x : DeclareM α)
    (P : α → DeclareState → Prop) : Prop :=
  ∀ s, I s → P (x s).1 (x s).2

namespace DeclareM

section
variable {I : DeclareState → Prop} {α β : Type} {P : α → DeclareState → Prop}
  {Q : β → DeclareState → Prop}

theorem Triple.pure {a : α} (h : ∀ s, I s → P a s) : Triple I (Pure.pure a) P := h

theorem Triple.bind {x : DeclareM α} {f : α → DeclareM β} (hx : Triple I x P)
    (hf : ∀ a, Triple (P a) (f a) Q) : Triple I (x >>= f) Q :=
  fun s hs => hf _ _ (hx s hs)

theorem Triple.imp {x : DeclareM α} {P' : α → DeclareState → Prop} (hx : Triple I x P)
    (h : ∀ a s, P a s → P' a s) : Triple I x P' :=
  fun s hs => h _ _ (hx s hs)

theorem Triple.pre {x : DeclareM α} {J : DeclareState → Prop} (hx : Triple I x P)
    (h : ∀ s, J s → I s) : Triple J x P :=
  fun s hs => hx s (h s hs)

/-- A fact that holds at the start may be assumed about the step. -/
theorem Triple.given {x : DeclareM α} {J : DeclareState → Prop} {p : Prop}
    (h : ∀ s, J s → I s ∧ p) (hx : p → Triple I x P) : Triple J x P :=
  fun s hs => hx (h s hs).2 s (h s hs).1

theorem Triple.forM {xs : List β} {f : β → DeclareM PUnit}
    (h : ∀ b ∈ xs, Triple I (f b) fun _ => I) : Triple I (xs.forM f) fun _ => I := by
  induction xs with
  | nil => exact .pure fun _ hs => hs
  | cons b xs ih =>
      rw [List.forall_mem_cons] at h
      exact h.1.bind fun _ => ih h.2

theorem Triple.mapM {xs : List β} {f : β → DeclareM α} {R : α → Prop}
    (h : ∀ b ∈ xs, Triple I (f b) fun a s => I s ∧ R a) :
    Triple I (xs.mapM f) fun as s => I s ∧ ∀ a ∈ as, R a := by
  induction xs with
  | nil =>
      rw [List.mapM_nil]
      exact .pure fun s hs => ⟨hs, fun a ha => absurd ha List.not_mem_nil⟩
  | cons b xs ih =>
      rw [List.forall_mem_cons] at h
      rw [List.mapM_cons]
      refine h.1.bind ?_
      intro a s hs
      have hrest := (ih h.2) s hs.1
      exact ⟨hrest.1, List.forall_mem_cons.mpr ⟨hs.2, hrest.2⟩⟩

theorem add_triple {symbol : Symbol} {P : Bool → DeclareState → Prop}
    (hadd : ∀ s, I s → s.symbols.find? symbol.id = none →
      P true { s with symbols := ⟨s.symbols.symbols ++ [(symbol.id, symbol)]⟩ })
    (hclash : ∀ s d, I s → d.isError = true →
      P false { s with diagnostics := s.diagnostics.push d }) : Triple I (add symbol) P := by
  intro s hs
  cases hinsert : s.symbols.symbols.insert symbol with
  | ok table =>
      have hok := SymbolTable.insert_ok hinsert
      have hrun : add symbol s = (true, { s with symbols := ⟨table⟩ }) := by
        simp only [add, bind, StateT.bind, get, getThe, MonadStateOf.get, StateT.get, pure,
          GlobalTable.add, hinsert, Except.map]
        rfl
      rw [hrun, hok.2]
      exact hadd s hs hok.1
  | error e =>
      have hrun : add symbol s = (false, { s with
          diagnostics := s.diagnostics.push (errorAt symbol.span (.declaration e)) }) := by
        simp only [add, bind, StateT.bind, get, getThe, MonadStateOf.get, StateT.get, pure,
          GlobalTable.add, hinsert, Except.map]
        rfl
      rw [hrun]
      exact hclash s _ hs rfl

end

variable {declared : Declared} {done : List FunctionDecl}

open DeclareState

theorem report_triple (span : Span) (cause : Cause) :
    Triple (Holds declared done) (report span cause) fun _ => Failed declared :=
  fun _ hs => hs.fail rfl

/-- A step that keeps the invariant whatever functions are expected keeps a failure. -/
theorem Triple.keep {α : Type} {x : DeclareM α} {P : List FunctionDecl → α → DeclareState → Prop}
    (h : ∀ done, Triple (Holds declared done) x (P done))
    (hP : ∀ done a s, P done a s → Holds declared done s) (failed : Prop) :
    Triple (fun s => Holds declared done s ∧ (failed → Failed declared s)) x
      fun a s => P done a s ∧ (failed → Failed declared s) :=
  fun s hs => ⟨h done s hs.1, fun hf done' => hP _ _ _ (h done' s (hs.2 hf done'))⟩

/-- Symbols that are neither variables nor functions can be added at any time. -/
theorem add_plain {symbol : Symbol} (hagrees : symbol.Agrees declared.env)
    (htype : symbol.kind.isType = true → symbol.ty.WellFormed) :
    Triple (Holds declared done) (add symbol) fun _ => Holds declared done := by
  apply add_triple
  · intro s hs hfresh
    exact hs.add hfresh
      ⟨.refl _, hagrees, htype, fun _ => .inl, fun _ => .inl, .inl ⟨rfl, rfl⟩, .inl rfl⟩
  · intro s d hs hd
    exact hs.fail hd done

/-- A symbol that comes with a declaration: either both are known afterwards, or neither. -/
theorem add_grows {declared' : Declared} {done' : List FunctionDecl} {symbol : Symbol}
    (hgrows : declared.Grows done declared' done' symbol) :
    Triple (Holds declared done) (add symbol) fun added s =>
      if added then Holds declared' done' s else Failed declared s := by
  apply add_triple
  · intro s hs hfresh
    exact hs.add hfresh hgrows
  · intro s d hs hd
    exact hs.fail hd

theorem register_run (ty : Ty) (span : Span) (s : DeclareState) :
    register ty span s =
      match s.registry.register ty with
      | .ok p => (some p.1, { s with registry := p.2 })
      | .error e =>
        (none, { s with diagnostics := s.diagnostics.push (errorAt span (.declaration e)) }) := by
  cases hregister : s.registry.register ty <;>
    (simp only [register, bind, StateT.bind, get, getThe, MonadStateOf.get, StateT.get, pure,
      hregister]
     rfl)

theorem register_triple {ty : Ty} (hty : ty.WellFormed) (span : Span) :
    Triple (Holds declared done) (register ty span) fun o s =>
      Holds declared done s ∧ (o = none → Failed declared s) ∧
        ∀ ty', o = some ty' → ty'.same ty = true ∧ ty'.WellFormed := by
  intro s hs
  rw [register_run]
  cases hregister : s.registry.register ty with
  | ok p =>
      have hok := Registry.register_ok hregister
      have hwell := hok.2 hs.registry hty
      refine ⟨hs.setRegistry hwell.2, fun hnone => (nomatch hnone), fun ty' hty' => ?_⟩
      obtain rfl := Option.some.inj hty'
      exact ⟨hok.1, hwell.1⟩
  | error e => exact ⟨hs.fail rfl done, fun _ => hs.fail rfl, fun ty' hty' => (nomatch hty')⟩

theorem resolve_triple (ref : TypeRef) :
    Triple (Holds declared done) (resolve ref) fun found s =>
      Holds declared done s ∧ ∀ ty, found = .ok ty → ty.WellFormed := by
  intro s hs
  have hresolve : (resolveType s.symbols.findName? s.registry ref).2.WellFormed ∧
      ∀ ty, (resolveType s.symbols.findName? s.registry ref).1 = .ok ty → ty.WellFormed :=
    resolveType_wellFormed hs.registry fun symbol hfind => hs.types _ (mem_of_lookup hfind)
  exact ⟨hs.setRegistry hresolve.1, hresolve.2⟩

theorem resolveOrReport_triple (ref : TypeRef) :
    Triple (Holds declared done) (resolveOrReport ref) fun o s =>
      Holds declared done s ∧ (o = none → Failed declared s) ∧ ∀ ty, o = some ty →
          ty.WellFormed := by
  refine (resolve_triple ref).bind ?_
  intro found
  cases found with
  | ok ty =>
      apply Triple.pure
      intro s hs
      exact ⟨hs.1, fun hnone => (nomatch hnone), fun ty' hty' => Option.some.inj hty' ▸ hs.2 ty rfl⟩
  | error cause =>
      intro s hs
      have hfailed := report_triple ref.span cause s hs.1
      exact ⟨hfailed done, fun _ => hfailed, fun ty' hty' => (nomatch hty')⟩

end DeclareM

open DeclareM DeclareState

section
variable {declared : Declared} {done : List FunctionDecl}

theorem Ty.eq_enum_of_same {ty : Ty} {name : String} {members : List (String × Int32)}
    (h : ty.same (.enum name members) = true) : ∃ name' members', ty = .enum name' members' := by
  cases ty
  case enum name' members' => exact ⟨name', members', rfl⟩
  all_goals simp only [Ty.same, Bool.false_eq_true] at h

theorem declareEnum_triple (decl : EnumDecl) :
    Triple (Holds declared done) (declareEnum decl) fun _ => Holds declared done := by
  have hwell : (Ty.enum decl.name (memberValues 0 decl.members)).WellFormed := trivial
  refine (register_triple hwell decl.span).bind ?_
  intro o
  cases o with
  | none => exact .pure fun s hs => hs.1
  | some ty =>
      refine Triple.given (fun s hs => ⟨hs.1, hs.2.2 ty rfl⟩) fun hty => ?_
      have htype : Triple (Holds declared done) (add ⟨decl.name, ty, decl.span, .type⟩) fun _ =>
          Holds declared done := add_plain trivial fun _ => hty.2
      have hmember (m : MemberDecl × String × Int32) : Triple (Holds declared done)
          (add ⟨m.2.1, ty, m.1.span, .member m.2.2⟩) fun _ => Holds declared done :=
        add_plain (Ty.eq_enum_of_same hty.1) fun hkind => nomatch hkind
      exact htype.bind fun _ => .forM fun m _ => (hmember m).bind fun _ => .pure fun _ h => h

def Field.WellFormed (f : Field) : Prop :=
  f.ty.WellFormed ∧ ∀ v, f.init = some v → fieldInitError? f.ty v = none

/-- A field keeps only a default that its type allows. -/
theorem structFields_triple {known : List (FieldDecl × Ty)} (hknown : ∀ p ∈ known, p.2.WellFormed)
    (seen : List String) :
    Triple (Holds declared done) (structFields seen known) fun fields s =>
      Holds declared done s ∧ ∀ f ∈ fields, f.WellFormed := by
  induction known generalizing seen with
  | nil => exact .pure fun s hs => ⟨hs, fun f hf => absurd hf List.not_mem_nil⟩
  | cons p known ih =>
      obtain ⟨decl, ty⟩ := p
      rw [List.forall_mem_cons] at hknown
      have hrest (init : Option Literal)
          (hinit : ∀ v, init = some v → fieldInitError? ty v = none) :
          Triple (Holds declared done)
            (structFields (seen ++ [decl.name]) known >>= fun more =>
              pure (⟨decl.name, ty, init⟩ :: more)) fun fields s =>
            Holds declared done s ∧ ∀ f ∈ fields, f.WellFormed := by
        refine (ih hknown.2 (seen ++ [decl.name])).bind fun more => .pure fun s hs => ⟨hs.1, ?_⟩
        exact List.forall_mem_cons.mpr ⟨⟨hknown.1, hinit⟩, hs.2⟩
      rw [structFields]
      split
      · refine (report_triple _ _).bind fun _ => ?_
        exact fun s hs => ih hknown.2 seen s (hs done)
      · cases hinit : decl.init with
        | none => exact hrest none fun v hv => nomatch hv
        | some value =>
            cases herror : fieldInitError? ty value with
            | none =>
                simp only [herror]
                exact hrest (some value) fun v hv => Option.some.inj hv ▸ herror
            | some e =>
                simp only [herror]
                refine (report_triple _ _).bind fun _ => ?_
                exact fun s hs => hrest none (fun v hv => nomatch hv) s (hs done)

theorem attemptStruct_triple (decl : StructDecl) :
    Triple (Holds declared done) (attemptStruct decl) fun attempt s =>
      Holds declared done s ∧ ∀ fields, attempt = .ready fields → ∀ f ∈ fields, f.WellFormed := by
  refine (Triple.mapM fun f _ => resolve_triple f.ty).bind ?_
  intro found
  refine Triple.given (fun s hs => hs) fun hfound => ?_
  simp only []
  split
  · exact .pure fun s hs => ⟨hs, fun fields h => nomatch h⟩
  · split
    · refine (structFields_triple ?_ []).bind fun fields => .pure fun s hs => ⟨hs.1, ?_⟩
      · intro p hp
        obtain ⟨⟨f, r⟩, hzip, hp⟩ := List.mem_filterMap.mp hp
        cases r with
        | error cause => cases hp
        | ok ty =>
            obtain rfl := Option.some.inj hp
            exact hfound _ (List.of_mem_zip hzip).2 ty rfl
      · intro fields' h
        obtain rfl := StructAttempt.ready.inj h
        exact hs.2
    · refine Triple.bind (P := fun _ => Holds declared done) (.forM fun p _ => ?_) fun _ =>
        .pure fun s hs => ⟨hs, fun fields h => nomatch h⟩
      exact (report_triple p.1 p.2).imp fun _ s hs => hs done

theorem registerStruct_triple (decl : StructDecl) {fields : List Field}
    (hfields : ∀ f ∈ fields, f.WellFormed) :
    Triple (Holds declared done) (registerStruct decl fields) fun _ => Holds declared done := by
  have hwell : (Ty.ofFields decl.name fields).WellFormed := Fields.wellFormed_ofList hfields
  refine (register_triple hwell decl.span).bind ?_
  intro o
  cases o with
  | none => exact .pure fun s hs => hs.1
  | some ty =>
      refine Triple.given (fun s hs => ⟨hs.1, (hs.2.2 ty rfl).2⟩) fun hty => ?_
      have htype : Triple (Holds declared done) (add ⟨decl.name, ty, decl.span, .type⟩) fun _ =>
          Holds declared done := add_plain trivial fun _ => hty
      exact htype.bind fun _ => .pure fun _ h => h

theorem structRound_triple (queue : List StructDecl) :
    Triple (Holds declared done) (structRound queue) fun _ => Holds declared done := by
  induction queue with
  | nil => exact .pure fun _ hs => hs
  | cons decl rest ih =>
      refine (attemptStruct_triple decl).bind ?_
      intro attempt
      cases attempt with
      | ready fields =>
          refine Triple.given (fun s hs => ⟨hs.1, hs.2 fields rfl⟩) fun hfields => ?_
          exact (registerStruct_triple decl hfields).bind fun _ => ih
      | pending => exact fun s hs => ih s hs.1
      | failed => exact fun s hs => ih s hs.1

theorem declareStructs_triple (queue : List StructDecl) :
    Triple (Holds declared done) (declareStructs queue) fun _ => Holds declared done := by
  induction queue using declareStructs.induct with
  | case1 queue hempty =>
      rw [declareStructs, if_pos hempty]
      exact .pure fun _ hs => hs
  | case2 queue hempty ih =>
      rw [declareStructs, if_neg hempty]
      refine (structRound_triple queue).bind ?_
      intro pending
      split
      · next hprogress => exact ih pending hprogress
      · exact (report_triple _ _).imp fun _ s hs => hs done

theorem Declared.grows_static {d : DeclaredData} (hd : d.ty.WellFormed) (span : Span)
    (isArg : Bool) :
    declared.Grows done { declared with statics := declared.statics ++ [d] } done
      ⟨d.name, d.ty, span, .static isArg none⟩ where
  sub := TypingEnv.sub_ofScript (List.map_subset _ (List.subset_append_left _ _))
    (List.Subset.refl _) (List.Subset.refl _) (List.Subset.refl _)
  agrees := List.mem_map_of_mem (List.mem_append_right _ (List.mem_singleton_self d))
  type h := nomatch h
  statics e he := by
    rcases List.mem_append.mp he with he | he
    · exact .inl he
    · obtain rfl := List.mem_singleton.mp he
      exact .inr ⟨hd, span, isArg, none, rfl⟩
  globals _ he := .inl he
  functions := .inl ⟨rfl, rfl⟩
  ids := .inr <| by
    simp only [ids, List.map_append, List.map_singleton, List.append_assoc]
    exact List.perm_middle

theorem Declared.grows_global {d : DeclaredData} (hd : d.ty.WellFormed) (span : Span) :
    declared.Grows done { declared with globals := declared.globals ++ [d] } done
      ⟨d.name, d.ty, span, .global⟩ where
  sub := TypingEnv.sub_ofScript (List.Subset.refl _)
    (List.map_subset _ (List.subset_append_left _ _)) (List.Subset.refl _) (List.Subset.refl _)
  agrees := List.mem_map_of_mem (List.mem_append_right _ (List.mem_singleton_self d))
  type h := nomatch h
  statics _ he := .inl he
  globals e he := by
    rcases List.mem_append.mp he with he | he
    · exact .inl he
    · obtain rfl := List.mem_singleton.mp he
      exact .inr ⟨hd, span, rfl⟩
  functions := .inl ⟨rfl, rfl⟩
  ids := .inr <| by
    simp only [ids, List.map_append, List.map_singleton, List.append_assoc]
    exact (List.perm_middle.append_left _).trans List.perm_middle

theorem Declared.grows_native {f : TypedNative} {ty : Ty}
    (hty : ty.same (.function f.result f.params)) (span : Span) :
    declared.Grows done { declared with natives := declared.natives ++ [f] } done
      ⟨f.name, ty, span, .function .native⟩ where
  sub := TypingEnv.sub_ofScript (List.Subset.refl _) (List.Subset.refl _) (List.Subset.refl _)
    (List.map_subset _ (List.subset_append_left _ _))
  agrees := by
    rintro result params rfl
    exact ⟨f.signature,
      List.mem_map_of_mem (List.mem_append_right _ (List.mem_singleton_self f)), rfl, hty⟩
  type h := nomatch h
  statics _ he := .inl he
  globals _ he := .inl he
  functions := .inl ⟨rfl, rfl⟩
  ids := .inr <| by
    simp only [ids, List.map_append, List.map_singleton, List.append_assoc]
    exact (((List.perm_middle.append_left _).trans List.perm_middle).append_left _).trans
      List.perm_middle

theorem Declared.grows_function {f : DeclaredFunction} {ty : Ty}
    (hty : ty.same (.function f.result f.params)) (harity : f.params.length = f.decl.params.length)
    (span : Span) :
    declared.Grows done { declared with functions := declared.functions ++ [f] } (done ++ [f.decl])
      ⟨f.decl.name, ty, span, .function .script⟩ where
  sub := TypingEnv.sub_ofScript (List.Subset.refl _) (List.Subset.refl _)
    (List.map_subset _ (List.subset_append_left _ _)) (List.Subset.refl _)
  agrees := by
    rintro result params rfl
    exact ⟨f.signature,
      List.mem_map_of_mem (List.mem_append_right _ (List.mem_singleton_self f)), rfl, hty⟩
  type h := nomatch h
  statics _ he := .inl he
  globals _ he := .inl he
  functions := .inr ⟨f, rfl, rfl, harity⟩
  ids := .inr <| by
    simp only [ids, List.map_append, List.map_singleton, ← List.append_assoc]
    exact List.perm_append_singleton _ _

theorem declareStatic_triple (decl : StaticDecl) :
    Triple (Holds declared done) (declareStatic decl) fun o =>
      Holds { declared with statics := declared.statics ++ o.toList } done := by
  have hnone {s : DeclareState} (hs : Failed declared s) :
      Holds { declared with statics := declared.statics ++ [] } done s := by
    rw [List.append_nil]
    exact hs done
  refine (resolveOrReport_triple decl.ty).bind ?_
  intro o
  cases o with
  | none => exact .pure fun s hs => hnone (hs.2.1 rfl)
  | some ty =>
      refine Triple.given (fun s hs => ⟨hs.1, hs.2.2 ty rfl⟩) fun hty => ?_
      refine (add_grows (Declared.grows_static
        (d := ⟨decl.name, ty, decl.init, decl.isArg, decl.span⟩) hty decl.span decl.isArg)).bind ?_
      intro added
      cases added with
      | true => exact .pure fun s hs => hs
      | false => exact .pure fun s hs => hnone hs

theorem declareGlobal_triple (decl : GlobalDecl) :
    Triple (Holds declared done) (declareGlobal decl) fun o =>
      Holds { declared with globals := declared.globals ++ o.toList } done := by
  have hnone {s : DeclareState} (hs : Failed declared s) :
      Holds { declared with globals := declared.globals ++ [] } done s := by
    rw [List.append_nil]
    exact hs done
  refine (resolveOrReport_triple decl.ty).bind ?_
  intro o
  cases o with
  | none => exact .pure fun s hs => hnone (hs.2.1 rfl)
  | some ty =>
      refine Triple.given (fun s hs => ⟨hs.1, hs.2.2 ty rfl⟩) fun hty => ?_
      refine (add_grows (Declared.grows_global
        (d := ⟨decl.name, ty, decl.init, false, decl.span⟩) hty decl.span)).bind ?_
      intro added
      cases added with
      | true => exact .pure fun s hs => hs
      | false => exact .pure fun s hs => hnone hs

theorem declareGlobals_triple (decls : List GlobalDecl) (declared : Declared) :
    Triple (Holds declared done) (declareGlobals decls) fun found =>
      Holds { declared with globals := declared.globals ++ found } done := by
  induction decls generalizing declared with
  | nil =>
      apply Triple.pure
      intro s hs
      rw [List.append_nil]
      exact hs
  | cons decl rest ih =>
      refine (declareGlobal_triple decl).bind fun first => (ih _).bind fun more => ?_
      apply Triple.pure
      intro s hs
      rw [← List.append_assoc]
      exact hs

/-- Every parameter is resolved, or an error is reported. -/
theorem resolveParams_triple (params : List ParamDecl) (done : List FunctionDecl) :
    Triple (Holds declared done) (params.mapM fun p => resolveOrReport p.ty) fun found s =>
      Holds declared done s ∧ found.length = params.length ∧
          (none ∈ found → Failed declared s) := by
  induction params generalizing done with
  | nil =>
      rw [List.mapM_nil]
      exact .pure fun s hs => ⟨hs, rfl, fun h => absurd h List.not_mem_nil⟩
  | cons p params ih =>
      rw [List.mapM_cons]
      refine (resolveOrReport_triple p.ty).bind fun o => ?_
      -- If the first failed, what is resolved after it keeps the failure.
      refine ((Triple.keep (P := fun done (found : List (Option Ty)) s =>
          Holds declared done s ∧ found.length = params.length ∧ (none ∈ found → Failed declared s))
        ih (fun _ _ _ h => h.1) (o = none)).pre fun s hs => ⟨hs.1, hs.2.1⟩).bind fun found => ?_
      apply Triple.pure
      intro s hs
      refine ⟨hs.1.1, congrArg (· + 1) hs.1.2.1, fun hmem => ?_⟩
      rcases List.mem_cons.mp hmem with hnone | hmem
      · exact hs.2 hnone.symm
      · exact hs.1.2.2 hmem

theorem mapM_id_cases {α : Type} (found : List (Option α)) :
    (∃ values, found.mapM id = some values ∧ values.length = found.length) ∨
      (found.mapM id = none ∧ none ∈ found) := by
  induction found with
  | nil => exact .inl ⟨[], rfl, rfl⟩
  | cons o found ih =>
      cases o with
      | none => exact .inr ⟨rfl, List.mem_cons_self⟩
      | some a =>
          rcases ih with ⟨values, hvalues, hlength⟩ | ⟨hnone, hmem⟩
          · refine .inl ⟨a :: values, ?_, congrArg (· + 1) hlength⟩
            rw [List.mapM_cons, hvalues]
            rfl
          · refine .inr ⟨?_, List.mem_cons_of_mem _ hmem⟩
            rw [List.mapM_cons, hnone]
            rfl

theorem resolveSignature_triple (params : List ParamDecl) (result : Option TypeRef) :
    Triple (Holds declared done) (resolveSignature params result) fun o s =>
      Holds declared done s ∧ (o = none → Failed declared s) ∧
        ∀ signature, o = some signature → signature.1.length = params.length := by
  -- Only the list of parameters and whether anything failed matter, not which result was found.
  have hfinish (found : List (Option Ty)) (o : Option (Option Ty)) {s : DeclareState}
      (hs : Holds declared done s) (hlength : found.length = params.length)
      (hfound : none ∈ found → Failed declared s) (ho : o = none → Failed declared s) :
      Holds declared done s ∧
        ((do return (← found.mapM id, ← o) : Option (List Ty × Option Ty)) = none →
          Failed declared s) ∧
        ∀ signature, (do return (← found.mapM id, ← o) : Option (List Ty × Option Ty)) =
          some signature → signature.1.length = params.length := by
    rcases mapM_id_cases found with ⟨values, hvalues, hvaluesLength⟩ | ⟨hnone, hmem⟩
    · cases o with
      | none =>
          rw [hvalues]
          exact ⟨hs, fun _ => ho rfl, fun signature h => nomatch h⟩
      | some r =>
          rw [hvalues]
          refine ⟨hs, fun h => (nomatch h), fun signature h => ?_⟩
          obtain rfl := Option.some.inj h
          exact hvaluesLength.trans hlength
    · rw [hnone]
      exact ⟨hs, fun _ => hfound hmem, fun signature h => nomatch h⟩
  refine (resolveParams_triple params done).bind fun found => ?_
  refine Triple.given (I := fun s => Holds declared done s ∧ (none ∈ found → Failed declared s))
    (fun s hs => ⟨⟨hs.1, hs.2.2⟩, hs.2.1⟩) fun hlength => ?_
  cases result with
  | none =>
      exact fun s hs => hfinish found (some none) hs.1 hlength hs.2 fun h => nomatch h
  | some ref =>
      refine (Triple.keep (fun _ => resolveOrReport_triple ref) (fun _ _ _ h => h.1)
        (none ∈ found)).bind fun ty => ?_
      exact fun s hs => hfinish found (ty.map some) hs.1.1 hlength hs.2 fun hnone =>
        hs.1.2.1 (Option.map_eq_none_iff.mp hnone)

/-- A callable symbol, with what its declaration adds once the signature is known. -/
theorem declareCallable_triple (name : String) (params : List ParamDecl) (result : Option TypeRef)
    (span : Span) (linkage : Linkage) (grow : List Ty × Option Ty → Declared)
    (done' : List FunctionDecl)
    (hgrow : ∀ signature ty, signature.1.length = params.length →
      ty.same (.function signature.2 signature.1) = true →
      declared.Grows done (grow signature) done' ⟨name, ty, span, .function linkage⟩) :
    Triple (Holds declared done) (declareCallable name params result span linkage) fun o s =>
      (o = none → Failed declared s) ∧ ∀ signature, o = some signature →
        Holds (grow signature) done' s := by
  refine (resolveSignature_triple params result).bind ?_
  intro o
  cases o with
  | none => exact .pure fun s hs => ⟨fun _ => hs.2.1 rfl, fun signature h => nomatch h⟩
  | some signature =>
      refine Triple.given (fun s hs => ⟨hs.1, hs.2.2 signature rfl⟩) fun hlength => ?_
      have hwell : (Ty.function signature.2 signature.1).WellFormed := trivial
      refine (register_triple hwell span).bind ?_
      intro o
      cases o with
      | none => exact .pure fun s hs => ⟨fun _ => hs.2.1 rfl, fun signature h => nomatch h⟩
      | some ty =>
          refine Triple.given (fun s hs => ⟨hs.1, (hs.2.2 ty rfl).1⟩) fun hsame => ?_
          refine (add_grows (hgrow signature ty hlength hsame)).bind ?_
          intro added
          cases added with
          | true =>
              apply Triple.pure
              intro s hs
              refine ⟨fun h => (nomatch h), fun signature' h => ?_⟩
              obtain rfl := Option.some.inj h
              exact hs
          | false => exact .pure fun s hs => ⟨fun _ => hs, fun signature h => nomatch h⟩

theorem declareItem_triple (block : Option GlobalBlockDecl) (item : Item) :
    Triple (Holds declared done) (declareItem block declared item) fun r =>
      Holds r.2 (done ++ item.function?.toList) := by
  have hsame {declared' : Declared} {s : DeclareState} (hs : Holds declared' done s) :
      Holds declared' (done ++ []) s := by
    rw [List.append_nil]
    exact hs
  cases item with
  | enum decl => exact .pure fun s hs => hsame hs
  | struct decl => exact .pure fun s hs => hsame hs
  | static decl =>
      exact (declareStatic_triple decl).bind fun found => .pure fun s hs => hsame hs
  | globals new =>
      cases block with
      | some existing =>
          exact (report_triple _ _).bind fun _ => .pure fun s hs => hs _
      | none =>
          exact (declareGlobals_triple new.vars declared).bind fun found => .pure fun s hs =>
            hsame hs
  | native decl =>
      have hcallable : Triple (Holds declared done)
          (declareCallable decl.name decl.params decl.result decl.span .native) fun o s =>
          (o = none → Failed declared s) ∧ ∀ signature, o = some signature →
            Holds { declared with natives := declared.natives ++
              [⟨decl.name, signature.1, signature.2⟩] } done s :=
        declareCallable_triple _ _ _ _ _ _ done fun signature ty _ hsame =>
          Declared.grows_native (f := ⟨decl.name, signature.1, signature.2⟩) hsame decl.span
      refine hcallable.bind ?_
      intro o
      cases o with
      | none => exact .pure fun s hs => hs.1 rfl _
      | some signature => exact .pure fun s hs => hsame (hs.2 signature rfl)
  | function decl =>
      have hcallable : Triple (Holds declared done)
          (declareCallable decl.name decl.params decl.result decl.span .script) fun o s =>
          (o = none → Failed declared s) ∧ ∀ signature, o = some signature →
            Holds { declared with functions := declared.functions ++
              [⟨decl, signature.1, signature.2⟩] } (done ++ [decl]) s :=
        declareCallable_triple _ _ _ _ _ _ (done ++ [decl]) fun signature ty hlength hsame =>
          Declared.grows_function (f := ⟨decl, signature.1, signature.2⟩) hsame hlength decl.span
      refine hcallable.bind ?_
      intro o
      cases o with
      | none => exact .pure fun s hs => hs.1 rfl _
      | some signature => exact .pure fun s hs => hs.2 signature rfl

theorem declareItems_triple (items : List Item) (block : Option GlobalBlockDecl)
    (declared : Declared) (done : List FunctionDecl) :
    Triple (Holds declared done) (declareItems block declared items) fun declared' =>
      Holds declared' (done ++ Script.functions items) := by
  induction items generalizing block declared done with
  | nil =>
      apply Triple.pure
      intro s hs
      rw [Script.functions, List.filterMap_nil, List.append_nil]
      exact hs
  | cons item rest ih =>
      refine (declareItem_triple block item).bind fun r => ?_
      have hrest := ih r.1 r.2 (done ++ item.function?.toList)
      have hfunctions : Script.functions (item :: rest) =
          item.function?.toList ++ Script.functions rest := by
        rw [Script.functions, List.filterMap_cons]
        cases item.function? <;> rfl
      rw [hfunctions, ← List.append_assoc]
      exact hrest

/-- All declarations of a script. -/
theorem declareScript_triple (script : Script) :
    Triple (Holds {} []) (declareScript script) fun declared => Holds declared script.functions :=
  Triple.bind (.forM fun decl _ => declareEnum_triple decl) fun _ =>
    (declareStructs_triple script.structs).bind fun _ => declareItems_triple script none {} []

end

/-- Where collecting declarations starts: only the types of the registry have a name. -/
def DeclareState.start (r : Registry) : DeclareState :=
  { registry := r, symbols := GlobalTable.ofRegistry r }

theorem DeclareState.holds_start {r : Registry} (hr : r.WellFormed) :
    (DeclareState.start r).Holds {} [] where
  registry := hr
  symbols e he := by
    obtain ⟨entry, -, rfl⟩ := List.mem_map.mp he
    exact trivial
  types e he _ := by
    obtain ⟨entry, hentry, rfl⟩ := List.mem_map.mp he
    have hmem := (List.mem_filter.mp (List.mem_mergeSort.mp hentry)).1
    exact hr entry hmem
  statics _ hd := absurd hd List.not_mem_nil
  globals _ hd := absurd hd List.not_mem_nil
  arity _ hf := absurd hf List.not_mem_nil
  known _ hf := absurd hf List.not_mem_nil
  distinct := List.nodup_nil
  complete _ := rfl

end GameScript
