import GameScript.Proofs.Translation

/-!
# No declaration is dropped

Collecting declarations leaves out what it cannot resolve or add, but never without a report. As for
bodies, a step is looked at from its end: if no error has been reported by then, it has produced
everything that it was asked for. Symbols are only ever added, so what a step has found stands in
the final table, and this is the table in which written types are looked up here.
-/
namespace GameScript

open BodyM (Given)

/-! ## Declarations of a script -/

def GlobalDecl.asStatic (decl : GlobalDecl) : StaticDecl :=
  { name := decl.name, ty := decl.ty, init := decl.init, isArg := false, span := decl.span }

def Item.static? : Item → Option StaticDecl
  | .static decl => some decl
  | _ => none

def Item.native? : Item → Option NativeDecl
  | .native decl => some decl
  | _ => none

def Item.globalVars : Item → List GlobalDecl
  | .globals block => block.vars
  | _ => []

def Script.statics (script : Script) : List StaticDecl := script.filterMap Item.static?

def Script.natives (script : Script) : List NativeDecl := script.filterMap Item.native?

def Script.globalVars (script : Script) : List GlobalDecl := script.flatMap Item.globalVars

/-- The enum is a type of the table, and its members are constants of that type. -/
def EnumDecl.KeptIn (symbols : GlobalTable) (decl : EnumDecl) : Prop :=
  ∃ ty, symbols.findName? decl.name = some ⟨decl.name, ty, decl.span, .type⟩ ∧
    (∃ members, ty.same (.enum decl.name members) = true) ∧
    ∀ m ∈ decl.members, ∃ value, symbols.findName? m.name = some ⟨m.name, ty, m.span, .member value⟩

structure FieldDecl.KeptAs (symbols : GlobalTable) (decl : FieldDecl) (f : Field) : Prop where
  name : f.name = decl.name
  ty : decl.ty.Denotes symbols f.ty
  init : f.init = decl.init

/-- The struct is a type of the table, with all its fields. -/
def StructDecl.KeptIn (symbols : GlobalTable) (decl : StructDecl) : Prop :=
  ∃ ty fields, symbols.findName? decl.name = some ⟨decl.name, ty, decl.span, .type⟩ ∧
    ty.same (.ofFields decl.name fields) = true ∧
    List.Forall₂ (FieldDecl.KeptAs symbols) decl.fields fields

structure KeepsSignature (symbols : GlobalTable) (params : List ParamDecl) (result : Option TypeRef)
    (signature : List Ty × Option Ty) : Prop where
  params : List.Forall₂ (fun p ty => p.ty.Denotes symbols ty) params signature.1
  result : Option.Rel (TypeRef.Denotes symbols) result signature.2

structure NativeDecl.KeptAs (symbols : GlobalTable) (decl : NativeDecl) (f : TypedNative) :
    Prop where
  name : f.name = decl.name
  signature : KeepsSignature symbols decl.params decl.result (f.params, f.result)

structure StaticDecl.DeclaredAs (symbols : GlobalTable) (decl : StaticDecl) (d : DeclaredData) :
    Prop where
  name : d.name = decl.name
  ty : decl.ty.Denotes symbols d.ty
  init : d.init = decl.init
  isArg : d.isArg = decl.isArg
  span : d.span = decl.span

structure FunctionDecl.DeclaredAs (symbols : GlobalTable) (decl : FunctionDecl)
    (f : DeclaredFunction) :
    Prop where
  source : f.decl = decl
  signature : KeepsSignature symbols decl.params decl.result (f.params, f.result)

/-! ## Steps of the first pass -/

/-- What a step can do to its state: add symbols and reports. -/
structure DeclareState.Extends (s s' : DeclareState) : Prop where
  symbols : s.symbols.symbols <+: s'.symbols.symbols
  reports : s.diagnostics.items <+: s'.diagnostics.items

/-- No error is reported, and every symbol is one of `final`. -/
structure DeclareState.Clean (final : GlobalTable) (s : DeclareState) : Prop where
  symbols : s.symbols.symbols <+: final.symbols
  reports : s.diagnostics.Clean

/-- If the step ends without an error, its result has the property. -/
def DeclareM.Ensures {α : Type} (final : GlobalTable) (x : DeclareM α) (P : α → Prop) : Prop :=
  ∀ s : DeclareState, s.Extends (x s).2 ∧ ((x s).2.Clean final → P (x s).1)

namespace DeclareM

section
variable {final : GlobalTable} {α β : Type} {P : α → Prop} {Q : β → Prop}

theorem Ensures.pure {a : α} (h : P a) : Ensures final (Pure.pure a) P :=
  fun _ => ⟨⟨List.prefix_refl _, List.prefix_refl _⟩, fun _ => h⟩

theorem Ensures.imp {x : DeclareM α} {P' : α → Prop} (hx : Ensures final x P)
    (h : ∀ a, P a → P' a) :
    Ensures final x P' :=
  fun s => ⟨(hx s).1, fun hclean => h _ ((hx s).2 hclean)⟩

theorem Ensures.bind {x : DeclareM α} {f : α → DeclareM β} (hx : Ensures final x P)
    (hf : ∀ a, Ensures final (f a) fun b => P a → Q b) : Ensures final (x >>= f) Q := by
  intro s
  obtain ⟨hext, hthen⟩ := hx s
  obtain ⟨hext', hthen'⟩ := hf (x s).1 (x s).2
  refine ⟨⟨hext.symbols.trans hext'.symbols, hext.reports.trans hext'.reports⟩, fun hclean => ?_⟩
  apply hthen' hclean
  exact hthen
    ⟨hext'.symbols.trans hclean.symbols, fun d hd => hclean.reports d (hext'.reports.subset hd)⟩

/-- A first part that must give something for the rest to be reached without an error. -/
theorem Ensures.bindGiven {x : DeclareM (Option α)} {f : Option α → DeclareM β}
    (hx : Ensures final x (Given P)) (hnone : Ensures final (f none) fun _ => True)
    (hsome : ∀ a, Ensures final (f (some a)) fun b => P a → Q b) : Ensures final (x >>= f) Q := by
  refine hx.bind fun o => ?_
  cases o with
  | none => exact hnone.imp fun _ _ ⟨_, h, _⟩ => nomatch h
  | some a =>
      refine (hsome a).imp ?_
      rintro b hQ ⟨c, hc, hP⟩
      obtain rfl := Option.some.inj hc
      exact hQ hP

theorem Ensures.forM {xs : List β} {f : β → DeclareM PUnit} {R : β → Prop}
    (h : ∀ b ∈ xs, Ensures final (f b) fun _ => R b) :
    Ensures final (xs.forM f) fun _ => ∀ b ∈ xs, R b := by
  induction xs with
  | nil => exact .pure fun b hb => absurd hb List.not_mem_nil
  | cons b xs ih =>
      rw [List.forall_mem_cons] at h
      exact h.1.bind fun _ => (ih h.2).imp fun _ hxs hb => List.forall_mem_cons.mpr ⟨hb, hxs⟩

theorem Ensures.mapM {xs : List β} {f : β → DeclareM α} {R : β → α → Prop}
    (h : ∀ b ∈ xs, Ensures final (f b) (R b)) :
    Ensures final (xs.mapM f) fun as => List.Forall₂ R xs as := by
  induction xs with
  | nil =>
      rw [List.mapM_nil]
      exact .pure .nil
  | cons b xs ih =>
      rw [List.forall_mem_cons] at h
      rw [List.mapM_cons]
      exact h.1.bind fun a => (ih h.2).bind fun as => .pure fun has ha => .cons ha has

theorem report_ensures (span : Span) (cause : Cause) :
    Ensures final (report span cause) fun _ => False := by
  refine fun s => ⟨⟨List.prefix_refl _, List.prefix_append _ _⟩, fun hclean => ?_⟩
  cases hclean.reports _ (List.mem_append_right _ (List.mem_singleton_self _))

/-- A step that reports an error can give any result. -/
theorem report_then (span : Span) (cause : Cause) {x : DeclareM β}
    (hx : Ensures final x fun _ => True) : Ensures final (report span cause >>= fun _ => x) Q :=
  (report_ensures span cause).bind fun _ => hx.imp fun _ _ h => h.elim

end

variable {final : GlobalTable}

theorem add_ensures (symbol : Symbol) :
    Ensures final (add symbol) fun added => added = true ∧
      final.findName? symbol.name = some symbol := by
  intro s
  refine add_triple (I := fun s' => s' = s) (P := fun added s' => s.Extends s' ∧
    (s'.Clean final → added = true ∧ final.findName? symbol.name = some symbol)) ?_ ?_ s rfl
  · rintro s rfl hfresh
    refine ⟨⟨List.prefix_append _ _, List.prefix_refl _⟩, fun hclean => ⟨rfl, ?_⟩⟩
    have hnone : s.symbols.symbols.lookup symbol.id = none := hfresh
    have hlookup : (s.symbols.symbols ++ [(symbol.id, symbol)]).lookup symbol.id = some symbol := by
      rw [List.lookup_append, hnone, Option.none_or, List.lookup_cons_self]
    exact GlobalTable.find?_of_prefix hclean.symbols hlookup
  · rintro s d rfl hd
    refine ⟨⟨List.prefix_refl _, List.prefix_append _ _⟩, fun hclean => ?_⟩
    have hnoerror := hclean.reports d (List.mem_append_right _ (List.mem_singleton_self d))
    rw [hd] at hnoerror
    cases hnoerror

theorem register_ensures (ty : Ty) (span : Span) :
    Ensures final (register ty span) (Given fun ty' => ty'.same ty = true) := by
  intro s
  rw [register_run]
  cases hregister : s.registry.register ty with
  | ok p =>
      exact ⟨⟨List.prefix_refl _, List.prefix_refl _⟩, fun _ =>
        ⟨p.1, rfl, (Registry.register_ok hregister).1⟩⟩
  | error e =>
      refine ⟨⟨List.prefix_refl _, List.prefix_append _ _⟩, fun hclean => ?_⟩
      cases hclean.reports _ (List.mem_append_right _ (List.mem_singleton_self _))

theorem resolve_ensures (ref : TypeRef) :
    Ensures final (resolve ref) fun found => ∀ ty, found = .ok ty → ref.Denotes final ty := by
  intro s
  refine ⟨⟨List.prefix_refl _, List.prefix_refl _⟩, fun hclean ty hty => ?_⟩
  have hresolved : (resolveType s.symbols.findName? s.registry ref).1 = .ok ty := hty
  exact denotes_of_resolveType (fun _ hfind _ => GlobalTable.find?_of_prefix hclean.symbols hfind)
    hresolved

theorem resolveOrReport_ensures (ref : TypeRef) :
    Ensures final (resolveOrReport ref) (Given (ref.Denotes final)) := by
  refine (resolve_ensures ref).bind fun found => ?_
  cases found with
  | ok ty => exact .pure fun h => ⟨ty, rfl, h ty rfl⟩
  | error cause => exact report_then _ _ (.pure trivial)

end DeclareM

open DeclareM

variable {final : GlobalTable}

/-! ## Types -/

/-- Every member has a value. -/
theorem exists_memberValue {members : List MemberDecl} {m : MemberDecl} (hm : m ∈ members)
    (next : Int32) :
    ∃ value, (m, m.name, value) ∈ members.zip (memberValues next members) := by
  induction members generalizing next with
  | nil => cases hm
  | cons first rest ih =>
      rw [memberValues, List.zip_cons_cons]
      cases hm with
      | head => exact ⟨_, List.mem_cons_self⟩
      | tail _ hm =>
          obtain ⟨value, hvalue⟩ := ih hm (first.value.getD next + 1)
          exact ⟨value, List.mem_cons_of_mem _ hvalue⟩

theorem declareEnum_ensures (decl : EnumDecl) :
    Ensures final (declareEnum decl) fun _ => decl.KeptIn final := by
  refine (register_ensures _ _).bindGiven (.pure trivial) fun ty => ?_
  have htype : Ensures final (add ⟨decl.name, ty, decl.span, .type⟩) fun added =>
      added = true ∧ final.findName? decl.name = some ⟨decl.name, ty, decl.span, .type⟩ :=
        add_ensures _
  have hmember (m : MemberDecl × String × Int32) :
      Ensures final (add ⟨m.2.1, ty, m.1.span, .member m.2.2⟩ >>= fun _ => pure PUnit.unit) fun _ =>
        final.findName? m.2.1 = some ⟨m.2.1, ty, m.1.span, .member m.2.2⟩ :=
    (add_ensures _).bind fun _ => .pure And.right
  refine htype.bind fun _ => (Ensures.forM fun m _ => hmember m).imp ?_
  intro _ hmembers htype hsame
  refine ⟨ty, htype.2, ⟨_, hsame⟩, fun m hm => ?_⟩
  obtain ⟨value, hvalue⟩ := exists_memberValue hm 0
  exact ⟨value, hmembers (m, m.name, value) hvalue⟩

theorem structFields_ensures (seen : List String) (known : List (FieldDecl × Ty)) :
    Ensures final (structFields seen known) fun fields =>
      fields = known.map fun p => ⟨p.1.name, p.2, p.1.init⟩ := by
  induction known generalizing seen with
  | nil => exact .pure rfl
  | cons p known ih =>
      obtain ⟨decl, ty⟩ := p
      have hrest (init : Option Literal) : Ensures final
          (structFields (seen ++ [decl.name]) known >>= fun more =>
            pure (⟨decl.name, ty, init⟩ :: more)) fun fields =>
          fields = ⟨decl.name, ty, init⟩ :: known.map fun p => ⟨p.1.name, p.2, p.1.init⟩ :=
        (ih (seen ++ [decl.name])).bind fun more => .pure fun hmore => by rw [hmore]
      rw [structFields]
      split
      · exact report_then _ _ ((ih seen).imp fun _ _ => trivial)
      · cases hinit : decl.init with
        | none =>
            rw [List.map_cons, hinit]
            exact hrest none
        | some value =>
            cases herror : fieldInitError? ty value with
            | none =>
                simp only [herror]
                rw [List.map_cons, hinit]
                exact hrest (some value)
            | some e =>
                simp only [herror]
                exact report_then _ _ ((hrest none).imp fun _ _ => trivial)

/-- If the type of every field is found, no field is left out. -/
theorem keptFields {decls : List FieldDecl} {found : List (Except Cause Ty)}
    (hfound : List.Forall₂ (fun f r => ∀ ty, r = .ok ty → f.ty.Denotes final ty) decls found)
    (hnone : ((decls.zip found).filterMap fun (f, r) =>
      match r with
      | .error cause => some (f.ty.span, cause)
      | .ok _ => none) = []) :
    List.Forall₂ (FieldDecl.KeptAs final) decls
      (((decls.zip found).filterMap fun (f, r) =>
        match r with
        | .ok ty => some (f, ty)
        | .error _ => none).map fun p => ⟨p.1.name, p.2, p.1.init⟩) := by
  induction hfound with
  | nil => exact .nil
  | @cons f r decls found hf _ ih =>
      cases r with
      | error cause => cases hnone
      | ok ty => exact .cons ⟨rfl, hf ty rfl, rfl⟩ (ih hnone)

/-- An attempt that is not repeated has all fields. -/
theorem attemptStruct_ensures (decl : StructDecl) :
    Ensures final (attemptStruct decl) fun attempt => attempt = .pending ∨
      ∃ fields, attempt = .ready fields ∧
        List.Forall₂ (FieldDecl.KeptAs final) decl.fields fields := by
  refine (Ensures.mapM fun f _ => resolve_ensures f.ty).bind fun found => ?_
  simp only []
  split
  · exact .pure fun _ => .inl rfl
  · split
    · next hempty =>
        refine (structFields_ensures [] _).bind fun fields => .pure fun hfields hfound => ?_
        exact .inr ⟨fields, rfl, hfields ▸ keptFields hfound (List.isEmpty_iff.mp hempty)⟩
    · next hproblems =>
        refine (Ensures.forM fun p _ => report_ensures p.1 p.2).bind fun _ => .pure fun hnone => ?_
        rw [List.isEmpty_iff] at hproblems
        obtain ⟨p, hp⟩ := List.exists_mem_of_ne_nil _ hproblems
        exact (hnone p hp).elim

theorem registerStruct_ensures (decl : StructDecl) {fields : List Field} :
    Ensures final (registerStruct decl fields) fun _ =>
      List.Forall₂ (FieldDecl.KeptAs final) decl.fields fields → decl.KeptIn final := by
  refine (register_ensures _ _).bindGiven (.pure trivial) fun ty => ?_
  exact (add_ensures _).bind fun _ => .pure fun htype hsame hfields =>
    ⟨ty, fields, htype.2, hsame, hfields⟩

theorem structRound_ensures (queue : List StructDecl) :
    Ensures final (structRound queue) fun pending =>
      ∀ decl ∈ queue, decl ∈ pending ∨ decl.KeptIn final := by
  induction queue with
  | nil => exact .pure fun decl hdecl => absurd hdecl List.not_mem_nil
  | cons decl rest ih =>
      refine (attemptStruct_ensures decl).bind fun attempt => ?_
      cases attempt with
      | ready fields =>
          refine (registerStruct_ensures decl).bind fun _ => ih.imp ?_
          rintro pending hrest hkept (h | ⟨_, ⟨⟩, hfields⟩)
          · cases h
          · exact List.forall_mem_cons.mpr ⟨.inr (hkept hfields), hrest⟩
      | pending =>
          refine ih.bind fun pending => .pure fun hrest _ => ?_
          refine List.forall_mem_cons.mpr ⟨.inl List.mem_cons_self, fun d hd => ?_⟩
          exact (hrest d hd).imp (List.mem_cons_of_mem _) id
      | failed =>
          refine ih.imp ?_
          rintro pending _ (h | ⟨_, h, _⟩) <;> cases h

theorem declareStructs_ensures (queue : List StructDecl) :
    Ensures final (declareStructs queue) fun _ => ∀ decl ∈ queue, decl.KeptIn final := by
  induction queue using declareStructs.induct with
  | case1 queue hempty =>
      rw [declareStructs, if_pos hempty, List.isEmpty_iff.mp hempty]
      exact .pure fun decl hdecl => absurd hdecl List.not_mem_nil
  | case2 queue hempty ih =>
      rw [declareStructs, if_neg hempty]
      refine (structRound_ensures queue).bind fun pending => ?_
      split
      · next hprogress =>
          refine (ih pending hprogress).imp fun _ hpending hround decl hdecl => ?_
          exact (hround decl hdecl).elim (hpending decl) id
      · exact (report_ensures _ _).imp fun _ h => h.elim

/-! ## Variables and functions -/

theorem declareStatic_ensures (decl : StaticDecl) :
    Ensures final (declareStatic decl) (Given (decl.DeclaredAs final)) := by
  refine (resolveOrReport_ensures decl.ty).bindGiven (.pure trivial) fun ty => ?_
  refine (add_ensures _).bind fun added => ?_
  cases added with
  | true => exact .pure fun _ hty => ⟨_, rfl, rfl, hty, rfl, rfl, rfl⟩
  | false => exact .pure fun h => nomatch h.1

theorem declareGlobal_ensures (decl : GlobalDecl) :
    Ensures final (declareGlobal decl) (Given (decl.asStatic.DeclaredAs final)) := by
  refine (resolveOrReport_ensures decl.ty).bindGiven (.pure trivial) fun ty => ?_
  refine (add_ensures _).bind fun added => ?_
  cases added with
  | true => exact .pure fun _ hty => ⟨_, rfl, rfl, hty, rfl, rfl, rfl⟩
  | false => exact .pure fun h => nomatch h.1

theorem declareGlobals_ensures (decls : List GlobalDecl) :
    Ensures final (declareGlobals decls) fun found =>
      List.Forall₂ (fun decl d => decl.asStatic.DeclaredAs final d) decls found := by
  induction decls with
  | nil => exact .pure .nil
  | cons decl rest ih =>
      refine (declareGlobal_ensures decl).bind fun first => ih.bind fun more => .pure ?_
      rintro hmore ⟨d, rfl, hd⟩
      exact .cons hd hmore

/-- Types that were all found. -/
theorem forall₂_of_given {α β : Type} {R : α → β → Prop} {xs : List α} {found : List (Option β)}
    (h : List.Forall₂ (fun a o => Given (R a) o) xs found) :
    ∃ values, found.mapM id = some values ∧ List.Forall₂ R xs values := by
  induction h with
  | nil => exact ⟨[], rfl, .nil⟩
  | cons ha _ ih =>
      obtain ⟨value, rfl, hvalue⟩ := ha
      obtain ⟨values, hvalues, hrest⟩ := ih
      refine ⟨value :: values, ?_, .cons hvalue hrest⟩
      rw [List.mapM_cons, hvalues]
      rfl

theorem resolveSignature_ensures (params : List ParamDecl) (result : Option TypeRef) :
    Ensures final (resolveSignature params result)
      (Given (KeepsSignature final params result)) := by
  refine (Ensures.mapM fun p _ => resolveOrReport_ensures p.ty).bind fun found => ?_
  cases result with
  | none =>
      refine .pure fun hfound => ?_
      obtain ⟨values, hvalues, hparams⟩ := forall₂_of_given hfound
      rw [hvalues]
      exact ⟨(values, none), rfl, hparams, .none⟩
  | some ref =>
      refine (resolveOrReport_ensures ref).bind fun ty => .pure ?_
      rintro ⟨result, rfl, hresult⟩ hfound
      obtain ⟨values, hvalues, hparams⟩ := forall₂_of_given hfound
      rw [hvalues]
      exact ⟨(values, some result), rfl, hparams, .some hresult⟩

theorem declareCallable_ensures (name : String) (params : List ParamDecl) (result : Option TypeRef)
    (span : Span) (linkage : Linkage) :
    Ensures final (declareCallable name params result span linkage)
      (Given (KeepsSignature final params result)) := by
  refine (resolveSignature_ensures params result).bindGiven (.pure trivial) fun signature => ?_
  refine (register_ensures _ span).bindGiven (.pure trivial) fun ty => ?_
  refine (add_ensures _).bind fun added => ?_
  cases added with
  | true => exact .pure fun _ _ hsignature => ⟨_, rfl, hsignature⟩
  | false => exact .pure fun h => nomatch h.1

/-! ## Items -/

/-- What is declared are the variables and functions of these items, in order. -/
structure Declared.Lists (symbols : GlobalTable) (items : List Item) (declared : Declared) :
    Prop where
  statics : List.Forall₂ (StaticDecl.DeclaredAs symbols) (Script.statics items) declared.statics
  globals : List.Forall₂ (fun decl d => decl.asStatic.DeclaredAs symbols d)
    (Script.globalVars items) declared.globals
  natives : List.Forall₂ (NativeDecl.KeptAs symbols) (Script.natives items) declared.natives
  functions : List.Forall₂ (FunctionDecl.DeclaredAs symbols) (Script.functions items)
    declared.functions

theorem Declared.Lists.nil {symbols : GlobalTable} : Declared.Lists symbols [] {} :=
  ⟨.nil, .nil, .nil, .nil⟩

theorem Declared.Lists.append {symbols : GlobalTable} {items items' : List Item}
    {declared declared' : Declared} (h : declared.Lists symbols items)
    (h' : declared'.Lists symbols items') :
    Declared.Lists symbols (items ++ items') ⟨declared.statics ++ declared'.statics,
      declared.globals ++ declared'.globals, declared.natives ++ declared'.natives,
      declared.functions ++ declared'.functions⟩ where
  statics := by
    rw [Script.statics, List.filterMap_append]
    exact List.rel_append h.statics h'.statics
  globals := by
    rw [Script.globalVars, List.flatMap_append]
    exact List.rel_append h.globals h'.globals
  natives := by
    rw [Script.natives, List.filterMap_append]
    exact List.rel_append h.natives h'.natives
  functions := by
    rw [Script.functions, List.filterMap_append]
    exact List.rel_append h.functions h'.functions

theorem declareItem_ensures (block : Option GlobalBlockDecl) (declared : Declared)
    (items : List Item) (item : Item) :
    Ensures final (declareItem block declared item) fun r =>
      declared.Lists final items → r.2.Lists final (items ++ [item]) := by
  -- An item adds to one list at most; the other lists stay as they are.
  have hlists (more : Declared) {declared' : Declared} (hmore : more.Lists final [item])
      (heq : declared' = ⟨declared.statics ++ more.statics, declared.globals ++ more.globals,
        declared.natives ++ more.natives, declared.functions ++ more.functions⟩) :
      declared.Lists final items → declared'.Lists final (items ++ [item]) :=
    fun h => heq ▸ h.append hmore
  cases item with
  | enum decl =>
      exact .pure (hlists {} ⟨.nil, .nil, .nil, .nil⟩ (by simp only [List.append_nil]))
  | struct decl =>
      exact .pure (hlists {} ⟨.nil, .nil, .nil, .nil⟩ (by simp only [List.append_nil]))
  | static decl =>
      refine (declareStatic_ensures decl).bind fun found => .pure ?_
      rintro ⟨d, rfl, hd⟩
      exact hlists { statics := [d] } ⟨.cons hd .nil, .nil, .nil, .nil⟩
        (by simp only [List.append_nil, Option.toList_some])
  | globals new =>
      cases block with
      | some existing => exact report_then _ _ (.pure trivial)
      | none =>
          refine (declareGlobals_ensures new.vars).bind fun found => .pure fun hfound => ?_
          refine hlists { globals := found } ⟨.nil, ?_, .nil, .nil⟩
            (by simp only [List.append_nil])
          rw [Script.globalVars, List.flatMap_singleton]
          exact hfound
  | native decl =>
      refine (declareCallable_ensures _ _ _ _ _).bindGiven (.pure trivial) fun signature => .pure ?_
      intro hsignature
      exact hlists { natives := [⟨decl.name, signature.1, signature.2⟩] }
        ⟨.nil, .nil, .cons ⟨rfl, hsignature⟩ .nil, .nil⟩ (by simp only [List.append_nil])
  | function decl =>
      refine (declareCallable_ensures _ _ _ _ _).bindGiven (.pure trivial) fun signature => .pure ?_
      intro hsignature
      exact hlists { functions := [⟨decl, signature.1, signature.2⟩] }
        ⟨.nil, .nil, .nil, .cons ⟨rfl, hsignature⟩ .nil⟩ (by simp only [List.append_nil])

theorem declareItems_ensures (rest : List Item) (block : Option GlobalBlockDecl)
    (declared : Declared) (items : List Item) :
    Ensures final (declareItems block declared rest) fun declared' =>
      declared.Lists final items → declared'.Lists final (items ++ rest) := by
  induction rest generalizing block declared items with
  | nil =>
      rw [List.append_nil]
      exact .pure id
  | cons item rest ih =>
      refine (declareItem_ensures block declared items item).bind fun r => ?_
      refine (ih r.1 r.2 (items ++ [item])).imp fun _ hrest hitem hlists => ?_
      rw [List.append_cons]
      exact hrest (hitem hlists)

/-- What collecting the declarations of a script gives when no error is reported. -/
structure Declared.Complete (symbols : GlobalTable) (script : Script) (declared : Declared) : Prop
    extends declared.Lists symbols script where
  enums : ∀ decl ∈ script.enums, decl.KeptIn symbols
  structs : ∀ decl ∈ script.structs, decl.KeptIn symbols

theorem declareScript_ensures (script : Script) :
    Ensures final (declareScript script) (Declared.Complete final script) := by
  refine (Ensures.forM fun decl _ => declareEnum_ensures decl).bind fun _ => ?_
  refine (declareStructs_ensures script.structs).bind fun _ => ?_
  refine (declareItems_ensures script none {} []).imp fun _ hitems hstructs henums => ?_
  exact ⟨hitems .nil, henums, hstructs⟩

end GameScript
