import GameScript.Proofs.ScriptTyping
import GameScript.Proofs.SourcePlaces

/-!
# What statements are translated to

Every statement of the source becomes one typed statement of its kind, at the same place and with
its blocks translated in the same way. Only declarations of variables are different: one with an
initial value becomes an assignment, one without becomes the initialization of its defaults if the
type has any, and otherwise it leaves nothing but a variable of the frame. A translation lists these
variables, so that a declaration that leaves no statement is accounted for all the same.
-/
namespace GameScript

/-! ## Written types -/

/-- `ty` is made from `base` by an array for each length, the first one innermost. Types are
compared as the registry compares them. -/
inductive Ty.Arrays : Ty → List UInt32 → Ty → Prop where
  | nil {base} : Arrays base [] base
  | cons {base array ty n lengths} : array.same (.array base n) = true → Arrays array lengths ty →
      Arrays base (n :: lengths) ty

/-- The written type stands for `ty`. -/
def TypeRef.Denotes (symbols : GlobalTable) (ref : TypeRef) (ty : Ty) : Prop :=
  ∃ base, symbols.findType? ref.name = some base ∧ base.Arrays ref.lengths ty

theorem internArrays_arrays {lengths : List UInt32} {r : Registry} {base ty : Ty}
    (h : (internArrays r base lengths).1 = .ok ty) : base.Arrays lengths ty := by
  induction lengths generalizing r base with
  | nil =>
      obtain rfl := Except.ok.inj h
      exact .nil
  | cons n lengths ih =>
      rw [internArrays] at h
      cases hregister : r.registerArray base n with
      | error e =>
          rw [hregister] at h
          cases h
      | ok p =>
          rw [hregister] at h
          exact .cons (Registry.register_ok hregister).1 (ih h)

/-- A type that is found stands in the table, if every type that can be found does. -/
theorem denotes_of_resolveType {symbols : GlobalTable} {find? : String → Option Symbol}
    {r : Registry} {ref : TypeRef} {ty : Ty} (hfind : ∀ s, find? ref.name = some s →
      s.kind.isType = true → symbols.findName? ref.name = some s)
    (h : (resolveType find? r ref).1 = .ok ty) : ref.Denotes symbols ty := by
  unfold resolveType at h
  cases hs : find? ref.name with
  | none =>
      rw [hs] at h
      cases h
  | some s =>
      cases htype : s.kind.isType with
      | false =>
          simp only [hs, htype, Bool.false_eq_true, if_false] at h
          cases h
      | true =>
          simp only [hs, htype, if_true] at h
          rcases hintern : internArrays r s.ty ref.lengths with ⟨found, r'⟩
          rw [hintern] at h
          cases found with
          | error e => cases h
          | ok ty' =>
              obtain rfl := Except.ok.inj h
              refine ⟨s.ty, ?_, internArrays_arrays (congrArg Prod.fst hintern)⟩
              rw [GlobalTable.findType?, hfind s hs htype]
              exact if_pos htype

/-! ## Statements -/

mutual

/-- The statement is translated to these statements, and declares these variables. -/
inductive Stmt.Becomes (symbols : GlobalTable) : Stmt → List Variable → List TypedStmt → Prop where
  /-- The type of a variable may be taken over from its initial value. -/
  | varInit {span name ref e declared ty slot} {x : TypedExpr} : ref.Denotes symbols declared →
      ty = declared ∨ declared = .auto ∧ ty = x.ty → x.span = e.span →
      Becomes symbols (.var span name ref (some e)) [⟨name, ty⟩] [.assign (.frame ty span slot) x]
  | varDefault {span name ref ty slot} : ref.Denotes symbols ty → ty.needsDefaultInit = true →
      Becomes symbols (.var span name ref none) [⟨name, ty⟩] [.defaultInit (.frame ty span slot)]
  | varPlain {span name ref ty} : ref.Denotes symbols ty → ty.needsDefaultInit = false →
      Becomes symbols (.var span name ref none) [⟨name, ty⟩] []
  | assign {span target value} {x y : TypedExpr} : x.span = target.span → y.span = value.span →
      Becomes symbols (.assign span target value) [] [.assign x y]
  | cond {span condition thenBody elseBody vars vars' typed typed'} {x : TypedExpr} :
      x.span = condition.span → Stmt.BlockBecomes symbols thenBody vars typed →
      Stmt.BlockBecomes symbols elseBody vars' typed' →
      Becomes symbols (.cond span condition thenBody elseBody) (vars ++ vars')
        [.cond x typed typed']
  | whileLoop {span condition body vars typed} {x : TypedExpr} : x.span = condition.span →
      Stmt.BlockBecomes symbols body vars typed →
      Becomes symbols (.whileLoop span condition body) vars [.whileLoop x typed]
  | repeatLoop {span limit counter body vars typed} {x y : TypedExpr} : x.span = limit.span →
      y.span = counter.span → Stmt.BlockBecomes symbols body vars typed →
      Becomes symbols (.repeatLoop span limit counter body) vars [.repeatLoop x y typed]
  | switch {span value cases vars typed} {x : TypedExpr} : x.span = value.span →
      Stmt.CasesBecome symbols cases vars typed →
      Becomes symbols (.switch span value cases none) vars [.switch x typed none]
  | switchDefault {span value cases body vars vars' typed typed'} {x : TypedExpr} :
      x.span = value.span →
      Stmt.CasesBecome symbols cases vars typed → Stmt.BlockBecomes symbols body vars' typed' →
      Becomes symbols (.switch span value cases (some body)) (vars ++ vars')
        [.switch x typed (some typed')]
  | leave {span} : Becomes symbols (.ret span none) [] [.ret none]
  | ret {span value} {x : TypedExpr} : x.span = value.span →
      Becomes symbols (.ret span (some value)) [] [.ret (some x)]
  | call {span e} {x : TypedExpr} : x.span = e.span → x.isCall = true →
      Becomes symbols (.call span e) [] [.expr x]
  | label {span name} : Becomes symbols (.label span name) [] [.label name]
  | goto {span name target} : Identity.ofName target = Identity.ofName name →
      Becomes symbols (.goto span name) [] [.goto target]
  | block {span body vars typed} : Stmt.BlockBecomes symbols body vars typed →
      Becomes symbols (.block span body) vars [.block typed]

inductive Stmt.BlockBecomes (symbols : GlobalTable) : List Stmt → List Variable → List TypedStmt →
    Prop where
  | nil : Stmt.BlockBecomes symbols [] [] []
  | cons {s body vars vars' typed typed'} : Stmt.Becomes symbols s vars typed →
      Stmt.BlockBecomes symbols body vars' typed' →
      Stmt.BlockBecomes symbols (s :: body) (vars ++ vars') (typed ++ typed')

/-- Every case of a switch is kept, with a constant for its value. -/
inductive Stmt.CasesBecome (symbols : GlobalTable) : List SwitchCase → List Variable →
    List TypedCase → Prop where
  | nil : Stmt.CasesBecome symbols [] [] []
  | cons {e body span cases value vars vars' typed typed'} :
      (∀ place v, e = .literal place (.int v) → value = v) →
      Stmt.BlockBecomes symbols body vars typed → Stmt.CasesBecome symbols cases vars' typed' →
      Stmt.CasesBecome symbols (⟨e, body, span⟩ :: cases) (vars ++ vars') (⟨value, typed⟩ :: typed')

end

/-! ## Steps of checking a body -/

/-- Only the table gives names to types: what a function declares by itself is storage. -/
structure Scope.Over (symbols : GlobalTable) (s : Scope) : Prop where
  globals : s.globals = symbols
  blocks : ∀ t ∈ s.innermost :: s.enclosing, ∀ e ∈ t, e.2.kind.isType = false

theorem Scope.Over.find {symbols : GlobalTable} {scope : Scope} (h : scope.Over symbols)
    {name : String} {s : Symbol} (hs : scope.findName? name = some s)
    (htype : s.kind.isType = true) :
    symbols.findName? name = some s := by
  unfold Scope.findName? Scope.find? at hs
  split at hs
  · next symbol hblock =>
      obtain rfl := Option.some.inj hs
      obtain ⟨t, ht, hfind⟩ := List.exists_of_findSome?_eq_some hblock
      have hstorage := h.blocks t ht _ (mem_of_lookup hfind)
      rw [htype] at hstorage
      cases hstorage
  · rw [h.globals] at hs
    exact hs

/-- A step that ends without an error adds variables to the frame; the property holds of these and
of the result. -/
def BodyM.Adds {α : Type} (symbols : GlobalTable) (x : BodyM α) (P : List Variable → α → Prop) :
    Prop :=
  ∀ s : BodyState, s.scope.Over symbols → (x s).2.scope.Over symbols ∧
    s.diagnostics.items <+: (x s).2.diagnostics.items ∧
    ((x s).2.diagnostics.Clean → ∃ vars, (x s).2.scope.locals = s.scope.locals ++ vars ∧
      P vars (x s).1)

namespace BodyM

section
variable {symbols : GlobalTable} {α β : Type} {P : List Variable → α → Prop}
  {Q : List Variable → β → Prop}

theorem Adds.pure {a : α} (h : P [] a) : Adds symbols (Pure.pure a) P :=
  fun _ hs => ⟨hs, List.prefix_refl _, fun _ => ⟨[], (List.append_nil _).symm, h⟩⟩

theorem Adds.imp {x : BodyM α} {P' : List Variable → α → Prop} (hx : Adds symbols x P)
    (h : ∀ vars a, P vars a → P' vars a) : Adds symbols x P' := by
  intro s hs
  obtain ⟨hscope, hreports, hthen⟩ := hx s hs
  refine ⟨hscope, hreports, fun hclean => ?_⟩
  obtain ⟨vars, hvars, hP⟩ := hthen hclean
  exact ⟨vars, hvars, h vars _ hP⟩

theorem Adds.bind {x : BodyM α} {f : α → BodyM β} (hx : Adds symbols x P)
    (hf : ∀ a, Adds symbols (f a) fun vars b => ∀ before, P before a → Q (before ++ vars) b) :
    Adds symbols (x >>= f) Q := by
  intro s hs
  obtain ⟨hscope, hreports, hthen⟩ := hx s hs
  obtain ⟨hscope', hreports', hthen'⟩ := hf (x s).1 (x s).2 hscope
  refine ⟨hscope', hreports.trans hreports', fun hclean => ?_⟩
  obtain ⟨before, hbefore, hP⟩ := hthen fun d hd => hclean d (hreports'.subset hd)
  obtain ⟨vars, hvars, hQ⟩ := hthen' hclean
  refine ⟨before ++ vars, ?_, hQ before hP⟩
  rw [← List.append_assoc, ← hbefore]
  exact hvars

/-- The result has the property, and no variables are added. -/
def Keeps (P : α → Prop) (vars : List Variable) (a : α) : Prop := vars = [] ∧ P a

/-- A first part that adds no variables. -/
theorem Adds.bindKeeps {x : BodyM α} {f : α → BodyM β} {R : α → Prop}
    (hx : Adds symbols x (Keeps R)) (hf : ∀ a, Adds symbols (f a) fun vars b => R a → Q vars b) :
    Adds symbols (x >>= f) Q := by
  refine hx.bind fun a => (hf a).imp ?_
  rintro vars b hQ _ ⟨rfl, hR⟩
  exact hQ hR

/-- A first part that adds no variables and must give something. -/
theorem Adds.bindGiven {x : BodyM (Option α)} {f : Option α → BodyM β} {R : α → Prop}
    (hx : Adds symbols x (Keeps (Given R))) (hnone : Adds symbols (f none) fun _ _ => True)
    (hsome : ∀ a, Adds symbols (f (some a)) fun vars b => R a → Q vars b) :
    Adds symbols (x >>= f) Q := by
  refine hx.bindKeeps fun o => ?_
  cases o with
  | none => exact hnone.imp fun _ _ _ ⟨_, h, _⟩ => nomatch h
  | some a =>
      refine (hsome a).imp ?_
      rintro vars b hQ ⟨c, hc, hR⟩
      obtain rfl := Option.some.inj hc
      exact hQ hR

theorem report_adds (span : Span) (cause : Cause) :
    Adds symbols (report span cause) fun _ _ => False := by
  refine fun s hs => ⟨hs, List.prefix_append _ _, fun hclean => ?_⟩
  cases hclean _ (List.mem_append_right _ (List.mem_singleton_self _))

/-- A step that reports an error can give any result. -/
theorem report_thenAdds (span : Span) (cause : Cause) {x : BodyM β}
    (hx : Adds symbols x fun _ _ => True) : Adds symbols (report span cause >>= fun _ => x) Q :=
  (report_adds span cause).bind fun _ => hx.imp fun _ _ _ _ h => h.elim

theorem take_adds {x : BodyState → Checked α} {R : α → Prop} (h : ∀ s : BodyState, (x s).Yields R) :
    Adds symbols (do take (x (← get))) (Keeps (Given R)) := by
  refine fun s hs =>
    ⟨hs, List.prefix_append _ _, fun hclean => ⟨[], (List.append_nil _).symm, rfl, ?_⟩⟩
  cases hvalue : (x s).value? with
  | some a => exact ⟨a, hvalue, (h s).value a hvalue⟩
  | none =>
      obtain ⟨d, hd, herror⟩ := (h s).report hvalue
      have hnoerror := hclean d (List.mem_append_right _ hd)
      rw [herror] at hnoerror
      cases hnoerror

end

variable {symbols : GlobalTable}

theorem value_adds (e : Expr) : Adds symbols (value e) (Keeps (Given (·.span = e.span))) :=
  take_adds fun s => typeValue_stands s.scope e

theorem required_yields {e : Expr} {R : TypedExpr → Prop}
    (h : ∀ scope, (typeValue scope e).Yields R) (ty : Ty) (context : String) :
    Adds symbols (required e ty context) (Keeps (Given R)) := by
  have hvalue : Adds symbols (value e) (Keeps (Given R)) := take_adds fun s => h s.scope
  refine hvalue.bindGiven (.pure trivial) fun x => ?_
  simp only []
  split
  · exact .pure fun hx => ⟨rfl, x, rfl, hx⟩
  · exact report_thenAdds _ _ (.pure trivial)

theorem required_adds (e : Expr) (ty : Ty) (context : String) :
    Adds symbols (required e ty context) (Keeps (Given (·.span = e.span))) :=
  required_yields (fun scope => typeValue_stands scope e) ty context

theorem fit_adds (x : TypedExpr) (ty : Ty) (span : Span) :
    Adds symbols (fit x ty span)
      (Keeps (Given fun y => y.span = x.span ∧ (ty = x.ty → y = x))) := by
  unfold fit
  cases hcoerce : coerce x ty with
  | ok y => exact .pure ⟨rfl, y, rfl, Typing.coerce_stands hcoerce⟩
  | error found => exact report_thenAdds _ _ (.pure trivial)

theorem localType_adds (ref : TypeRef) :
    Adds symbols (localType ref) (Keeps (Given (ref.Denotes symbols))) := by
  intro s hs
  rw [localType_run]
  cases hresolve : (resolveType s.scope.findName? s.registry ref).1 with
  | ok ty =>
      refine ⟨hs, List.prefix_refl _, fun _ => ⟨[], (List.append_nil _).symm, rfl, ty, rfl, ?_⟩⟩
      exact denotes_of_resolveType (fun _ hfind htype => hs.find hfind htype) hresolve
  | error cause =>
      exact report_thenAdds ref.span cause (.pure trivial) { s with registry := _ } hs

theorem declareLocal_adds (name : String) (ty : Ty) (span : Span) :
    Adds symbols (declareLocal name ty span) fun vars o =>
      vars = [⟨name, ty⟩] ∧ Given (fun _ => True) o := by
  intro s hs
  rcases declareLocal_cases name ty span s with ⟨e, hrun⟩ | hrun
  · have hrefused : Adds symbols (report span (.declaration e) >>= fun _ => pure none)
        fun vars (o : Option UInt32) => vars = [⟨name, ty⟩] ∧ Given (fun _ => True) o :=
      report_thenAdds _ _ (.pure trivial)
    rw [hrun]
    exact hrefused s hs
  · rw [hrun]
    refine ⟨⟨hs.globals, ?_⟩, List.prefix_refl _, fun _ => ⟨_, rfl, rfl, _, rfl, trivial⟩⟩
    have hblocks := hs.blocks
    rw [List.forall_mem_cons] at hblocks ⊢
    exact ⟨List.forall_mem_append.mpr ⟨hblocks.1, List.forall_mem_singleton.mpr rfl⟩, hblocks.2⟩

theorem inBlock_adds {α : Type} {P : List Variable → α → Prop} {x : BodyM α}
    (hx : Adds symbols x P) : Adds symbols (inBlock x) P := by
  intro s hs
  have hpushed : s.scope.push.Over symbols := by
    refine ⟨hs.globals,
      List.forall_mem_cons.mpr ⟨fun e he => absurd he List.not_mem_nil, hs.blocks⟩⟩
  obtain ⟨hscope, hreports, hthen⟩ := hx { s with scope := s.scope.push } hpushed
  have hpop (scope : Scope) (h : scope.Over symbols) :
      scope.pop.Over symbols ∧ scope.pop.locals = scope.locals := by
    unfold Scope.pop
    cases henclosing : scope.enclosing with
    | nil => exact ⟨h, rfl⟩
    | cons outer rest =>
        have hblocks := h.blocks
        rw [henclosing, List.forall_mem_cons] at hblocks
        exact ⟨⟨h.globals, hblocks.2⟩, rfl⟩
  obtain ⟨hpopped, hlocals⟩ := hpop _ hscope
  refine ⟨hpopped, hreports, fun hclean => ?_⟩
  obtain ⟨vars, hvars, hP⟩ := hthen hclean
  exact ⟨vars, hlocals.trans hvars, hP⟩

theorem counter_adds (e : Expr) : Adds symbols (counter e) (Keeps (Given (·.span = e.span))) := by
  refine (required_adds e .int _).bindGiven (.pure trivial) fun x => ?_
  simp only []
  split
  · exact .pure fun hx => ⟨rfl, x, rfl, hx⟩
  · exact report_thenAdds _ _ (.pure trivial)

/-- Integers that are written out keep their value. -/
theorem caseValue_adds (e : Expr) :
    Adds symbols (caseValue e)
      (Keeps (Given fun v => ∀ place w, e = .literal place (.int w) → v = w)) := by
  have hliteral (scope : Scope) : (typeValue scope e).Yields fun x =>
      ∀ place w, e = .literal place (.int w) → x.intConstant? = some w := by
    by_cases h : ∃ place w, e = .literal place (.int w)
    · obtain ⟨place, w, rfl⟩ := h
      exact .pure fun _ _ heq => by
        cases heq
        rfl
    · exact (typeValue_stands scope e).imp fun _ _ place w heq => absurd ⟨place, w, heq⟩ h
  refine (required_yields hliteral .int _).bindGiven (.pure trivial) fun x => ?_
  cases hconstant : x.intConstant? with
  | none =>
      simp only [hconstant]
      exact report_thenAdds _ _ (.pure trivial)
  | some v =>
      simp only [hconstant]
      refine .pure fun hx => ⟨rfl, v, rfl, fun place w heq => ?_⟩
      exact Option.some.inj (hx place w heq)

theorem assign_adds (span : Span) (target value : Expr) :
    Adds symbols (assign span target value) (Stmt.Becomes symbols (.assign span target value)) := by
  refine (value_adds target).bindGiven ?_ fun x => ?_
  · exact (value_adds value).bindKeeps fun _ => .pure fun _ => trivial
  refine (value_adds value).bindGiven (.pure trivial) fun y => ?_
  simp only []
  split
  · refine (fit_adds y x.ty span).bindGiven (.pure trivial) fun z => ?_
    exact .pure fun hz hy hx => .assign hx (hz.1.trans hy)
  · exact report_thenAdds _ _ (.pure trivial)

theorem declare_adds (span : Span) (name : String) (ref : TypeRef) (init : Option Expr) :
    Adds symbols (declare span name ref init) (Stmt.Becomes symbols (.var span name ref init)) := by
  refine (localType_adds ref).bindGiven (.pure trivial) fun declared => ?_
  have hfailed (ty : Ty) {f : Option UInt32 → BodyM (List TypedStmt)} (hf : ∀ o, f o = pure []) :
      Adds symbols (declareLocal name ty span >>= f) fun _ _ => True := by
    refine (declareLocal_adds name ty span).bind fun o => ?_
    rw [hf]
    exact .pure fun _ _ => trivial
  cases init with
  | none =>
      simp only [pure_bind]
      refine (declareLocal_adds name declared span).bind fun o => ?_
      cases o with
      | none =>
          refine .pure ?_
          rintro _ ⟨_, _, h, -⟩
          cases h
      | some slot =>
          cases hdefault : declared.needsDefaultInit with
          | true =>
              simp only [Option.isNone_none, Bool.and_self, if_true]
              refine .pure ?_
              rintro _ ⟨rfl, -⟩ hdenotes
              exact .varDefault hdenotes hdefault
          | false =>
              simp only [Bool.and_false, Bool.false_eq_true, if_false]
              refine .pure ?_
              rintro _ ⟨rfl, -⟩ hdenotes
              exact .varPlain hdenotes hdefault
  | some e =>
      refine (value_adds e).bindGiven ?_ fun x => ?_
      · simp only [pure_bind]
        exact hfailed declared fun o => by cases o <;> rfl
      · simp only []
        refine (fit_adds x _ e.span).bindGiven (hfailed _ fun o => by cases o <;> rfl) fun y => ?_
        refine (declareLocal_adds name _ span).bind fun o => ?_
        cases o with
        | none =>
            refine .pure ?_
            rintro _ ⟨_, _, h, -⟩
            cases h
        | some slot =>
            refine .pure ?_
            rintro _ ⟨rfl, -⟩ ⟨hspan, hsame⟩ hx hdenotes
            refine .varInit hdenotes ?_ (hspan.trans hx)
            split at hsame
            · next hauto =>
                rw [Bool.and_eq_true] at hauto
                have hdeclared := Ty.eq_of_beq_scalar hauto.1 (by simp)
                refine .inr ⟨hdeclared, ?_⟩
                rw [hsame rfl, if_pos (by rw [Bool.and_eq_true]; exact hauto)]
            · next hauto => exact .inl (if_neg hauto)

theorem ret_adds (result : Option Ty) (span : Span) (value : Option Expr) :
    Adds symbols (ret result span value) fun vars s =>
      Stmt.Becomes symbols (.ret span value) vars [s] := by
  rcases value with _ | v <;> rcases result with _ | ty
  · exact .pure .leave
  · exact report_thenAdds _ _ (.pure trivial)
  · exact report_thenAdds _ _ (.pure trivial)
  · refine (value_adds v).bindGiven (.pure trivial) fun x => ?_
    cases hcoerce : coerce x ty with
    | error found =>
        simp only [hcoerce]
        exact report_thenAdds _ _ (.pure trivial)
    | ok y =>
        simp only [hcoerce]
        exact .pure fun hx => .ret ((Typing.coerce_stands hcoerce).1.trans hx)

theorem callStmt_adds (span : Span) (e : Expr) :
    Adds symbols (callStmt e) (Stmt.Becomes symbols (.call span e)) := by
  unfold callStmt
  split
  · next place callee args =>
      have hcall : Adds symbols (value (.call place callee args))
          (Keeps (Given fun x => x.span = place ∧ x.isCall = true)) :=
        take_adds fun s => typeValue_call_stands s.scope place callee args
      refine hcall.bindGiven (.pure trivial) fun x => ?_
      exact .pure fun hx => .call hx.1 hx.2
  · exact report_thenAdds _ _ (.pure trivial)

end BodyM

/-- A label is found only under its own identity. -/
def BodyContext.Finds (ctx : BodyContext) : Prop :=
  ∀ name l, ctx.labels.findName? name = some l → Identity.ofName l.name = Identity.ofName name

open BodyM in
mutual

/-- A statement that is checked without an error is translated. -/
theorem checkStmt_adds {symbols : GlobalTable} {ctx : BodyContext} : (s : Stmt) →
    Adds symbols (checkStmt ctx s) fun vars typed => ctx.Finds → Stmt.Becomes symbols s vars typed
  | .var span name ty init => by
      rw [checkStmt]
      exact (declare_adds span name ty init).imp fun _ _ h _ => h
  | .assign span target value => by
      rw [checkStmt]
      exact (assign_adds span target value).imp fun _ _ h _ => h
  | .cond _ condition thenBody elseBody => by
      rw [checkStmt]
      refine (required_adds condition .bool _).bindKeeps fun c =>
        (inBlock_adds (checkBlock_adds thenBody)).bind fun b =>
        (inBlock_adds (checkBlock_adds elseBody)).bind fun b' => ?_
      cases c with
      | none => exact .pure fun _ _ _ _ ⟨_, h, _⟩ => nomatch h
      | some c =>
          refine .pure ?_
          rintro vars' hb' vars hb ⟨x, ⟨⟩, hspan⟩ hfinds
          rw [List.append_nil]
          exact .cond hspan (hb hfinds) (hb' hfinds)
  | .whileLoop _ condition body => by
      rw [checkStmt]
      refine (required_adds condition .bool _).bindKeeps fun c =>
        (inBlock_adds (checkBlock_adds body)).bind fun b => ?_
      cases c with
      | none => exact .pure fun _ _ ⟨_, h, _⟩ => nomatch h
      | some c =>
          refine .pure ?_
          rintro vars hb ⟨x, ⟨⟩, hspan⟩ hfinds
          rw [List.append_nil]
          exact .whileLoop hspan (hb hfinds)
  | .repeatLoop _ limit counter body => by
      rw [checkStmt]
      refine (required_adds limit .int _).bindKeeps fun l =>
        (counter_adds counter).bindKeeps fun c =>
        (inBlock_adds (checkBlock_adds body)).bind fun b => ?_
      rcases l with _ | l
      · exact .pure fun _ _ _ ⟨_, h, _⟩ => nomatch h
      rcases c with _ | c
      · exact .pure fun _ _ ⟨_, h, _⟩ => nomatch h
      refine .pure ?_
      rintro vars hb ⟨y, ⟨⟩, hcounter⟩ ⟨x, ⟨⟩, hlimit⟩ hfinds
      rw [List.append_nil]
      exact .repeatLoop hlimit hcounter (hb hfinds)
  | .switch _ value cases none => by
      rw [checkStmt]
      simp only [pure_bind]
      refine (required_adds value .int _).bindKeeps fun v => (checkCases_adds [] cases).bind
        fun cs => ?_
      cases v with
      | none => exact .pure fun _ _ ⟨_, h, _⟩ => nomatch h
      | some v =>
          refine .pure ?_
          rintro vars hcs ⟨x, ⟨⟩, hspan⟩ hfinds
          rw [List.append_nil]
          exact .switch hspan (hcs hfinds)
  | .switch _ value cases (some default) => by
      rw [checkStmt]
      refine (required_adds value .int _).bindKeeps fun v => (checkCases_adds [] cases).bind
        fun cs => ?_
      simp only [pure_bind]
      refine (inBlock_adds (checkBlock_adds default)).bind fun b => ?_
      cases v with
      | none => exact .pure fun _ _ _ _ ⟨_, h, _⟩ => nomatch h
      | some v =>
          refine .pure ?_
          rintro vars' hb vars hcs ⟨x, ⟨⟩, hspan⟩ hfinds
          rw [List.append_nil]
          exact .switchDefault hspan (hcs hfinds) (hb hfinds)
  | .ret span value => by
      rw [checkStmt]
      refine (ret_adds ctx.result span value).bind fun s => .pure ?_
      intro vars h _
      rw [List.append_nil]
      exact h
  | .call span e => by
      rw [checkStmt]
      exact (callStmt_adds span e).imp fun _ _ h _ => h
  | .label _ name => by
      rw [checkStmt]
      exact .pure fun _ => .label
  | .goto span name => by
      rw [checkStmt]
      cases hfind : ctx.labels.findName? name with
      | some l => exact .pure fun hfinds => .goto (hfinds name l hfind)
      | none => exact report_thenAdds _ _ (.pure trivial)
  | .block _ body => by
      rw [checkStmt]
      refine (inBlock_adds (checkBlock_adds body)).bind fun b => .pure ?_
      intro vars hb hfinds
      rw [List.append_nil]
      exact .block (hb hfinds)

theorem checkBlock_adds {symbols : GlobalTable} {ctx : BodyContext} : (body : List Stmt) →
    Adds symbols (checkBlock ctx body) fun vars typed =>
      ctx.Finds → Stmt.BlockBecomes symbols body vars typed
  | [] => by
      rw [checkBlock]
      exact .pure fun _ => .nil
  | s :: rest => by
      rw [checkBlock]
      refine (checkStmt_adds s).bind fun first => (checkBlock_adds rest).bind fun more => .pure ?_
      intro vars' hmore vars hfirst hfinds
      rw [List.append_nil]
      exact .cons (hfirst hfinds) (hmore hfinds)

theorem checkCases_adds {symbols : GlobalTable} {ctx : BodyContext} (seen : List Int32) :
    (cases : List SwitchCase) → Adds symbols (checkCases ctx seen cases) fun vars typed =>
      ctx.Finds → Stmt.CasesBecome symbols cases vars typed
  | [] => by
      rw [checkCases]
      exact .pure fun _ => .nil
  | ⟨e, body, span⟩ :: rest => by
      rw [checkCases]
      refine (caseValue_adds e).bindKeeps fun v => (inBlock_adds (checkBlock_adds body)).bind
        fun b => ?_
      cases v with
      | none => exact (checkCases_adds seen rest).imp fun _ _ _ _ _ ⟨_, h, _⟩ => nomatch h
      | some v =>
          simp only []
          split
          · exact report_thenAdds _ _ ((checkCases_adds seen rest).imp fun _ _ _ => trivial)
          · refine (checkCases_adds (seen ++ [v]) rest).bind fun more => .pure ?_
            rintro vars' hmore vars hb ⟨w, ⟨⟩, hvalue⟩ hfinds
            rw [List.append_nil]
            exact .cons hvalue (hb hfinds) (hmore hfinds)

end

end GameScript
