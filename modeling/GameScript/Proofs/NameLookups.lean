import GameScript.Proofs.NameUses

/-!
# Checking looks up every name

Unless it reports an error, the checker finds a symbol for every name of an expression, and goes
through a body with exactly the scopes that its declarations and blocks make. No name is passed over
because of an early exit: where a part is skipped, an error has been reported. How the symbols are
spelled plays no part here.
-/
namespace GameScript

/-! ## Expressions -/

namespace Typing

variable {p : Prop}

theorem asValue_reports {x : Checked TypedExpr} (h : x.Yields fun _ => p) :
    (asValue x).Yields fun _ => p := by
  apply h.bind
  intro value hp
  split
  · exact .fail _ _
  · exact .pure hp

theorem component_keeps {x : Checked TypedExpr} (h : x.Yields fun _ => p) (span : Span) :
    (component span x).Yields fun _ => p := by
  apply h.bind
  intro value hp
  split
  · exact .pure hp
  · exact .fail _ _

theorem name_resolves (scope : Scope) (span : Span) (name : String) :
    (Typing.name scope span name).Yields fun _ => scope.Resolves AnySpelling name := by
  unfold Typing.name
  cases hfind : scope.findName? name with
  | none => exact .fail _ _
  | some s =>
      have hfound : scope.Resolves AnySpelling name := ⟨s, hfind, trivial⟩
      simp only []
      split
      case h_7 => exact .fail _ _
      all_goals exact .pure hfound

/-- An argument is checked whether or not there is a parameter for it. -/
theorem arguments_cons {q : Prop} {span : Span} {x : Checked TypedExpr}
    {rest : List (Span × Checked TypedExpr)} (hx : x.Yields fun _ => p)
    (hrest : ∀ i params, (arguments i params rest).Yields fun _ => q) (i : Nat) (params : List Ty) :
    (arguments i params ((span, x) :: rest)).Yields fun _ => p ∧ q := by
  rw [arguments]
  apply Checked.Yields.map
  refine Checked.Yields.both (P := fun _ => p) ?_ (hrest (i + 1) params.tail)
  apply hx.bind
  intro value hp
  cases params with
  | nil => exact .pure hp
  | cons param params =>
      simp only []
      split
      · exact .pure hp
      · exact .fail _ _

theorem call_resolves (scope : Scope) (callee : Expr) {args : List (Span × Checked TypedExpr)}
    (hargs : ∀ i params, (arguments i params args).Yields fun _ => p) (span : Span) :
    (Typing.call scope callee args span).Yields fun _ => callee.Resolves AnySpelling scope ∧ p := by
  unfold Typing.call
  split
  · next place name =>
      cases hfind : scope.findName? name with
      | none => exact .fail _ _
      | some s =>
          have hcallee : (Expr.name place name).Resolves AnySpelling scope :=
            List.forall_mem_singleton.mpr ⟨s, hfind, trivial⟩
          simp only []
          split
          · next linkage result params _ _ =>
              refine Checked.Yields.bind ((argumentCount_yields params.length args.length span).both
                (hargs 0 params)) fun _ hp => ?_
              cases linkage with
              | script => exact .pure ⟨hcallee, hp.2⟩
              | native => exact .pure ⟨hcallee, hp.2⟩
          · exact .fail _ _
          · exact .fail _ _
  · exact .fail _ _

end Typing

mutual

/-- Every name of an expression is found, or an error is reported. -/
theorem typeExpr_resolves (scope : Scope) : (e : Expr) →
    (typeExpr scope e).Yields fun _ => e.Resolves AnySpelling scope
  | .literal span value =>
      (typeExpr_stands scope (.literal span value)).imp fun _ _ _ hname =>
        absurd hname List.not_mem_nil
  | .name span name =>
      (Typing.name_resolves scope span name).imp fun _ h => List.forall_mem_singleton.mpr h
  | .unary span op operand =>
      (Typing.asValue_reports (typeExpr_resolves scope operand)).bind fun x h =>
        (Typing.unary_stands op x span).imp fun _ _ => h
  | .binary span op lhs rhs =>
      ((Typing.asValue_reports (typeExpr_resolves scope lhs)).both
        (Typing.asValue_reports (typeExpr_resolves scope rhs))).bind fun p h =>
          (Typing.binary_stands op p.1 p.2 span).imp fun _ _ => List.forall_mem_append.mpr h
  | .field span target name =>
      (Typing.asValue_reports (typeExpr_resolves scope target)).bind fun x h =>
        (Typing.field_stands x name span).imp fun _ _ => h
  | .index span target index =>
      ((Typing.asValue_reports (typeExpr_resolves scope target)).both
        (Typing.asValue_reports (typeExpr_resolves scope index))).bind fun p h =>
          (Typing.index_stands p.1 p.2 span).imp fun _ _ => List.forall_mem_append.mpr h
  | .call span callee args =>
      (Typing.call_resolves scope callee (typeArgs_resolve scope args) span).imp fun _ h =>
        List.forall_mem_append.mpr h
  | .vector _ x y z =>
      have hcomponent (e : Expr)
          (h : (typeExpr scope e).Yields fun _ => e.Resolves AnySpelling scope) :=
        Typing.component_keeps (Typing.asValue_reports h) e.span
      ((hcomponent x (typeExpr_resolves scope x)).both
        ((hcomponent y (typeExpr_resolves scope y)).both
        (hcomponent z (typeExpr_resolves scope z)))).bind fun _ h =>
          .pure (List.forall_mem_append.mpr ⟨h.1, List.forall_mem_append.mpr h.2⟩)
  | .sizeOf _ inner => (typeExpr_resolves scope inner).bind fun _ h => .pure h

theorem typeArgs_resolve (scope : Scope) : (args : List Expr) → ∀ i params,
    (Typing.arguments i params (typeArgs scope args)).Yields fun _ =>
      ∀ name ∈ Expr.listNames args, scope.Resolves AnySpelling name
  | [], _, _ => .pure fun _ hname => absurd hname List.not_mem_nil
  | arg :: rest, i, params => by
      rw [typeArgs]
      have harg := Typing.asValue_reports (typeExpr_resolves scope arg)
      exact (Typing.arguments_cons harg (typeArgs_resolve scope rest) i params).imp fun _ h =>
        List.forall_mem_append.mpr h

end

theorem typeValue_resolves (scope : Scope) (e : Expr) :
    (typeValue scope e).Yields fun _ => e.Resolves AnySpelling scope :=
  Typing.asValue_reports (typeExpr_resolves scope e)

theorem resolveType_resolves {scope : Scope} {r : Registry} {ref : TypeRef} {ty : Ty}
    (h : (resolveType scope.findName? r ref).1 = .ok ty) : ref.Resolves AnySpelling scope := by
  unfold resolveType at h
  cases hfind : scope.findName? ref.name with
  | none =>
      rw [hfind] at h
      cases h
  | some s =>
      cases htype : s.kind.isType with
      | false =>
          simp only [hfind, htype, Bool.false_eq_true, if_false] at h
          cases h
      | true => exact ⟨s, hfind, htype, trivial⟩

/-! ## Steps of checking a body -/

/-- A step that ends without an error takes the scope to one that the property relates to it. -/
def BodyM.Moves {α : Type} (x : BodyM α) (P : Scope → α → Scope → Prop) : Prop :=
  ∀ s : BodyState, s.diagnostics.items <+: (x s).2.diagnostics.items ∧
    ((x s).2.diagnostics.Clean → P s.scope (x s).1 (x s).2.scope)

namespace BodyM

section
variable {α β : Type} {P : Scope → α → Scope → Prop} {Q : Scope → β → Scope → Prop}

theorem Moves.pure {a : α} (h : ∀ scope, P scope a scope) : Moves (Pure.pure a) P :=
  fun s => ⟨List.prefix_refl _, fun _ => h s.scope⟩

/-- A last step that only chooses its result. -/
theorem Moves.ofPure {x : BodyM α} (h : ∀ scope a, P scope a scope) (hx : ∃ a, x = Pure.pure a) :
    Moves x P := by
  obtain ⟨a, rfl⟩ := hx
  exact .pure fun scope => h scope a

theorem Moves.imp {x : BodyM α} {P' : Scope → α → Scope → Prop} (hx : Moves x P)
    (h : ∀ scope a scope', P scope a scope' → P' scope a scope') : Moves x P' :=
  fun s => ⟨(hx s).1, fun hclean => h _ _ _ ((hx s).2 hclean)⟩

theorem Moves.bind {x : BodyM α} {f : α → BodyM β} (hx : Moves x P)
    (hf : ∀ a, Moves (f a) fun scope b scope' => ∀ before, P before a scope → Q before b scope') :
    Moves (x >>= f) Q := by
  intro s
  obtain ⟨hreports, hthen⟩ := hx s
  obtain ⟨hreports', hthen'⟩ := hf (x s).1 (x s).2
  refine ⟨hreports.trans hreports', fun hclean => hthen' hclean _ ?_⟩
  exact hthen fun d hd => hclean d (hreports'.subset hd)

def Stays (R : Scope → α → Prop) (scope : Scope) (a : α) (scope' : Scope) : Prop :=
  scope' = scope ∧ R scope a

/-- A first part that leaves the scope as it is. -/
theorem Moves.bindStays {x : BodyM α} {f : α → BodyM β} {R : Scope → α → Prop}
    (hx : Moves x (Stays R)) (hf : ∀ a, Moves (f a) fun scope b scope' => R scope a →
      Q scope b scope') : Moves (x >>= f) Q := by
  refine hx.bind fun a => (hf a).imp ?_
  rintro scope b scope' hQ before ⟨rfl, hR⟩
  exact hQ hR

/-- A first part that leaves the scope as it is and must give something. -/
theorem Moves.bindGiven {x : BodyM (Option α)} {f : Option α → BodyM β} {R : Scope → α → Prop}
    (hx : Moves x (Stays fun scope => Given (R scope))) (hnone : Moves (f none) fun _ _ _ => True)
    (hsome : ∀ a, Moves (f (some a)) fun scope b scope' => R scope a → Q scope b scope') :
    Moves (x >>= f) Q := by
  refine hx.bindStays fun o => ?_
  cases o with
  | none => exact hnone.imp fun _ _ _ _ ⟨_, h, _⟩ => nomatch h
  | some a =>
      refine (hsome a).imp ?_
      rintro scope b scope' hQ ⟨c, hc, hR⟩
      obtain rfl := Option.some.inj hc
      exact hQ hR

theorem report_moves (span : Span) (cause : Cause) : Moves (report span cause) fun _ _ _ =>
    False := by
  refine fun s => ⟨List.prefix_append _ _, fun hclean => ?_⟩
  cases hclean _ (List.mem_append_right _ (List.mem_singleton_self _))

/-- A step that reports an error can do anything. -/
theorem report_thenMoves (span : Span) (cause : Cause) {x : BodyM β}
    (hx : Moves x fun _ _ _ => True) :
    Moves (report span cause >>= fun _ => x) Q :=
  (report_moves span cause).bind fun _ => hx.imp fun _ _ _ _ _ h => h.elim

end

theorem value_moves (e : Expr) :
    Moves (value e) (Stays fun scope _ => e.Resolves AnySpelling scope) := by
  refine fun s => ⟨List.prefix_append _ _, fun hclean => ⟨rfl, ?_⟩⟩
  obtain ⟨-, -, hresolves⟩ := (typeValue_resolves s.scope e).of_clean fun d hd =>
    hclean d (List.mem_append_right _ hd)
  exact hresolves

theorem required_moves (e : Expr) (ty : Ty) (context : String) :
    Moves (required e ty context) (Stays fun scope _ => e.Resolves AnySpelling scope) := by
  refine (value_moves e).bindStays fun o => ?_
  cases o with
  | none => exact .pure fun _ h => ⟨rfl, h⟩
  | some x =>
      simp only []
      split
      · exact .pure fun _ h => ⟨rfl, h⟩
      · exact report_thenMoves _ _ (.pure fun _ => trivial)

theorem fit_moves (x : TypedExpr) (ty : Ty) (span : Span) :
    Moves (fit x ty span) (Stays fun _ _ => True) := by
  unfold fit
  split
  · exact .pure fun _ => ⟨rfl, trivial⟩
  · exact report_thenMoves _ _ (.pure fun _ => trivial)

theorem localType_moves (ref : TypeRef) :
    Moves (localType ref) (Stays fun scope => Given fun _ => ref.Resolves AnySpelling scope) := by
  intro s
  rw [localType_run]
  cases hresolve : (resolveType s.scope.findName? s.registry ref).1 with
  | ok ty => exact ⟨List.prefix_refl _, fun _ => ⟨rfl, ty, rfl, resolveType_resolves hresolve⟩⟩
  | error cause =>
      have hreport : Moves (report ref.span cause >>= fun _ => pure none)
          (Stays fun scope (o : Option Ty) => Given (fun _ => ref.Resolves AnySpelling scope) o) :=
        report_thenMoves _ _ (.pure fun _ => trivial)
      exact hreport { s with registry := _ }

theorem declareLocal_moves (name : String) (ty : Ty) (span : Span) :
    Moves (declareLocal name ty span) fun scope o scope' =>
      Given (fun slot => scope.declareLocal name ty span = .ok (slot, scope')) o := by
  intro s
  cases hdeclare : s.scope.declareLocal name ty span with
  | ok p =>
      have hrun : declareLocal name ty span s = (some p.1, { s with scope := p.2 }) := by
        simp only [declareLocal, bind, StateT.bind, get, getThe, MonadStateOf.get, StateT.get, pure,
          hdeclare]
        rfl
      rw [hrun]
      exact ⟨List.prefix_refl _, fun _ => ⟨p.1, rfl, hdeclare⟩⟩
  | error e =>
      have hrun : declareLocal name ty span s =
          (report span (.declaration e) >>= fun _ => pure none) s := by
        simp only [declareLocal, bind, StateT.bind, get, getThe, MonadStateOf.get, StateT.get, pure,
          hdeclare]
      have hreport : Moves (report span (.declaration e) >>= fun _ => pure none)
          fun scope (o : Option UInt32) scope' =>
            Given (fun slot => scope.declareLocal name ty span = .ok (slot, scope')) o :=
        report_thenMoves _ _ (.pure fun _ => trivial)
      rw [hrun]
      exact hreport s

/-- A block starts with nothing declared in it and is left with the enclosing blocks as they
were. -/
theorem inBlock_moves {α : Type} {P : Scope → α → Scope → Prop} {x : BodyM α} (hx : Moves x P) :
    Moves (inBlock x) fun scope a scope' => ∃ inner, P scope.push a inner ∧ scope' = inner.pop := by
  intro s
  obtain ⟨hreports, hthen⟩ := hx { s with scope := s.scope.push }
  exact ⟨hreports, fun hclean => ⟨_, hthen hclean, rfl⟩⟩

theorem counter_moves (e : Expr) :
    Moves (counter e) (Stays fun scope _ => e.Resolves AnySpelling scope) := by
  refine (required_moves e .int _).bindStays fun o => ?_
  cases o with
  | none => exact .pure fun _ h => ⟨rfl, h⟩
  | some x =>
      simp only []
      split
      · exact .pure fun _ h => ⟨rfl, h⟩
      · exact report_thenMoves _ _ (.pure fun _ => trivial)

theorem caseValue_moves (e : Expr) :
    Moves (caseValue e) (Stays fun scope _ => e.Resolves AnySpelling scope) := by
  refine (required_moves e .int _).bindStays fun o => ?_
  cases o with
  | none => exact .pure fun _ h => ⟨rfl, h⟩
  | some x =>
      simp only []
      split
      · exact .pure fun _ h => ⟨rfl, h⟩
      · exact report_thenMoves _ _ (.pure fun _ => trivial)

end BodyM

/-! ## Statements -/

namespace BodyM

variable {labels : LabelTable}

theorem assign_moves (span : Span) (target value : Expr) :
    Moves (assign span target value) fun scope _ scope' =>
      (Stmt.assign span target value).Resolves AnySpelling labels scope scope' := by
  refine (value_moves target).bindStays fun x => (value_moves value).bindStays fun y => ?_
  split
  · split
    · refine (fit_moves _ _ span).bindStays fun z => ?_
      exact .ofPure (fun _ _ _ hvalue htarget => .assign htarget hvalue)
        (by cases z <;> exact ⟨_, rfl⟩)
    · exact report_thenMoves _ _ (.pure fun _ => trivial)
  · exact .pure fun _ hvalue htarget => .assign htarget hvalue

/-- Once the type and the initial value are looked up, the variable is declared, whatever is then
done with it. -/
theorem declareLocal_thenMoves {name : String} {ref : TypeRef} {init : Option Expr} {ty : Ty}
    {span : Span} {k : Option UInt32 → BodyM (List TypedStmt)}
    (hnone : Moves (k none) fun _ _ _ => True)
    (hsome : ∀ slot, Moves (k (some slot)) (Stays fun _ _ => True)) :
    Moves (declareLocal name ty span >>= k) fun scope _ scope' =>
      (∀ e ∈ init, e.Resolves AnySpelling scope) → ref.Resolves AnySpelling scope →
        (Stmt.var span name ref init).Resolves AnySpelling labels scope scope' := by
  refine (declareLocal_moves name ty span).bind fun o => ?_
  cases o with
  | none => exact hnone.imp fun _ _ _ _ _ ⟨_, h, _⟩ => nomatch h
  | some slot =>
      refine (hsome slot).imp ?_
      rintro scope _ _ ⟨rfl, -⟩ before ⟨_, ⟨⟩, hdeclare⟩ hinit hty
      exact .var hty hinit hdeclare

theorem declare_moves (span : Span) (name : String) (ref : TypeRef) (init : Option Expr) :
    Moves (declare span name ref init) fun scope _ scope' =>
      (Stmt.var span name ref init).Resolves AnySpelling labels scope scope' := by
  refine (localType_moves ref).bindGiven (.pure fun _ => trivial) fun declared => ?_
  cases init with
  | none =>
      simp only [pure_bind]
      refine (declareLocal_thenMoves (.pure fun _ => trivial) fun slot => ?_).imp
        fun _ _ _ h => h fun _ he => by cases he
      refine .ofPure (fun _ _ => ⟨rfl, trivial⟩) ?_
      simp only []
      split
      · exact ⟨_, rfl⟩
      · exact ⟨_, rfl⟩
  | some e =>
      have hinit {scope : Scope} (h : e.Resolves AnySpelling scope) :
          ∀ e' ∈ some e, e'.Resolves AnySpelling scope := by
        rintro e' ⟨⟩
        exact h
      refine (value_moves e).bindStays fun o => ?_
      cases o with
      | none =>
          simp only [pure_bind]
          exact (declareLocal_thenMoves (.pure fun _ => trivial) fun slot =>
            .pure fun _ => ⟨rfl, trivial⟩).imp fun _ _ _ h he => h (hinit he)
      | some x =>
          refine (fit_moves x _ e.span).bindStays fun y => ?_
          refine (declareLocal_thenMoves (.pure fun _ => trivial) fun slot => ?_).imp
            fun _ _ _ h _ he => h (hinit he)
          exact .ofPure (fun _ _ => ⟨rfl, trivial⟩) (by cases y <;> exact ⟨_, rfl⟩)

theorem ret_moves (result : Option Ty) (span : Span) (value : Option Expr) :
    Moves (ret result span value) fun scope _ scope' =>
      (Stmt.ret span value).Resolves AnySpelling labels scope scope' := by
  rcases value with _ | v <;> rcases result with _ | ty
  · exact .pure fun _ => .ret fun _ h => nomatch h
  · exact report_thenMoves _ _ (.pure fun _ => trivial)
  · exact report_thenMoves _ _ (.pure fun _ => trivial)
  · have hret {scope : Scope} (h : v.Resolves AnySpelling scope) :
        (Stmt.ret span (some v)).Resolves AnySpelling labels scope scope := by
      refine .ret ?_
      rintro e ⟨⟩
      exact h
    refine (value_moves v).bindStays fun o => ?_
    cases o with
    | none => exact .pure fun _ h => hret h
    | some x =>
        simp only []
        split
        · exact .pure fun _ h => hret h
        · exact report_thenMoves _ _ (.pure fun _ => trivial)

theorem callStmt_moves (span : Span) (e : Expr) :
    Moves (callStmt e) fun scope _ scope' =>
      (Stmt.call span e).Resolves AnySpelling labels scope scope' := by
  unfold callStmt
  split
  · refine (value_moves _).bindStays fun o => ?_
    exact .ofPure (fun _ _ h => .call h) (by cases o <;> exact ⟨_, rfl⟩)
  · exact report_thenMoves _ _ (.pure fun _ => trivial)

end BodyM

open BodyM in
mutual

/-- A statement that is checked without an error has all its names found. -/
theorem checkStmt_moves {ctx : BodyContext} : (s : Stmt) →
    Moves (checkStmt ctx s) fun scope _ scope' => s.Resolves AnySpelling ctx.labels scope scope'
  | .var span name ty init => by
      rw [checkStmt]
      exact declare_moves span name ty init
  | .assign span target value => by
      rw [checkStmt]
      exact assign_moves span target value
  | .cond _ condition thenBody elseBody => by
      rw [checkStmt]
      refine (required_moves condition .bool _).bindStays fun c =>
        (inBlock_moves (checkBlock_moves thenBody)).bind fun _ =>
        (inBlock_moves (checkBlock_moves elseBody)).bind fun _ => ?_
      refine .ofPure ?_ (by cases c <;> exact ⟨_, rfl⟩)
      rintro _ _ _ ⟨_, helse, rfl⟩ _ ⟨_, hthen, rfl⟩ hcondition
      exact .cond hcondition hthen helse
  | .whileLoop _ condition body => by
      rw [checkStmt]
      refine (required_moves condition .bool _).bindStays fun c =>
        (inBlock_moves (checkBlock_moves body)).bind fun _ => ?_
      refine .ofPure ?_ (by cases c <;> exact ⟨_, rfl⟩)
      rintro _ _ _ ⟨_, hbody, rfl⟩ hcondition
      exact .whileLoop hcondition hbody
  | .repeatLoop _ limit counter body => by
      rw [checkStmt]
      refine (required_moves limit .int _).bindStays fun l =>
        (counter_moves counter).bindStays fun c =>
        (inBlock_moves (checkBlock_moves body)).bind fun _ => ?_
      refine .ofPure ?_ (by cases l <;> cases c <;> exact ⟨_, rfl⟩)
      rintro _ _ _ ⟨_, hbody, rfl⟩ hcounter hlimit
      exact .repeatLoop hlimit hcounter hbody
  | .switch _ value cases none => by
      rw [checkStmt]
      simp only [pure_bind]
      refine (required_moves value .int _).bindStays fun v => (checkCases_moves [] cases).bind
        fun _ => ?_
      refine .ofPure ?_ (by cases v <;> exact ⟨_, rfl⟩)
      intro _ _ _ hcases hvalue
      exact .switch hvalue hcases
  | .switch _ value cases (some default) => by
      rw [checkStmt]
      refine (required_moves value .int _).bindStays fun v => (checkCases_moves [] cases).bind
        fun _ => ?_
      simp only [pure_bind]
      refine (inBlock_moves (checkBlock_moves default)).bind fun _ => ?_
      refine .ofPure ?_ (by cases v <;> exact ⟨_, rfl⟩)
      rintro _ _ _ ⟨_, hdefault, rfl⟩ _ hcases hvalue
      exact .switchDefault hvalue hcases hdefault
  | .ret span value => by
      rw [checkStmt]
      exact (ret_moves ctx.result span value).bind fun _ => .pure fun _ _ h => h
  | .call span e => by
      rw [checkStmt]
      exact callStmt_moves span e
  | .label _ name => by
      rw [checkStmt]
      exact .pure fun _ => .label
  | .goto span name => by
      rw [checkStmt]
      cases hfind : ctx.labels.findName? name with
      | some l => exact .pure fun _ => .goto hfind trivial
      | none => exact report_thenMoves _ _ (.pure fun _ => trivial)
  | .block _ body => by
      rw [checkStmt]
      refine (inBlock_moves (checkBlock_moves body)).bind fun _ => .pure ?_
      rintro _ _ ⟨_, hbody, rfl⟩
      exact .block hbody

theorem checkBlock_moves {ctx : BodyContext} : (body : List Stmt) →
    Moves (checkBlock ctx body) fun scope _ scope' =>
      Stmt.BlockResolves AnySpelling ctx.labels body scope scope'
  | [] => by
      rw [checkBlock]
      exact .pure fun _ => .nil
  | s :: rest => by
      rw [checkBlock]
      exact (checkStmt_moves s).bind fun _ => (checkBlock_moves rest).bind fun _ =>
        .pure fun _ _ hrest _ hs => .cons hs hrest

theorem checkCases_moves {ctx : BodyContext} (seen : List Int32) : (cases : List SwitchCase) →
    Moves (checkCases ctx seen cases) fun scope _ scope' =>
      Stmt.CasesResolve AnySpelling ctx.labels cases scope scope'
  | [] => by
      rw [checkCases]
      exact .pure fun _ => .nil
  | ⟨e, body, span⟩ :: rest => by
      rw [checkCases]
      -- Whatever becomes of this case, the others are checked in the scope that its body leaves.
      have hcase {scope scope' : Scope}
          (hrest : Stmt.CasesResolve AnySpelling ctx.labels rest scope scope') : ∀ before,
          (∃ inner, Stmt.BlockResolves AnySpelling ctx.labels body before.push inner ∧
            scope = inner.pop) → e.Resolves AnySpelling before →
          Stmt.CasesResolve AnySpelling ctx.labels (⟨e, body, span⟩ :: rest) before scope' := by
        rintro before ⟨inner, hbody, rfl⟩ he
        exact .cons he hbody hrest
      refine (caseValue_moves e).bindStays fun v => (inBlock_moves (checkBlock_moves body)).bind
        fun _ => ?_
      cases v with
      | none => exact (checkCases_moves seen rest).imp fun _ _ _ => hcase
      | some v =>
          simp only []
          split
          · exact report_thenMoves _ _ ((checkCases_moves seen rest).imp fun _ _ _ _ => trivial)
          · exact (checkCases_moves (seen ++ [v]) rest).bind fun _ => .pure fun _ _ hrest =>
              hcase hrest

end

end GameScript
