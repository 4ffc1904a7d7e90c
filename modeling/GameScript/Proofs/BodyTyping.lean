import GameScript.Proofs.ExprTyping
import GameScript.Proofs.Outcomes

/-!
# Typed bodies are well typed

Checking a statement changes a state: locals are added to the frame, blocks are opened and closed,
and problems are reported. A statement that is in error is left out of the typed body, so what is
typed is the whole body only when no error is reported in the end. The argument therefore looks at a
step from its end: if no error has been reported by then, and the typing environment knows the frame
as it is by then, the step has kept the scope in order and its result is well typed. Frames and
reports only grow, so what is known at the end of a body is known at the end of each of its steps.
-/
namespace GameScript

/-- What a step of checking a body can do to its state: add locals and reports. -/
structure BodyState.Extends (s s' : BodyState) : Prop where
  args : s'.scope.args = s.scope.args
  locals : s.scope.locals <+: s'.scope.locals
  reports : s.diagnostics.items <+: s'.diagnostics.items

theorem BodyState.Extends.refl (s : BodyState) : s.Extends s :=
  ⟨rfl, List.prefix_refl _, List.prefix_refl _⟩

theorem BodyState.Extends.trans {s s' s'' : BodyState} (h : s.Extends s') (h' : s'.Extends s'') :
    s.Extends s'' :=
  ⟨h'.args.trans h.args, h.locals.trans h'.locals, h.reports.trans h'.reports⟩

/-- No error is reported, and `Γ` knows the frame. -/
structure BodyState.Clean (Γ : TypingEnv) (s : BodyState) : Prop where
  reports : ∀ d ∈ s.diagnostics.items, d.isError = false
  frame : ∀ slot ty, FrameSlot s.scope.args s.scope.locals slot ty → Γ.frame slot ty

theorem BodyState.Clean.of_extends {Γ : TypingEnv} {s s' : BodyState} (h : s'.Clean Γ)
    (hs : s.Extends s') : s.Clean Γ := by
  refine ⟨fun d hd => h.reports d (hs.reports.subset hd), fun slot ty hslot => ?_⟩
  apply h.frame
  obtain ⟨more, hmore⟩ := hs.locals
  rw [hs.args, ← hmore]
  exact hslot.mono more

/-- The symbols in scope are what `Γ` says, and the counters tell the sizes of the frame. -/
structure BodyState.Holds (Γ : TypingEnv) (s : BodyState) : Prop where
  agrees : s.scope.Agrees Γ
  argSlots : s.scope.argSlots = UInt32.ofNat (variableSlots s.scope.args)
  localSlots : s.scope.localSlots = UInt32.ofNat (variableSlots s.scope.locals)

/-- Under the assumption `H`, a step that ends without an error keeps the invariant and gives a
result with the property. -/
def BodyM.Ensures {α : Type} (Γ : TypingEnv) (H : Prop) (x : BodyM α) (P : α → Prop) : Prop :=
  ∀ s : BodyState, s.Extends (x s).2 ∧
    (H → (x s).2.Clean Γ → s.Holds Γ → (x s).2.Holds Γ ∧ P (x s).1)

/-- A new symbol of the innermost block that is what `Γ` says. -/
theorem Scope.Agrees.insert {Γ : TypingEnv} {s s' : Scope} (h : s.Agrees Γ) {symbol : Symbol}
    (hsymbol : symbol.Agrees Γ) (hglobals : s'.globals = s.globals)
    (hinner : s'.innermost = s.innermost ++ [(symbol.id, symbol)])
    (houter : s'.enclosing = s.enclosing) : s'.Agrees Γ := by
  constructor
  · rw [hglobals]
    exact h.globals
  · rw [hinner, houter]
    have hblocks := h.blocks
    rw [List.forall_mem_cons] at hblocks ⊢
    refine ⟨fun e he => ?_, hblocks.2⟩
    rcases List.mem_append.mp he with he | he
    · exact hblocks.1 e he
    · rw [List.mem_singleton.mp he]
      exact hsymbol

namespace BodyM

section
variable {Γ : TypingEnv} {H : Prop} {α β : Type} {P : α → Prop} {Q : β → Prop}

theorem Ensures.pure {a : α} (h : H → P a) : Ensures Γ H (Pure.pure a) P :=
  fun s => ⟨.refl s, fun hH _ hs => ⟨hs, h hH⟩⟩

/-- The rest of a step may assume what its first part ensures. -/
theorem Ensures.bind {x : BodyM α} {f : α → BodyM β} (hx : Ensures Γ H x P)
    (hf : ∀ a, Ensures Γ (H ∧ P a) (f a) Q) : Ensures Γ H (x >>= f) Q := by
  intro s
  obtain ⟨hext, hthen⟩ := hx s
  obtain ⟨hext', hthen'⟩ := hf (x s).1 (x s).2
  refine ⟨hext.trans hext', fun hH hclean hs => ?_⟩
  obtain ⟨hs', hP⟩ := hthen hH (BodyState.Clean.of_extends hclean hext') hs
  exact hthen' ⟨hH, hP⟩ hclean hs'

theorem Ensures.weaken {x : BodyM α} {H' : Prop} (hx : Ensures Γ H x P) (h : H' → H) :
    Ensures Γ H' x P :=
  fun s => ⟨(hx s).1, fun hH' => (hx s).2 (h hH')⟩

/-- A step that cannot be reached without an error ensures anything. -/
theorem Ensures.absurd {x : BodyM α} (hx : Ensures Γ H x P) (P' : α → Prop) :
    Ensures Γ False x P' :=
  fun s => ⟨(hx s).1, False.elim⟩

/-- After a report there is an error. -/
theorem report_ensures (span : Span) (cause : Cause) :
    Ensures Γ H (report span cause) fun _ => False := by
  intro s
  refine ⟨⟨rfl, List.prefix_refl _, List.prefix_append _ _⟩, fun _ hclean _ => ?_⟩
  cases hclean.reports _ (List.mem_append_right _ (List.mem_singleton_self _))

/-- A step that reports an error can give any result. -/
theorem report_then (span : Span) (cause : Cause) {x : BodyM β}
    (hx : Ensures Γ False x Q) : Ensures Γ H (report span cause >>= fun _ => x) Q :=
  (report_ensures span cause).bind fun _ => hx.weaken And.right

theorem impossible {a : α} : Ensures Γ False (Pure.pure a) P :=
  .pure fun h => h.elim

def Given (P : α → Prop) (o : Option α) : Prop := ∃ a, o = some a ∧ P a

/-- A first part that must give something for the rest to be reached without an error. -/
theorem Ensures.bindGiven {x : BodyM (Option α)} {f : Option α → BodyM β}
    (hx : Ensures Γ H x (Given P)) (hnone : Ensures Γ False (f none) Q)
    (hsome : ∀ a, Ensures Γ (H ∧ P a) (f (some a)) Q) : Ensures Γ H (x >>= f) Q := by
  apply hx.bind
  intro o
  cases o with
  | none => exact hnone.weaken fun ⟨_, a, ha, _⟩ => nomatch ha
  | some a =>
      apply (hsome a).weaken
      rintro ⟨hH, b, hb, hP⟩
      obtain rfl := Option.some.inj hb
      exact ⟨hH, hP⟩

theorem take_ensures {x : BodyState → Checked α}
    (h : ∀ s : BodyState, s.Holds Γ → (x s).Yields P) :
    Ensures Γ H (do take (x (← get))) (Given P) := by
  intro s
  refine ⟨⟨rfl, List.prefix_refl _, List.prefix_append _ _⟩, fun _ hclean hs =>
    ⟨⟨hs.agrees, hs.argSlots, hs.localSlots⟩, ?_⟩⟩
  have hyields := h s hs
  cases hvalue : (x s).value? with
  | some a => exact ⟨a, hvalue, hyields.value a hvalue⟩
  | none =>
      obtain ⟨d, hd, herror⟩ := hyields.report hvalue
      have hnoerror := hclean.reports d (List.mem_append_right _ hd)
      rw [herror] at hnoerror
      cases hnoerror

end

variable {Γ : TypingEnv} {H : Prop}

theorem value_ensures (e : Expr) : Ensures Γ H (value e) (Given (TypedExpr.WellTyped Γ)) :=
  take_ensures fun _ hs => typeValue_yields hs.agrees e

theorem required_ensures (e : Expr) {ty : Ty} (hty : ty = .int ∨ ty = .bool) (context : String) :
    Ensures Γ H (required e ty context) (Given fun x => x.WellTyped Γ ∧ x.ty = ty) := by
  refine (value_ensures e).bindGiven impossible fun x => ?_
  simp only []
  split
  · next hsame =>
      refine .pure fun ⟨_, hwell⟩ => ⟨x, rfl, hwell, ?_⟩
      apply Ty.eq_of_beq_scalar hsame
      rcases hty with rfl | rfl
      · exact .inl rfl
      · exact .inr (.inr (.inl rfl))
  · exact report_then _ _ impossible

theorem fit_ensures {x : TypedExpr} (ty : Ty) (span : Span) (hx : H → x.WellTyped Γ) :
    Ensures Γ H (fit x ty span) (Given fun y => y.WellTyped Γ ∧ ty.Admits y.ty) := by
  unfold fit
  cases hcoerce : coerce x ty with
  | ok y => exact .pure fun hH => ⟨y, rfl, Typing.coerce_ok (hx hH) hcoerce⟩
  | error found => exact report_then _ _ impossible

/-- A step that looks at its state is, for each state, a step that does not. -/
theorem Ensures.of_state {α : Type} {P : α → Prop} {x : BodyM α}
    (h : ∀ s, ∃ y : BodyM α, x s = y s ∧ Ensures Γ (H ∧ s.Holds Γ) y P) : Ensures Γ H x P := by
  intro s
  obtain ⟨y, hxy, hy⟩ := h s
  rw [hxy]
  exact ⟨(hy s).1, fun hH hclean hs => (hy s).2 ⟨hH, hs⟩ hclean hs⟩

/-- Registering types does not touch the scope. -/
theorem modify_registry_ensures (r : Registry) :
    Ensures Γ H (modify fun s => { s with registry := r }) fun _ => True :=
  fun _ => ⟨⟨rfl, List.prefix_refl _, List.prefix_refl _⟩, fun _ _ hs =>
    ⟨⟨hs.agrees, hs.argSlots, hs.localSlots⟩, trivial⟩⟩

theorem localType_run (ref : TypeRef) (s : BodyState) :
    localType ref s =
      (match (resolveType s.scope.findName? s.registry ref).1 with
        | .ok ty => pure (some ty)
        | .error cause => report ref.span cause >>= fun _ => pure none : BodyM (Option Ty))
        { s with registry := (resolveType s.scope.findName? s.registry ref).2 } :=
  rfl

theorem localType_ensures (ref : TypeRef) :
    Ensures Γ H (localType ref) (Given fun _ => True) := by
  apply Ensures.of_state
  intro s
  refine ⟨(modify fun s' =>
    { s' with registry := (resolveType s.scope.findName? s.registry ref).2 }) >>=
    fun _ => match (resolveType s.scope.findName? s.registry ref).1 with
      | .ok ty => pure (some ty)
      | .error cause => report ref.span cause >>= fun _ => pure none, localType_run ref s, ?_⟩
  apply (modify_registry_ensures _).bind
  intro _
  split
  · next ty _ => exact .pure fun _ => ⟨ty, rfl, trivial⟩
  · exact report_then _ _ impossible

/-- A local is refused, or it is the last one of the innermost block and of the frame. -/
theorem declareLocal_cases (name : String) (ty : Ty) (span : Span) (s : BodyState) :
    (∃ e, declareLocal name ty span s = (report span (.declaration e) >>= fun _ => pure none) s) ∨
      declareLocal name ty span s = (some s.scope.frameSize, { s with scope :=
        { s.scope with
          innermost := s.scope.innermost ++ [(Identity.ofName name,
            ⟨name, ty, span, .frame s.scope.frameSize⟩)]
          locals := s.scope.locals ++ [⟨name, ty⟩]
          localSlots := s.scope.localSlots + UInt32.ofNat ty.slots } }) := by
  cases hdeclare : s.scope.declareLocal name ty span with
  | error e =>
      left
      refine ⟨e, ?_⟩
      simp only [declareLocal, bind, StateT.bind, get, getThe, MonadStateOf.get, StateT.get, pure,
        hdeclare]
  | ok p =>
      right
      obtain ⟨block, hblock, hp⟩ := bind_eq_ok.mp hdeclare
      obtain rfl := Except.ok.inj hp
      obtain ⟨-, rfl⟩ := SymbolTable.insert_ok hblock
      simp only [declareLocal, bind, StateT.bind, get, getThe, MonadStateOf.get, StateT.get, pure,
        hdeclare]
      rfl

theorem declareLocal_ensures (name : String) (ty : Ty) (span : Span) :
    Ensures Γ H (declareLocal name ty span) (Given fun slot => Γ.frame slot ty) := by
  intro s
  rcases declareLocal_cases name ty span s with ⟨e, hrun⟩ | hrun
  · rw [hrun]
    exact report_then span (.declaration e) impossible s
  · rw [hrun]
    refine ⟨⟨rfl, List.prefix_append _ _, List.prefix_refl _⟩, fun _ hclean hs => ?_⟩
    -- The new local is the last one of the frame, so its slot is the size of the frame so far.
    have hslot : s.scope.frameSize = UInt32.ofNat
        (variableSlots s.scope.args + reservedSlots + variableSlots s.scope.locals) := by
      rw [Scope.frameSize, hs.argSlots, hs.localSlots, UInt32.ofNat_add, UInt32.ofNat_add]
    have hframe : Γ.frame s.scope.frameSize ty := by
      rw [hslot]
      exact hclean.frame _ _ (.var s.scope.locals [] ⟨name, ty⟩ rfl)
    have hsymbol : Symbol.Agrees Γ ⟨name, ty, span, .frame s.scope.frameSize⟩ := hframe
    refine ⟨⟨hs.agrees.insert hsymbol rfl rfl rfl, hs.argSlots, ?_⟩, _, rfl, hframe⟩
    simp only [variableSlots_append, variableSlots_singleton, UInt32.ofNat_add, hs.localSlots]

/-- Leaving a block forgets its symbols, and only those. -/
theorem inBlock_ensures {α : Type} {P : α → Prop} {x : BodyM α} (hx : Ensures Γ H x P) :
    Ensures Γ H (inBlock x) P := by
  have hpush : Ensures Γ H (modify fun s => { s with scope := s.scope.push }) fun _ => True := by
    refine fun s =>
      ⟨⟨rfl, List.prefix_refl _, List.prefix_refl _⟩, fun _ _ hs => ⟨⟨?_, ?_, ?_⟩, trivial⟩⟩
    · refine ⟨hs.agrees.globals, fun t ht => ?_⟩
      rcases List.mem_cons.mp ht with rfl | ht
      · exact fun e he => absurd he List.not_mem_nil
      · exact hs.agrees.blocks t ht
    · exact hs.argSlots
    · exact hs.localSlots
  have hpop (s : Scope) : s.pop.globals = s.globals ∧ s.pop.args = s.args ∧
      s.pop.locals = s.locals ∧ s.pop.argSlots = s.argSlots ∧ s.pop.localSlots = s.localSlots ∧
      ∀ t ∈ s.pop.innermost :: s.pop.enclosing, t ∈ s.innermost :: s.enclosing := by
    unfold Scope.pop
    cases henclosing : s.enclosing with
    | nil => exact ⟨rfl, rfl, rfl, rfl, rfl, fun t ht => henclosing ▸ ht⟩
    | cons outer rest => exact ⟨rfl, rfl, rfl, rfl, rfl, fun t ht => List.mem_cons_of_mem _ ht⟩
  refine hpush.bind fun _ => (hx.weaken And.left).bind fun a => ?_
  intro s
  obtain ⟨hglobals, hargs, hlocals, hargSlots, hlocalSlots, hblocks⟩ := hpop s.scope
  refine ⟨⟨hargs, by exact hlocals ▸ List.prefix_refl _, List.prefix_refl _⟩,
    fun hH _ hs => ⟨⟨⟨?_, ?_⟩, ?_, ?_⟩, hH.2⟩⟩
  · exact hglobals ▸ hs.agrees.globals
  · exact fun t ht => hs.agrees.blocks t (hblocks t ht)
  · exact hargSlots.trans (hargs ▸ hs.argSlots)
  · exact hlocalSlots.trans (hlocals ▸ hs.localSlots)

theorem counter_ensures (e : Expr) :
    Ensures Γ H (counter e) (Given fun x => x.WellTyped Γ ∧ x.ty = .int ∧ x.isLValue = true) := by
  refine (required_ensures e (.inl rfl) _).bindGiven impossible fun x => ?_
  cases hlvalue : x.isLValue with
  | true =>
      simp only [hlvalue, if_true]
      exact .pure fun ⟨_, hwell, hint⟩ => ⟨x, rfl, hwell, hint, hlvalue⟩
  | false =>
      simp only [hlvalue, Bool.false_eq_true, if_false]
      exact report_then _ _ impossible

theorem caseValue_ensures (e : Expr) : Ensures Γ H (caseValue e) (Given fun _ => True) := by
  refine (required_ensures e (.inl rfl) _).bindGiven impossible fun x => ?_
  cases hconstant : x.intConstant? with
  | some v =>
      simp only [hconstant]
      exact .pure fun _ => ⟨v, rfl, trivial⟩
  | none =>
      simp only [hconstant]
      exact report_then _ _ impossible

end BodyM

/-- Statements that are well typed and define exactly the labels `names`. -/
structure TypedStmt.Checks (Γ : TypingEnv) (result : Option Ty) (labels names : List String)
    (body : List TypedStmt) : Prop where
  wellTyped : ∀ s ∈ body, s.WellTyped Γ result labels
  labels : blockLabels body = names

theorem TypedStmt.Checks.nil {Γ : TypingEnv} {result : Option Ty} {labels : List String} :
    Checks Γ result labels [] [] :=
  ⟨fun _ hs => absurd hs List.not_mem_nil, rfl⟩

theorem TypedStmt.Checks.singleton {Γ : TypingEnv} {result : Option Ty} {labels : List String}
    {s : TypedStmt} {names : List String} (h : s.WellTyped Γ result labels)
    (hnames : s.labels = names) : Checks Γ result labels names [s] := by
  refine ⟨fun t ht => ?_, by rw [blockLabels, blockLabels, List.append_nil, hnames]⟩
  rw [List.mem_singleton.mp ht]
  exact h

theorem TypedStmt.Checks.append {Γ : TypingEnv} {result : Option Ty} {labels : List String}
    {names names' : List String} {body body' : List TypedStmt}
    (h : Checks Γ result labels names body) (h' : Checks Γ result labels names' body') :
    Checks Γ result labels (names ++ names') (body ++ body') := by
  refine ⟨fun s hs => ?_, by rw [blockLabels_append, h.labels, h'.labels]⟩
  rcases List.mem_append.mp hs with hs | hs
  · exact h.wellTyped s hs
  · exact h'.wellTyped s hs

namespace BodyM

variable {Γ : TypingEnv} {H : Prop} {result : Option Ty} {labels : List String}

theorem assign_ensures (span : Span) (target value : Expr) :
    Ensures Γ H (assign span target value) (TypedStmt.Checks Γ result labels []) := by
  refine (value_ensures target).bindGiven ?_ fun target => ?_
  · exact (value_ensures value).bind fun _ => impossible.weaken And.left
  refine (value_ensures value).bindGiven impossible fun value => ?_
  cases hlvalue : target.isLValue with
  | false =>
      simp only [hlvalue, Bool.false_eq_true, if_false]
      exact report_then _ _ impossible
  | true =>
      simp only [hlvalue, if_true]
      refine (fit_ensures target.ty span And.right).bindGiven impossible fun y => ?_
      exact .pure fun ⟨⟨⟨_, htarget⟩, _⟩, hvalue, hadmits⟩ =>
        .singleton (.assign htarget hlvalue hvalue hadmits) rfl

theorem declare_ensures (span : Span) (name : String) (ref : TypeRef) (init : Option Expr) :
    Ensures Γ H (declare span name ref init) (TypedStmt.Checks Γ result labels []) := by
  refine (localType_ensures ref).bindGiven impossible fun declared => ?_
  -- An initial value that is missing or does not fit is an error; the local is declared all the
  -- same.
  have hfailed (ty : Ty) {f : Option UInt32 → BodyM (List TypedStmt)} (hf : ∀ o, f o = pure []) :
      Ensures Γ False (declareLocal name ty span >>= f) (TypedStmt.Checks Γ result labels []) := by
    refine (declareLocal_ensures name ty span).bind fun o => ?_
    rw [hf]
    exact impossible.weaken And.left
  cases init with
  | none =>
      simp only [pure_bind]
      refine (declareLocal_ensures name declared span).bindGiven impossible fun slot => ?_
      simp only []
      split
      · exact .pure fun ⟨_, hframe⟩ => .singleton (.defaultInit (.frame hframe) rfl) rfl
      · exact .pure fun _ => .nil
  | some e =>
      refine (value_ensures e).bindGiven ?_ fun x => ?_
      · simp only [pure_bind]
        exact hfailed declared fun o => by cases o <;> rfl
      · simp only []
        refine (fit_ensures _ e.span And.right).bindGiven (hfailed _ fun o => by cases o <;> rfl)
          fun y => ?_
        refine (declareLocal_ensures name _ span).bindGiven impossible fun slot => ?_
        exact .pure fun ⟨⟨_, hvalue, hadmits⟩, hframe⟩ =>
          .singleton (.assign (.frame hframe) rfl hvalue hadmits) rfl

theorem ret_ensures (span : Span) (value : Option Expr) :
    Ensures Γ H (ret result span value) fun s => TypedStmt.Checks Γ result labels [] [s] := by
  rcases value with _ | v <;> rcases result with _ | ty
  · exact .pure fun _ => .singleton (.leave rfl) rfl
  · exact report_then _ _ impossible
  · exact report_then _ _ impossible
  · refine (value_ensures v).bindGiven impossible fun x => ?_
    cases hcoerce : coerce x ty with
    | error found =>
        simp only [hcoerce]
        exact report_then _ _ impossible
    | ok y =>
        simp only [hcoerce]
        refine .pure fun ⟨_, hwell⟩ => ?_
        obtain ⟨hy, hadmits⟩ := Typing.coerce_ok hwell hcoerce
        exact .singleton (.ret hy rfl hadmits) rfl

theorem callStmt_ensures (e : Expr) :
    Ensures Γ H (callStmt e) (TypedStmt.Checks Γ result labels []) := by
  unfold callStmt
  split
  · next span callee args =>
      have hcall : Ensures Γ H (value (.call span callee args))
          (Given fun x => x.WellTyped Γ ∧ x.isCall = true) :=
        take_ensures fun _ hs => typeValue_call_yields hs.agrees span callee args
      refine hcall.bindGiven impossible fun x => ?_
      exact .pure fun ⟨_, hwell, hisCall⟩ => .singleton (.expr hwell hisCall) rfl
  · exact report_then _ _ impossible

end BodyM

/-- Cases whose bodies are well typed and define the labels `names`, with values that differ from
each other and from those already `seen`. -/
structure TypedCase.Checks (Γ : TypingEnv) (result : Option Ty) (labels names : List String)
    (seen : List Int32) (cases : List TypedCase) : Prop where
  wellTyped : ∀ c ∈ cases, ∀ s ∈ c.body, s.WellTyped Γ result labels
  labels : TypedStmt.caseLabels cases = names
  fresh : ∀ v ∈ cases.map TypedCase.value, v ∉ seen
  nodup : (cases.map TypedCase.value).Nodup

theorem TypedCase.Checks.cons {Γ : TypingEnv} {result : Option Ty}
    {labels names names' : List String} {seen : List Int32} {v : Int32} {body : List TypedStmt}
    {cases : List TypedCase} (hv : v ∉ seen) (hbody : TypedStmt.Checks Γ result labels names body)
    (h : Checks Γ result labels names' (seen ++ [v]) cases) :
    Checks Γ result labels (names ++ names') seen (⟨v, body⟩ :: cases) := by
  refine ⟨?_, by rw [TypedStmt.caseLabels, hbody.labels, h.labels], ?_, ?_⟩
  · rw [List.forall_mem_cons]
    exact ⟨hbody.wellTyped, h.wellTyped⟩
  · rw [List.map_cons, List.forall_mem_cons]
    exact ⟨hv, fun w hw hseen => h.fresh w hw (List.mem_append_left _ hseen)⟩
  · rw [List.map_cons, List.nodup_cons]
    exact ⟨fun hmem => h.fresh v hmem (List.mem_append_right _ (List.mem_singleton_self v)),
      h.nodup⟩

/-- The table of a context finds only labels of the function, and the labels `names` are among
them. -/
structure BodyContext.Covers (ctx : BodyContext) (labels names : List String) : Prop where
  find : ∀ name l, ctx.labels.findName? name = some l → l.name ∈ labels
  mem : ∀ n ∈ names, n ∈ labels

theorem BodyContext.Covers.left {ctx : BodyContext} {labels names names' : List String}
    (h : ctx.Covers labels (names ++ names')) : ctx.Covers labels names :=
  ⟨h.find, fun n hn => h.mem n (List.mem_append_left _ hn)⟩

theorem BodyContext.Covers.right {ctx : BodyContext} {labels names names' : List String}
    (h : ctx.Covers labels (names ++ names')) : ctx.Covers labels names' :=
  ⟨h.find, fun n hn => h.mem n (List.mem_append_right _ hn)⟩

/-- A statement that is checked without an error is well typed and keeps its labels. -/
def StmtEnsures (Γ : TypingEnv) (ctx : BodyContext) (labels : List String) (s : Stmt) : Prop :=
  BodyM.Ensures Γ (ctx.Covers labels s.labels) (checkStmt ctx s)
    (TypedStmt.Checks Γ ctx.result labels s.labels)

def BlockEnsures (Γ : TypingEnv) (ctx : BodyContext) (labels : List String) (body : List Stmt) :
    Prop :=
  BodyM.Ensures Γ (ctx.Covers labels (Stmt.blockLabels body)) (checkBlock ctx body)
    (TypedStmt.Checks Γ ctx.result labels (Stmt.blockLabels body))

def CasesEnsures (Γ : TypingEnv) (ctx : BodyContext) (labels : List String) (seen : List Int32)
    (cases : List SwitchCase) : Prop :=
  BodyM.Ensures Γ (ctx.Covers labels (Stmt.caseLabels cases)) (checkCases ctx seen cases)
    (TypedCase.Checks Γ ctx.result labels (Stmt.caseLabels cases) seen)

section
open BodyM
variable {Γ : TypingEnv} {ctx : BodyContext} {labels : List String} {span : Span}

theorem cond_ensures (condition : Expr) {thenBody elseBody : List Stmt}
    (hthen : BlockEnsures Γ ctx labels thenBody) (helse : BlockEnsures Γ ctx labels elseBody) :
    StmtEnsures Γ ctx labels (.cond span condition thenBody elseBody) := by
  change Ensures Γ _ (_ >>= _) _
  refine (required_ensures condition (.inr rfl) _).bind fun c =>
    (inBlock_ensures (hthen.weaken fun h => h.1.left)).bind fun b =>
    (inBlock_ensures (helse.weaken fun h => h.1.1.right)).bind fun b' => ?_
  cases c with
  | none => exact .pure fun ⟨⟨⟨_, x, hx, _⟩, _⟩, _⟩ => nomatch hx
  | some c =>
      refine .pure fun ⟨⟨⟨_, x, hx, hwell, hbool⟩, hb⟩, hb'⟩ => ?_
      obtain rfl := Option.some.inj hx
      exact .singleton (.cond hwell hbool hb.wellTyped hb'.wellTyped)
        (congrArg₂ (· ++ ·) hb.labels hb'.labels)

theorem whileLoop_ensures (condition : Expr) {body : List Stmt}
    (hbody : BlockEnsures Γ ctx labels body) :
    StmtEnsures Γ ctx labels (.whileLoop span condition body) := by
  change Ensures Γ _ (_ >>= _) _
  refine (required_ensures condition (.inr rfl) _).bind fun c =>
    (inBlock_ensures (hbody.weaken fun h => h.1)).bind fun b => ?_
  cases c with
  | none => exact .pure fun ⟨⟨_, x, hx, _⟩, _⟩ => nomatch hx
  | some c =>
      refine .pure fun ⟨⟨_, x, hx, hwell, hbool⟩, hb⟩ => ?_
      obtain rfl := Option.some.inj hx
      exact .singleton (.whileLoop hwell hbool hb.wellTyped) hb.labels

theorem repeatLoop_ensures (limit counter : Expr) {body : List Stmt}
    (hbody : BlockEnsures Γ ctx labels body) :
    StmtEnsures Γ ctx labels (.repeatLoop span limit counter body) := by
  change Ensures Γ _ (_ >>= _) _
  refine (required_ensures limit (.inl rfl) _).bind fun l => (counter_ensures counter).bind fun c =>
    (inBlock_ensures (hbody.weaken fun h => h.1.1)).bind fun b => ?_
  rcases l with _ | l
  · exact .pure fun ⟨⟨⟨_, x, hx, _⟩, _⟩, _⟩ => nomatch hx
  rcases c with _ | c
  · exact .pure fun ⟨⟨_, x, hx, _⟩, _⟩ => nomatch hx
  refine .pure fun ⟨⟨⟨_, x, hx, hl, hlint⟩, y, hy, hc, hcint, hlvalue⟩, hb⟩ => ?_
  obtain rfl := Option.some.inj hx
  obtain rfl := Option.some.inj hy
  exact .singleton (.repeatLoop hl hlint hc hcint hlvalue hb.wellTyped) hb.labels

theorem switch_ensures (value : Expr) {cases : List SwitchCase}
    (hcases : CasesEnsures Γ ctx labels [] cases) :
    StmtEnsures Γ ctx labels (.switch span value cases none) := by
  change Ensures Γ _ (_ >>= _) _
  simp only [pure_bind]
  refine (required_ensures value (.inl rfl) _).bind fun v =>
    (hcases.weaken fun h => h.1.left).bind fun cs => ?_
  cases v with
  | none => exact .pure fun ⟨⟨_, x, hx, _⟩, _⟩ => nomatch hx
  | some v =>
      refine .pure fun ⟨⟨_, x, hx, hwell, hint⟩, hcs⟩ => ?_
      obtain rfl := Option.some.inj hx
      exact .singleton (.switch hwell hint hcs.nodup hcs.wellTyped
        fun body hbody => nomatch hbody) (congrArg (· ++ []) hcs.labels)

theorem switchDefault_ensures (value : Expr) {cases : List SwitchCase} {default : List Stmt}
    (hcases : CasesEnsures Γ ctx labels [] cases) (hdefault : BlockEnsures Γ ctx labels default) :
    StmtEnsures Γ ctx labels (.switch span value cases (some default)) := by
  change Ensures Γ _ (_ >>= _) _
  refine (required_ensures value (.inl rfl) _).bind fun v =>
    (hcases.weaken fun h => h.1.left).bind fun cs => ?_
  simp only [pure_bind]
  refine (inBlock_ensures (hdefault.weaken fun h => h.1.1.right)).bind fun b => ?_
  cases v with
  | none => exact .pure fun ⟨⟨⟨_, x, hx, _⟩, _⟩, _⟩ => nomatch hx
  | some v =>
      refine .pure fun ⟨⟨⟨_, x, hx, hwell, hint⟩, hcs⟩, hb⟩ => ?_
      obtain rfl := Option.some.inj hx
      refine .singleton (.switch hwell hint hcs.nodup hcs.wellTyped ?_)
        (congrArg₂ (· ++ ·) hcs.labels hb.labels)
      intro body hbody
      obtain rfl := Option.some.inj hbody
      exact hb.wellTyped

theorem goto_ensures (name : String) : StmtEnsures Γ ctx labels (.goto span name) := by
  rw [StmtEnsures, checkStmt, Stmt.labels]
  · cases hfind : ctx.labels.findName? name with
    | some l => exact .pure fun h => .singleton (.goto (h.find name l hfind)) rfl
    | none => exact report_then _ _ impossible
  all_goals intros; contradiction

theorem block_ensures {body : List Stmt} (hbody : BlockEnsures Γ ctx labels body) :
    StmtEnsures Γ ctx labels (.block span body) := by
  change Ensures Γ _ (_ >>= _) _
  exact (inBlock_ensures hbody).bind fun b => .pure fun ⟨_, hb⟩ =>
    .singleton (.block hb.wellTyped) hb.labels

/-- A case whose value was seen before is reported, and its body does not count. -/
theorem caseCons_ensures {seen : List Int32} {e : Expr} {body : List Stmt} {rest : List SwitchCase}
    (hbody : BlockEnsures Γ ctx labels body) (hrest : ∀ seen, CasesEnsures Γ ctx labels seen rest) :
    CasesEnsures Γ ctx labels seen (⟨e, body, span⟩ :: rest) := by
  change Ensures Γ _ (_ >>= _) _
  have hskip := (hrest seen).absurd
    (TypedCase.Checks Γ ctx.result labels (Stmt.blockLabels body ++ Stmt.caseLabels rest) seen)
  refine (caseValue_ensures e).bind fun v =>
    (inBlock_ensures (hbody.weaken fun h => h.1.left)).bind fun b => ?_
  cases v with
  | none => exact hskip.weaken fun ⟨⟨_, x, hx, _⟩, _⟩ => nomatch hx
  | some v =>
      simp only []
      split
      · exact report_then _ _ hskip
      · next hseen =>
          refine ((hrest (seen ++ [v])).weaken fun h => h.1.1.right).bind fun more =>
            .pure fun ⟨⟨_, hb⟩, hmore⟩ => ?_
          exact .cons (by simpa using hseen) hb hmore

end

open BodyM in
mutual

theorem checkStmt_ensures {Γ : TypingEnv} {ctx : BodyContext} {labels : List String} :
    (s : Stmt) → StmtEnsures Γ ctx labels s
  | .var span name ty init => by
      rw [StmtEnsures, checkStmt, Stmt.labels]
      · exact declare_ensures span name ty init
      all_goals intros; contradiction
  | .assign span target value => by
      rw [StmtEnsures, checkStmt, Stmt.labels]
      · exact assign_ensures span target value
      all_goals intros; contradiction
  | .cond _ condition thenBody elseBody =>
      cond_ensures condition (checkBlock_ensures thenBody) (checkBlock_ensures elseBody)
  | .whileLoop _ condition body => whileLoop_ensures condition (checkBlock_ensures body)
  | .repeatLoop _ limit counter body => repeatLoop_ensures limit counter (checkBlock_ensures body)
  | .switch _ value cases none => switch_ensures value (checkCases_ensures [] cases)
  | .switch _ value cases (some default) =>
      switchDefault_ensures value (checkCases_ensures [] cases) (checkBlock_ensures default)
  | .ret span value => by
      rw [StmtEnsures, checkStmt, Stmt.labels]
      · exact (ret_ensures span value).bind fun s => .pure And.right
      all_goals intros; contradiction
  | .call _ e => by
      rw [StmtEnsures, checkStmt, Stmt.labels]
      · exact callStmt_ensures e
      all_goals intros; contradiction
  | .label _ name => by
      rw [StmtEnsures, checkStmt, Stmt.labels]
      exact .pure fun h => .singleton (.label (h.mem name (List.mem_singleton_self name))) rfl
  | .goto _ name => goto_ensures name
  | .block _ body => block_ensures (checkBlock_ensures body)

theorem checkBlock_ensures {Γ : TypingEnv} {ctx : BodyContext} {labels : List String} :
    (body : List Stmt) → BlockEnsures Γ ctx labels body
  | [] => by
      rw [BlockEnsures, checkBlock, Stmt.blockLabels]
      exact .pure fun _ => .nil
  | s :: rest => by
      rw [BlockEnsures, checkBlock, Stmt.blockLabels]
      exact ((checkStmt_ensures s).weaken fun h => h.left).bind fun first =>
        ((checkBlock_ensures rest).weaken fun h => h.1.right).bind fun more =>
          .pure fun ⟨⟨_, hfirst⟩, hmore⟩ => hfirst.append hmore

theorem checkCases_ensures {Γ : TypingEnv} {ctx : BodyContext} {labels : List String}
    (seen : List Int32) : (cases : List SwitchCase) → CasesEnsures Γ ctx labels seen cases
  | [] => by
      rw [CasesEnsures, checkCases, Stmt.caseLabels]
      exact .pure fun _ => ⟨fun _ hc => absurd hc List.not_mem_nil, rfl,
        fun _ hv => absurd hv List.not_mem_nil, List.nodup_nil⟩
  | ⟨_, body, _⟩ :: rest =>
      caseCons_ensures (checkBlock_ensures body) fun seen => checkCases_ensures seen rest

end

end GameScript
