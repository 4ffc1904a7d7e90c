import GameScript.Proofs.WellTyped

/-!
# Typed expressions are well typed

A check of an expression either gives a well-typed expression or reports an error; it never does
neither. The proof follows the checker: one lemma for each rule, then one induction over
expressions. What a scope must satisfy for this is stated as an invariant of its symbols.
-/
namespace GameScript

/-- The value, if there is one, has the property, and if there is none, an error is reported. -/
structure Checked.Yields {α : Type} (x : Checked α) (P : α → Prop) : Prop where
  value : ∀ a, x.value? = some a → P a
  report : x.value? = none → ∃ d ∈ x.reports, d.isError = true

namespace Checked.Yields

variable {α β : Type} {P : α → Prop} {Q : β → Prop}

theorem pure {a : α} (h : P a) : (Pure.pure a : Checked α).Yields P :=
  ⟨fun _ ha => Option.some.inj ha ▸ h, fun hnone => (nomatch hnone)⟩

theorem fail (span : Span) (e : TypeError) : (Checked.fail span e : Checked α).Yields P :=
  ⟨fun _ ha => (nomatch ha), fun _ => ⟨_, List.mem_singleton_self _, rfl⟩⟩

theorem imp {x : Checked α} {P' : α → Prop} (hx : x.Yields P) (h : ∀ a, P a → P' a) :
    x.Yields P' :=
  ⟨fun a ha => h a (hx.value a ha), hx.report⟩

theorem bind {x : Checked α} {f : α → Checked β} (hx : x.Yields P)
    (hf : ∀ a, P a → (f a).Yields Q) : (x >>= f).Yields Q := by
  cases hvalue : x.value? with
  | none =>
      have hbind : x >>= f = ⟨none, x.reports⟩ := by
        simp only [Bind.bind, hvalue]
      rw [hbind]
      exact ⟨fun _ hb => (nomatch hb), fun _ => hx.report hvalue⟩
  | some a =>
      have hbind : x >>= f = ⟨(f a).value?, x.reports ++ (f a).reports⟩ := by
        simp only [Bind.bind, hvalue]
      have hfa := hf a (hx.value a hvalue)
      rw [hbind]
      refine ⟨hfa.value, fun hnone => ?_⟩
      obtain ⟨d, hd, herror⟩ := hfa.report hnone
      exact ⟨d, List.mem_append_right _ hd, herror⟩

theorem both {x : Checked α} {y : Checked β} (hx : x.Yields P) (hy : y.Yields Q) :
    (x.both y).Yields fun p => P p.1 ∧ Q p.2 := by
  cases hxv : x.value? with
  | none =>
      obtain ⟨d, hd, herror⟩ := hx.report hxv
      have hnone : (x.both y).value? = none := by rw [Checked.both, hxv]; rfl
      refine ⟨fun p hp => ?_, fun _ => ⟨d, List.mem_append_left _ hd, herror⟩⟩
      rw [hnone] at hp
      cases hp
  | some a =>
      cases hyv : y.value? with
      | none =>
          obtain ⟨d, hd, herror⟩ := hy.report hyv
          have hnone : (x.both y).value? = none := by rw [Checked.both, hxv, hyv]; rfl
          refine ⟨fun p hp => ?_, fun _ => ⟨d, List.mem_append_right _ hd, herror⟩⟩
          rw [hnone] at hp
          cases hp
      | some b =>
          have hsome : (x.both y).value? = some (a, b) := by rw [Checked.both, hxv, hyv]; rfl
          refine ⟨fun p hp => ?_, fun hnone => ?_⟩
          · rw [hsome] at hp
            obtain rfl := Option.some.inj hp
            exact ⟨hx.value a hxv, hy.value b hyv⟩
          · rw [hsome] at hnone
            cases hnone

theorem map {x : Checked α} {f : α → β} (hx : x.Yields fun a => Q (f a)) :
    (⟨x.value?.map f, x.reports⟩ : Checked β).Yields Q := by
  refine ⟨fun b hb => ?_, fun hnone => hx.report (Option.map_eq_none_iff.mp hnone)⟩
  obtain ⟨a, ha, rfl⟩ := Option.map_eq_some_iff.mp hb
  exact hx.value a ha

/-- Without an error there is a value. -/
theorem of_clean {x : Checked α} (hx : x.Yields P) (hclean : ∀ d ∈ x.reports, d.isError = false) :
    ∃ a, x.value? = some a ∧ P a := by
  cases hvalue : x.value? with
  | some a => exact ⟨a, rfl, hx.value a hvalue⟩
  | none =>
      obtain ⟨d, hd, herror⟩ := hx.report hvalue
      have hnoerror := hclean d hd
      rw [herror] at hnoerror
      cases hnoerror

end Checked.Yields

theorem SymbolTable.insert_ok {t t' : SymbolTable} {s : Symbol} (h : t.insert s = .ok t') :
    t.find? s.id = none ∧ t' = t ++ [(s.id, s)] := by
  unfold SymbolTable.insert at h
  cases hfind : t.find? s.id with
  | some existing => rw [hfind] at h; cases h
  | none =>
      rw [hfind] at h
      exact ⟨rfl, (Except.ok.inj h).symm⟩

def Symbol.Agrees (Γ : TypingEnv) (s : Symbol) : Prop :=
  match s.kind with
  | .type => True
  | .static _ _ => Γ.static s.name s.ty
  | .global => Γ.global s.name s.ty
  | .function .script => ∀ result params, s.ty = .function result params →
      Γ.function s.name result params
  | .function .native => ∀ result params, s.ty = .function result params →
      Γ.native s.name result params
  | .member _ => ∃ name members, s.ty = .enum name members
  | .arg slot | .frame slot => Γ.frame slot s.ty

structure Scope.Agrees (Γ : TypingEnv) (scope : Scope) : Prop where
  globals : ∀ e ∈ scope.globals.symbols, e.2.Agrees Γ
  blocks : ∀ t ∈ scope.innermost :: scope.enclosing, ∀ e ∈ t, e.2.Agrees Γ

theorem Scope.Agrees.find {Γ : TypingEnv} {scope : Scope} (h : scope.Agrees Γ) {name : String}
    {s : Symbol} (hs : scope.findName? name = some s) : s.Agrees Γ := by
  unfold Scope.findName? Scope.find? at hs
  split at hs
  · next symbol hblock =>
      obtain rfl := Option.some.inj hs
      obtain ⟨t, ht, hfind⟩ := List.exists_of_findSome?_eq_some hblock
      exact h.blocks t ht _ (mem_of_lookup hfind)
  · exact h.globals _ (mem_of_lookup hs)

@[simp] theorem TypedExpr.converted_none (x : TypedExpr) : x.converted none = x := rfl

@[simp] theorem TypedExpr.ty_converted (x : TypedExpr) (c : Conversion) :
    (x.converted (some c)).ty = c.type := rfl

namespace Typing

variable {Γ : TypingEnv}

/-- An expression of the checker: a well-typed value or the name of a type. -/
def IsTyped (Γ : TypingEnv) (x : TypedExpr) : Prop :=
  x.WellTyped Γ ∨ ∃ ty span, x = .typeName (.typeName ty) span

theorem asValue_yields {x : Checked TypedExpr} (h : x.Yields (IsTyped Γ)) :
    (asValue x).Yields (TypedExpr.WellTyped Γ) := by
  apply h.bind
  intro a ha
  split
  · exact .fail _ _
  · next hvalue =>
      rcases ha with ha | ⟨ty, span, rfl⟩
      · exact .pure ha
      · exact absurd rfl (hvalue ty)

theorem name_yields {scope : Scope} (h : scope.Agrees Γ) (span : Span) (name : String) :
    (Typing.name scope span name).Yields (IsTyped Γ) := by
  unfold Typing.name
  cases hs : scope.findName? name with
  | none => exact .fail _ _
  | some s =>
      have hsymbol := h.find hs
      unfold Symbol.Agrees at hsymbol
      cases hkind : s.kind with
      | type =>
          simp only [hkind]
          exact .pure (.inr ⟨s.ty, span, rfl⟩)
      | function linkage =>
          simp only [hkind]
          exact .fail _ _
      | static isArg init =>
          simp only [hkind] at hsymbol ⊢
          exact .pure (.inl (.static hsymbol))
      | global =>
          simp only [hkind] at hsymbol ⊢
          exact .pure (.inl (.global hsymbol))
      | member value =>
          simp only [hkind] at hsymbol ⊢
          exact .pure (.inl (.const (.inr hsymbol)))
      | arg slot =>
          simp only [hkind] at hsymbol ⊢
          exact .pure (.inl (.frame hsymbol))
      | frame slot =>
          simp only [hkind] at hsymbol ⊢
          exact .pure (.inl (.frame hsymbol))

/-- Folding a literal and applying an operator both keep the type of the operand. -/
theorem unary_yields {x : TypedExpr} (op : UnaryOp) (hx : x.WellTyped Γ) (span : Span) :
    (Typing.unary op x span).Yields (TypedExpr.WellTyped Γ) := by
  unfold Typing.unary
  split
  · exact .pure (.const (.inl rfl))
  · exact .pure (.const rfl)
  · exact .pure (.const rfl)
  · split
    · next hdefined => exact .pure (.unary hx hdefined)
    · exact .fail _ _

/-- The rules that convert an operand. -/
theorem binaryRule?_conversions {op : BinaryOp} {a b : Ty} {rule : BinaryRule}
    (h : binaryRule? op a b = some rule) :
    (rule.lhs = none ∧ rule.rhs = none) ∨
    (a = .int ∧ b = .float ∧ rule.lhs = some .intToFloat ∧ rule.rhs = none ∧
      binaryRule? op .float .float = some { result := rule.result }) ∨
    (a = .float ∧ b = .int ∧ rule.lhs = none ∧ rule.rhs = some .intToFloat ∧
      binaryRule? op .float .float = some { result := rule.result }) ∨
    (a = .vector ∧ b = .float ∧ rule.lhs = none ∧ rule.rhs = some .floatToVector ∧
      binaryRule? op .vector .vector = some { result := rule.result }) ∨
    (a = .float ∧ b = .vector ∧ rule.lhs = some .floatToVector ∧ rule.rhs = none ∧
      binaryRule? op .vector .vector = some { result := rule.result }) := by
  have hplain {result : Ty} (h : some { result := result } = some rule) :
      rule.lhs = none ∧ rule.rhs = none := by
    obtain rfl := Option.some.inj h
    exact ⟨rfl, rfl⟩
  unfold binaryRule? at h
  split at h
  case h_3 =>
      right; left
      cases op <;> cases h <;> exact ⟨rfl, rfl, rfl, rfl, rfl⟩
  case h_4 =>
      right; right; left
      cases op <;> cases h <;> exact ⟨rfl, rfl, rfl, rfl, rfl⟩
  case h_9 =>
      right; right; right; left
      cases op <;> cases h <;> exact ⟨rfl, rfl, rfl, rfl, rfl⟩
  case h_10 =>
      right; right; right; right
      cases op <;> cases h <;> exact ⟨rfl, rfl, rfl, rfl, rfl⟩
  all_goals
    left
    repeat' split at h
    all_goals first | exact hplain h | contradiction

theorem binary_yields {x y : TypedExpr} (op : BinaryOp) (hx : x.WellTyped Γ) (hy : y.WellTyped Γ)
    (span : Span) : (Typing.binary op x y span).Yields (TypedExpr.WellTyped Γ) := by
  unfold Typing.binary
  cases hrule : binaryRule? op x.ty y.ty with
  | none => exact .fail _ _
  | some rule =>
      refine .pure ?_
      rcases rule with ⟨lhs, rhs, result⟩
      rcases binaryRule?_conversions hrule with ⟨rfl, rfl⟩ | ⟨hxt, hyt, rfl, rfl, hconverted⟩ |
        ⟨hxt, hyt, rfl, rfl, hconverted⟩ | ⟨hxt, hyt, rfl, rfl, hconverted⟩ |
        ⟨hxt, hyt, rfl, rfl, hconverted⟩
      · exact .binary hx hy hrule
      · refine .binary (.convert hx hxt) hy ?_
        simpa only [TypedExpr.converted_none, TypedExpr.ty_converted, Conversion.type, hyt] using
          hconverted
      · refine .binary hx (.convert hy hyt) ?_
        simpa only [TypedExpr.converted_none, TypedExpr.ty_converted, Conversion.type, hxt] using
          hconverted
      · refine .binary hx (.convert hy hyt) ?_
        simpa only [TypedExpr.converted_none, TypedExpr.ty_converted, Conversion.type, hxt] using
          hconverted
      · refine .binary (.convert hx hxt) hy ?_
        simpa only [TypedExpr.converted_none, TypedExpr.ty_converted, Conversion.type, hyt] using
          hconverted

theorem field_yields {x : TypedExpr} (hx : x.WellTyped Γ) (name : String) (span : Span) :
    (Typing.field x name span).Yields (TypedExpr.WellTyped Γ) := by
  unfold Typing.field
  cases hfield : x.ty.field? name with
  | none => exact .fail _ _
  | some p =>
      cases hlvalue : x.isLValue with
      | false => exact .fail _ _
      | true => exact .pure (.field hx hlvalue hfield)

theorem index_yields {x i : TypedExpr} (hx : x.WellTyped Γ) (hi : i.WellTyped Γ) (span : Span) :
    (Typing.index x i span).Yields (TypedExpr.WellTyped Γ) := by
  unfold Typing.index
  split
  · next item n harray =>
      split
      · exact .fail _ _
      · next hint =>
          have hint : i.ty = .int := by
            apply Ty.eq_of_beq_scalar _ (.inl rfl)
            simpa [bne] using hint
          cases hlvalue : x.isLValue with
          | false => exact .fail _ _
          | true => exact .pure (.index hx hlvalue harray hi hint)
  · exact .fail _ _

theorem component_yields {x : Checked TypedExpr} (h : x.Yields (TypedExpr.WellTyped Γ))
    (span : Span) :
    (Typing.component span x).Yields fun v => v.WellTyped Γ ∧ v.ty = .float := by
  apply h.bind
  intro v hv
  split
  · next hfloat => exact .pure ⟨hv, Ty.eq_of_beq_scalar hfloat (.inr (.inl rfl))⟩
  · exact .fail _ _

/-- What fits a place is well typed and admitted there. -/
theorem coerce_ok {x y : TypedExpr} {target : Ty} (hx : x.WellTyped Γ)
    (h : coerce x target = .ok y) : y.WellTyped Γ ∧ target.Admits y.ty := by
  unfold coerce at h
  cases haccepts : target.accepts x.ty with
  | false =>
      simp only [haccepts, Bool.not_false, if_true] at h
      cases h
  | true =>
      simp only [haccepts, Bool.not_true, Bool.false_eq_true, if_false] at h
      split at h
      · next n hlabel =>
          split at h
          · next hlvalue =>
              obtain rfl := Except.ok.inj h
              exact ⟨.convert hx ⟨hlvalue, n, hlabel⟩, Ty.admits_self .string⟩
          · cases h
      · next hother =>
          obtain rfl := Except.ok.inj h
          exact ⟨hx, haccepts, fun n htarget hlabel => hother n htarget hlabel⟩

/-- Arguments that were all checked fit parameters of the same number. -/
theorem arguments_yields {args : List (Span × Checked TypedExpr)}
    (h : ∀ a ∈ args, a.2.Yields (TypedExpr.WellTyped Γ)) (i : Nat) (params : List Ty) :
    (Typing.arguments i params args).Yields fun values =>
      args.length = params.length → TypedExpr.Arguments Γ values params := by
  induction args generalizing i params with
  | nil =>
      refine .pure fun hlen => ?_
      rw [List.eq_nil_of_length_eq_zero hlen.symm]
      exact .nil
  | cons arg args ih =>
      rw [List.forall_mem_cons] at h
      rw [Typing.arguments]
      apply Checked.Yields.map
      cases params with
      | nil =>
          refine Checked.Yields.imp (Checked.Yields.both (P := fun _ => True) ?_
            (ih h.2 (i + 1) [])) fun p _ hlen => nomatch hlen
          exact h.1.bind fun v _ => .pure trivial
      | cons param params =>
          refine Checked.Yields.imp (Checked.Yields.both
            (P := fun o => ∃ v, o = some v ∧ v.WellTyped Γ ∧ param.Admits v.ty) ?_
            (ih h.2 (i + 1) params)) ?_
          · apply h.1.bind
            intro v hv
            cases hcoerce : coerce v param with
            | error found =>
                simp only [hcoerce]
                exact .fail _ _
            | ok w =>
                simp only [hcoerce]
                exact .pure ⟨w, rfl, coerce_ok hv hcoerce⟩
          · rintro ⟨o, values⟩ ⟨⟨v, rfl, hv, hadmits⟩, hvalues⟩ hlen
            exact .cons hv hadmits (hvalues (Nat.succ.inj hlen))

theorem argumentCount_yields (expected found : Nat) (span : Span) :
    (Typing.argumentCount expected found span).Yields fun _ => found = expected := by
  unfold Typing.argumentCount
  split
  · next h => exact .pure h
  · exact .fail _ _

theorem call_yields {scope : Scope} (h : scope.Agrees Γ) (callee : Expr)
    {args : List (Span × Checked TypedExpr)}
    (hargs : ∀ a ∈ args, a.2.Yields (TypedExpr.WellTyped Γ)) (span : Span) :
    (Typing.call scope callee args span).Yields fun x => x.WellTyped Γ ∧ x.isCall = true := by
  unfold Typing.call
  split
  · next place name =>
      cases hs : scope.findName? name with
      | none => exact .fail _ _
      | some s =>
          have hsymbol := h.find hs
          unfold Symbol.Agrees at hsymbol
          simp only []
          split
          · next linkage result params hkind hty =>
              refine Checked.Yields.bind ((argumentCount_yields params.length args.length span).both
                (arguments_yields hargs 0 params)) ?_
              rintro ⟨_, values⟩ ⟨hlen, hvalues⟩
              cases linkage with
              | script =>
                  simp only [hkind] at hsymbol
                  exact .pure ⟨.call (hsymbol result params hty) (hvalues hlen), rfl⟩
              | native =>
                  simp only [hkind] at hsymbol
                  exact .pure ⟨.native (hsymbol result params hty) (hvalues hlen), rfl⟩
          · exact .fail _ _
          · exact .fail _ _
  · exact .fail _ _

end Typing

mutual

/-- Every expression is typed well or reported. -/
theorem typeExpr_yields {Γ : TypingEnv} {scope : Scope} (h : scope.Agrees Γ) :
    (e : Expr) → (typeExpr scope e).Yields (Typing.IsTyped Γ)
  | .literal span value => by
      cases value with
      | text s => exact .pure (.inl .string)
      | int v => exact .pure (.inl (.const (.inl rfl)))
      | float v => exact .pure (.inl (.const rfl))
      | bool v => exact .pure (.inl (.const rfl))
      | null => exact .pure (.inl (.const rfl))
  | .name span name => Typing.name_yields h span name
  | .unary span op operand =>
      (Typing.asValue_yields (typeExpr_yields h operand)).bind fun _ hx =>
        (Typing.unary_yields op hx span).imp fun _ => .inl
  | .binary span op lhs rhs =>
      ((Typing.asValue_yields (typeExpr_yields h lhs)).both
        (Typing.asValue_yields (typeExpr_yields h rhs))).bind fun _ hxy =>
          (Typing.binary_yields op hxy.1 hxy.2 span).imp fun _ => .inl
  | .field span target name =>
      (Typing.asValue_yields (typeExpr_yields h target)).bind fun _ hx =>
        (Typing.field_yields hx name span).imp fun _ => .inl
  | .index span target index =>
      ((Typing.asValue_yields (typeExpr_yields h target)).both
        (Typing.asValue_yields (typeExpr_yields h index))).bind fun _ hxy =>
          (Typing.index_yields hxy.1 hxy.2 span).imp fun _ => .inl
  | .call span callee args =>
      (Typing.call_yields h callee (typeArgs_yields h args) span).imp fun _ hx => .inl hx.1
  | .vector span x y z =>
      ((Typing.component_yields (Typing.asValue_yields (typeExpr_yields h x)) x.span).both
        ((Typing.component_yields (Typing.asValue_yields (typeExpr_yields h y)) y.span).both
          (Typing.component_yields (Typing.asValue_yields (typeExpr_yields h z)) z.span))).bind
        fun _ ⟨hx, hy, hz⟩ => .pure (.inl (.vector hx.1 hx.2 hy.1 hy.2 hz.1 hz.2))
  | .sizeOf span inner =>
      (typeExpr_yields h inner).bind fun _ _ => .pure (.inl (.const (.inl rfl)))

theorem typeArgs_yields {Γ : TypingEnv} {scope : Scope} (h : scope.Agrees Γ) :
    (args : List Expr) → ∀ a ∈ typeArgs scope args, a.2.Yields (TypedExpr.WellTyped Γ)
  | [] => fun _ ha => absurd ha List.not_mem_nil
  | arg :: rest => by
      rw [typeArgs, List.forall_mem_cons]
      exact ⟨Typing.asValue_yields (typeExpr_yields h arg), typeArgs_yields h rest⟩

end

theorem typeValue_yields {Γ : TypingEnv} {scope : Scope} (h : scope.Agrees Γ) (e : Expr) :
    (typeValue scope e).Yields (TypedExpr.WellTyped Γ) :=
  Typing.asValue_yields (typeExpr_yields h e)

/-- A call that is typed is a call. -/
theorem typeValue_call_yields {Γ : TypingEnv} {scope : Scope} (h : scope.Agrees Γ) (span : Span)
    (callee : Expr) (args : List Expr) :
    (typeValue scope (.call span callee args)).Yields fun x => x.WellTyped Γ ∧ x.isCall = true := by
  apply (Typing.call_yields h callee (typeArgs_yields h args) span).bind
  intro x hx
  split
  · exact .fail _ _
  · exact .pure hx

end GameScript
