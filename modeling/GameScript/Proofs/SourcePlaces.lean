import GameScript.Proofs.ExprTyping

/-!
# Typed expressions stand where their source stands

Whatever is in scope, an expression is either typed, and then stands at the same place of the
source, or an error is reported. Nothing is asked of the symbols here, so this also holds while a
scope still has gaps.
-/
namespace GameScript

namespace Typing

theorem asValue_stands {x : Checked TypedExpr} {span : Span} (h : x.Yields (·.span = span)) :
    (asValue x).Yields (·.span = span) := by
  apply h.bind
  intro value hvalue
  split
  · exact .fail _ _
  · exact .pure hvalue

theorem name_stands (scope : Scope) (span : Span) (name : String) :
    (Typing.name scope span name).Yields (·.span = span) := by
  unfold Typing.name
  cases scope.findName? name with
  | none => exact .fail _ _
  | some s =>
      simp only []
      split
      case h_7 => exact .fail _ _
      all_goals exact .pure rfl

theorem unary_stands (op : UnaryOp) (x : TypedExpr) (span : Span) :
    (Typing.unary op x span).Yields (·.span = span) := by
  unfold Typing.unary
  split
  · exact .pure rfl
  · exact .pure rfl
  · exact .pure rfl
  · split
    · exact .pure rfl
    · exact .fail _ _

theorem binary_stands (op : BinaryOp) (x y : TypedExpr) (span : Span) :
    (Typing.binary op x y span).Yields (·.span = span) := by
  unfold Typing.binary
  split
  · exact .fail _ _
  · exact .pure rfl

theorem field_stands (x : TypedExpr) (name : String) (span : Span) :
    (Typing.field x name span).Yields (·.span = span) := by
  unfold Typing.field
  split
  · exact .fail _ _
  · split
    · exact .pure rfl
    · exact .fail _ _

theorem index_stands (x i : TypedExpr) (span : Span) :
    (Typing.index x i span).Yields (·.span = span) := by
  unfold Typing.index
  split
  · split
    · exact .fail _ _
    · split
      · exact .fail _ _
      · exact .pure rfl
  · exact .fail _ _

theorem component_reports {x : Checked TypedExpr} (h : x.Yields fun _ => True) (span : Span) :
    (component span x).Yields fun _ => True := by
  apply h.bind
  intro value _
  split
  · exact .pure trivial
  · exact .fail _ _

theorem arguments_reports {args : List (Span × Checked TypedExpr)}
    (h : ∀ a ∈ args, a.2.Yields fun _ => True) (i : Nat) (params : List Ty) :
    (arguments i params args).Yields fun _ => True := by
  induction args generalizing i params with
  | nil => exact .pure trivial
  | cons arg args ih =>
      rw [List.forall_mem_cons] at h
      rw [arguments]
      apply Checked.Yields.map
      refine (Checked.Yields.both (P := fun _ => True) ?_ (ih h.2 (i + 1) params.tail)).imp
        fun _ _ => trivial
      apply h.1.bind
      intro value _
      cases params with
      | nil => exact .pure trivial
      | cons param params =>
          simp only []
          split
          · exact .pure trivial
          · exact .fail _ _

theorem call_stands (scope : Scope) (callee : Expr) {args : List (Span × Checked TypedExpr)}
    (hargs : ∀ a ∈ args, a.2.Yields fun _ => True) (span : Span) :
    (Typing.call scope callee args span).Yields fun x => x.span = span ∧ x.isCall = true := by
  unfold Typing.call
  split
  · next place name =>
      cases scope.findName? name with
      | none => exact .fail _ _
      | some s =>
          simp only []
          split
          · next linkage result params _ _ =>
              refine Checked.Yields.bind ((argumentCount_yields params.length args.length span).both
                (arguments_reports hargs 0 params)) fun p _ => ?_
              cases linkage with
              | script => exact .pure ⟨rfl, rfl⟩
              | native => exact .pure ⟨rfl, rfl⟩
          · exact .fail _ _
          · exact .fail _ _
  · exact .fail _ _

/-- Fitting a value to a place does not move it, and a value of that very type is kept as it is. -/
theorem coerce_stands {x y : TypedExpr} {target : Ty} (h : coerce x target = .ok y) :
    y.span = x.span ∧ (target = x.ty → y = x) := by
  unfold coerce at h
  split at h
  · cases h
  · split at h
    · next n hlabel _ =>
        split at h
        · obtain rfl := Except.ok.inj h
          exact ⟨rfl, fun hty => nomatch hty.trans hlabel⟩
        · cases h
    · obtain rfl := Except.ok.inj h
      exact ⟨rfl, fun _ => rfl⟩

end Typing

mutual

theorem typeExpr_stands (scope : Scope) : (e : Expr) → (typeExpr scope e).Yields (·.span = e.span)
  | .literal span value => by
      cases value with
      | text s => exact .pure rfl
      | int v => exact .pure rfl
      | float v => exact .pure rfl
      | bool v => exact .pure rfl
      | null => exact .pure rfl
  | .name span name => Typing.name_stands scope span name
  | .unary span op operand =>
      (Typing.asValue_stands (typeExpr_stands scope operand)).bind fun x _ =>
        Typing.unary_stands op x span
  | .binary span op lhs rhs =>
      ((Typing.asValue_stands (typeExpr_stands scope lhs)).both
        (Typing.asValue_stands (typeExpr_stands scope rhs))).bind fun p _ =>
          Typing.binary_stands op p.1 p.2 span
  | .field span target name =>
      (Typing.asValue_stands (typeExpr_stands scope target)).bind fun x _ =>
        Typing.field_stands x name span
  | .index span target index =>
      ((Typing.asValue_stands (typeExpr_stands scope target)).both
        (Typing.asValue_stands (typeExpr_stands scope index))).bind fun p _ =>
          Typing.index_stands p.1 p.2 span
  | .call span callee args =>
      (Typing.call_stands scope callee (typeArgs_reports scope args) span).imp fun _ h => h.1
  | .vector span x y z =>
      have hcomponent (e : Expr) (h : (typeExpr scope e).Yields (·.span = e.span)) :
          (Typing.component e.span (Typing.asValue (typeExpr scope e))).Yields fun _ => True :=
        Typing.component_reports ((Typing.asValue_stands h).imp fun _ _ => trivial) e.span
      ((hcomponent x (typeExpr_stands scope x)).both ((hcomponent y (typeExpr_stands scope y)).both
        (hcomponent z (typeExpr_stands scope z)))).bind fun _ _ => .pure rfl
  | .sizeOf span inner => (typeExpr_stands scope inner).bind fun _ _ => .pure rfl

theorem typeArgs_reports (scope : Scope) :
    (args : List Expr) → ∀ a ∈ typeArgs scope args, a.2.Yields fun _ => True
  | [] => fun _ ha => absurd ha List.not_mem_nil
  | arg :: rest => by
      rw [typeArgs, List.forall_mem_cons]
      exact ⟨(Typing.asValue_stands (typeExpr_stands scope arg)).imp fun _ _ => trivial,
        typeArgs_reports scope rest⟩

end

theorem typeValue_stands (scope : Scope) (e : Expr) :
    (typeValue scope e).Yields (·.span = e.span) :=
  Typing.asValue_stands (typeExpr_stands scope e)

/-- A call that is typed is a call. -/
theorem typeValue_call_stands (scope : Scope) (span : Span) (callee : Expr) (args : List Expr) :
    (typeValue scope (.call span callee args)).Yields fun x => x.span = span ∧ x.isCall = true := by
  apply (Typing.call_stands scope callee (typeArgs_reports scope args) span).bind
  intro x hx
  split
  · exact .fail _ _
  · exact .pure hx

end GameScript
