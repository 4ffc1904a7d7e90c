import GameScript.Diagnostic

/-!
# Results of checking

Checking an expression gives a value or nothing, and reports what is wrong. Nothing is given only
after something was reported, so one mistake yields one report and not a cascade.
-/
namespace GameScript

/-- The result of a check: a value, unless a problem stands in its way, and the reports so far. -/
structure Checked (α : Type) where
  value? : Option α
  reports : List Diagnostic := []

namespace Checked

/-- No value, because of a typing error at a place of the source. -/
def fail {α : Type} (span : Span) (e : TypeError) : Checked α := ⟨none, [errorAt span (.typing e)]⟩

/-- Both values, checked one after the other; the second is checked even when the first fails. -/
def both {α β : Type} (x : Checked α) (y : Checked β) : Checked (α × β) :=
  { value? := do return (← x.value?, ← y.value?), reports := x.reports ++ y.reports }

instance : Monad Checked where
  pure a := { value? := some a }
  bind x f :=
    match x.value? with
    | none => { value? := none, reports := x.reports }
    | some a =>
      let y := f a
      { value? := y.value?, reports := x.reports ++ y.reports }

end Checked
end GameScript
