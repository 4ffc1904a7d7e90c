import Mathlib.Algebra.Group.Nat.Defs
import GameScript.Proofs.GeneratedReturns
import GameScript.Proofs.StackBalance

/-!
# Slots at calls and returns

A call in a script without errors has the slots that its function takes, and a returned value those
that its function leaves, as far as no text label is concerned. A text label accepts texts and text
labels of any capacity. An assignment has instructions for these, but an argument or a result stays
as it is, with slots of its own number. So the numbers agree if and only if they agree at text
labels. The instruction that calls a native also keeps only 32 bits of the number of slots it takes.
-/
namespace GameScript

/-- The slots of those types that stand where a text label is expected. -/
def labelSlots : List Ty → List Ty → Nat
  | target :: targets, ty :: tys =>
    (if target.isTextLabel then ty.slots else 0) + labelSlots targets tys
  | _, _ => 0

theorem labelSlots_of_sameList {as as' bs bs' : List Ty} (has : Ty.sameList as as' = true)
    (hbs : Ty.sameList bs bs' = true) : labelSlots as bs = labelSlots as' bs' := by
  induction as generalizing as' bs bs' with
  | nil =>
      cases as' with
      | nil => rfl
      | cons a' as' => simp only [Ty.sameList, Bool.false_eq_true] at has
  | cons a as ih =>
      cases as' with
      | nil => simp only [Ty.sameList, Bool.false_eq_true] at has
      | cons a' as' =>
          simp only [Ty.sameList, Bool.and_eq_true] at has
          cases bs with
          | nil =>
              cases bs' with
              | nil => rfl
              | cons b' bs' => simp only [Ty.sameList, Bool.false_eq_true] at hbs
          | cons b bs =>
              cases bs' with
              | nil => simp only [Ty.sameList, Bool.false_eq_true] at hbs
              | cons b' bs' =>
                  simp only [Ty.sameList, Bool.and_eq_true] at hbs
                  rw [labelSlots, labelSlots, Ty.isTextLabel_eq_of_same has.1,
                    Ty.slots_eq_of_same hbs.1, ih has.2 hbs.2]

/-- Where no text label is expected, an argument has the slots of its parameter. -/
theorem TypedExpr.Arguments.slots {Γ : TypingEnv} {args : List TypedExpr} {params : List Ty}
    (h : TypedExpr.Arguments Γ args params) :
    slotsOf (args.map TypedExpr.ty) + labelSlots params params =
      slotsOf params + labelSlots params (args.map TypedExpr.ty) := by
  induction args generalizing params with
  | nil =>
      cases h
      rfl
  | cons x args ih =>
      cases h with
      | @cons _ _ param params _ hadmits hargs =>
          have hrest := ih hargs
          rw [List.map_cons, slotsOf, slotsOf, labelSlots, labelSlots]
          cases hlabel : param.isTextLabel with
          | true => simp only [if_true]; omega
          | false =>
              rw [Ty.slots_eq_of_admits hadmits hlabel]
              simp only [Bool.false_eq_true, if_false]
              omega

/-- The same for the parameters that a signature declares. -/
theorem Signature.Matches.slots {Γ : TypingEnv} {f : Signature} {result : Option Ty}
    {params : List Ty} {args : List TypedExpr} (h : f.Matches result params)
    (hargs : TypedExpr.Arguments Γ args params) :
    slotsOf (args.map TypedExpr.ty) + labelSlots f.params f.params =
      f.paramSlots + labelSlots f.params (args.map TypedExpr.ty) := by
  have hslots := hargs.slots
  rw [h.paramSlots, labelSlots_of_sameList h.same.2 h.same.2,
    labelSlots_of_sameList h.same.2 (Ty.sameList_refl _)] at hslots
  exact hslots

section
variable {p : TypedProgram}

/-- Generated functions have the arguments and results of the program, and every instruction that
leaves one has the operands for these. -/
theorem GeneratedScript.Of.returns {script : GeneratedScript} (h : script.Of p) (hp : p.WellTyped)
    {d : FunctionDef} (hd : d ∈ script.functions) :
    ∃ f ∈ p.functions, d.name = f.name ∧ d.argSlots = f.argSlots ∧ d.resultSlots = f.resultSlots ∧
      ∀ s ∈ d.body, s.mnemonic = some Opcode.leave.mnemonic →
        s.operands = [Lowering.slotsOperand f.argSlots, .int f.resultSlots] := by
  obtain ⟨f, hf, before, code, n, n', hcode⟩ := exists_of_mem_forall₂ h.functions hd
  have hreturns := hcode.returnsBy hp hf
  refine ⟨f, hf, ?_, ?_, ?_, fun s hs hleave => ?_⟩
  · rw [hcode.eq]
  · rw [hcode.eq]
    rfl
  · rw [hcode.eq]
    rfl
  · rw [hreturns s hs hleave]
    rfl

end

end GameScript
