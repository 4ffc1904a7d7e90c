import GameScript.Proofs.CheckEvaluation
import GameScript.Proofs.Occurrences
import GameScript.Proofs.ScriptTyping
import GameScript.Proofs.StackPaths

/-!
# Generated code keeps the stack balanced

In the code of a script without errors every expression leaves the slots of its type, every address
one slot, and every path through a function finds at each statement exactly what it should: nothing
at labels, and the result alone where the function is left. Text labels are kept out of signatures,
because a text label may stand for one of another size there.

There is one exception, which is stated exactly. The instruction that calls a native carries the
sizes of its arguments and its result in 32 bits each, and what does not fit is lost. The code is
balanced if and only if every call of a native loses as much of the one as of the other, so always
when natives have fewer slots than that. Signatures are taken to be of sizes that 64 bits can count;
beyond that the instruction that leaves a function would carry a negative number.
-/
namespace GameScript

namespace Signature

def paramSlots (f : Signature) : Nat := slotsOf f.params

def resultSlots (f : Signature) : Nat := (f.result.map Ty.slots).getD 0

def hasTextLabel (f : Signature) : Bool :=
  f.params.any Ty.isTextLabel || f.result.any Ty.isTextLabel

def isSmall (f : Signature) : Bool := f.paramSlots < 0x100000000 && f.resultSlots < 0x100000000

/-- Whether the sizes can be counted: 64 bits hold the size of each type in bytes, and 64 bits with
a sign the slots of all parameters. -/
def isCountable (f : Signature) : Bool :=
  (f.result.toList ++ f.params).all (fun ty => ty.size < 2 ^ 64) && f.paramSlots < 2 ^ 63

section
variable {f : Signature} {result : Option Ty} {params : List Ty}

theorem Matches.paramSlots (h : f.Matches result params) : slotsOf params = f.paramSlots :=
  slotsOf_eq_of_sameList h.same.2

theorem Matches.resultSlots (h : f.Matches result params) :
    (result.map Ty.slots).getD 0 = f.resultSlots :=
  slots_eq_of_sameResult h.same.1

theorem Matches.params_not_textLabel (h : f.Matches result params) (hf : f.hasTextLabel = false) :
    ∀ ty ∈ params, ty.isTextLabel = false := by
  have hany : params.any Ty.isTextLabel = false := by
    rw [any_isTextLabel_eq_of_sameList h.same.2]
    exact (Bool.or_eq_false_iff.mp hf).1
  intro ty hty
  exact Bool.eq_false_iff.mpr (List.any_eq_false.mp hany ty hty)

theorem paramSlots_lt_of_isCountable (h : f.isCountable = true) : f.paramSlots < 2 ^ 63 := by
  rw [isCountable, Bool.and_eq_true, decide_eq_true_eq] at h
  exact h.2

theorem result_not_textLabel (hf : f.hasTextLabel = false) :
    ∀ ty, f.result = some ty → ty.isTextLabel = false := by
  intro ty hty
  have hany := (Bool.or_eq_false_iff.mp hf).2
  rw [hty] at hany
  exact hany

end
end Signature

/-! ## Calls -/

def TypedProgram.signatures (p : TypedProgram) : List Signature :=
  p.functions.map TypedFunction.signature ++ p.natives.map TypedNative.signature

section
variable {p : TypedProgram} {script : GeneratedScript}

/-- A call takes and leaves what the signature of the function says, for there is no other function
of its name. -/
theorem callee_iff (hof : script.Of p) (hp : p.WellTyped) {f : TypedFunction} (hf : f ∈ p.functions)
    (a b : Nat) : Callee script.functions f.name a b ↔
      a = f.signature.paramSlots ∧ b = f.signature.resultSlots := by
  have hdistinct : (p.functions.map fun f => foldName f.name).Nodup := by
    have hnames : ((p.functions.map TypedFunction.name).map Identity.ofName).Nodup := by
      rw [List.map_map]
      exact hp.distinct
    have hfold := nodup_foldName hnames
    rwa [List.map_map] at hfold
  constructor
  · rintro ⟨d, hd, hname, rfl, rfl⟩
    have hmem : d.signature ∈ p.functions.map TypedFunction.signature :=
      hof.signatures ▸ List.mem_map_of_mem hd
    obtain ⟨g, hg, hsignature⟩ := List.mem_map.mp hmem
    have hgname : foldName g.name = foldName f.name := by
      rw [← hname, show g.name = d.name from congrArg Signature.name hsignature]
    obtain rfl := List.inj_on_of_nodup_map hdistinct hg hf hgname
    rw [hsignature]
    exact ⟨rfl, rfl⟩
  · rintro ⟨rfl, rfl⟩
    have hmem : f.signature ∈ script.functions.map FunctionDef.signature :=
      hof.signatures ▸ List.mem_map_of_mem hf
    obtain ⟨d, hd, hsignature⟩ := List.mem_map.mp hmem
    rw [← hsignature]
    exact ⟨d, hd, congrArg foldName (congrArg Signature.name hsignature), rfl, rfl⟩

theorem callsFit (hof : script.Of p) (hp : p.WellTyped)
    (hlabels : ∀ f ∈ p.signatures, f.hasTextLabel = false) :
    Lowering.CallsFit script.functions p.env := by
  constructor
  · rintro name result params ⟨signature, hmem, rfl, hmatches⟩
    have hnot := hlabels signature (List.mem_append_left _ hmem)
    obtain ⟨f, hf, rfl⟩ := List.mem_map.mp hmem
    refine ⟨hmatches.params_not_textLabel hnot, ?_⟩
    rw [hmatches.paramSlots, hmatches.resultSlots]
    exact turns_of_takes (Statement.action?_op _ _) (takes_call (callee_iff hof hp hf))
  · rintro name result params ⟨signature, hmem, rfl, hmatches⟩
    exact hmatches.params_not_textLabel (hlabels signature (List.mem_append_right _ hmem))

/-! ## Scripts -/

/-- The stack stays balanced in generated code: expressions and addresses leave what they should,
and so does every path through a function. -/
structure GeneratedScript.Balanced (p : TypedProgram) (script : GeneratedScript) : Prop where
  values : ∀ x, p.Uses x → ∃ code,
    Lowering.value (.ofFields script.statics script.globals) x = .ok code ∧
      Turns script.functions code 0 x.ty.slots
  addresses : ∀ x, p.Uses x → x.isLValue = true → ∃ code,
    Lowering.address (.ofFields script.statics script.globals) x = .ok code ∧
      Turns script.functions code 0 1
  paths : ∀ f ∈ script.functions, ∀ c,
    Relation.ReflTransGen (Step script.functions f) ⟨f.body, []⟩ c → Safe script.functions f c

theorem GeneratedScript.Of.layout (hof : script.Of p) :
    DataLayout.ofFields script.statics script.globals = Lowering.layoutOf p := by
  rw [hof.statics, hof.globals, Lowering.layoutOf]

theorem GeneratedScript.Of.balanced (hof : script.Of p) (hp : p.WellTyped)
    (hlabels : ∀ f ∈ p.signatures, f.hasTextLabel = false)
    (hsizes : ∀ f ∈ p.signatures, f.isCountable = true)
    (hkeeps : ∀ x, p.Uses x → x.KeepsCount) : script.Balanced p := by
  have hcalls := callsFit hof hp hlabels
  have hparts : ∀ x, p.Uses x → x.CallsKeepCount := fun x hx y hy => hkeeps y (hx.part hy)
  constructor
  · intro x hx
    obtain ⟨args, locals, hwell⟩ := hx.wellTyped hp
    obtain ⟨code, hcode, -⟩ :=
      Lowering.value_succeeds (Lowering.layoutOf_covers p args locals) x hwell
    rw [hof.layout]
    exact ⟨code, hcode, Lowering.value_turns (hcalls.inside args locals) x hwell (hparts x hx)
      hcode⟩
  · intro x hx hlvalue
    obtain ⟨args, locals, hwell⟩ := hx.wellTyped hp
    obtain ⟨code, hcode, -⟩ :=
      Lowering.address_succeeds (Lowering.layoutOf_covers p args locals) x hwell hlvalue
    rw [hof.layout]
    exact ⟨code, hcode, Lowering.address_turns (hcalls.inside args locals) x hwell (hparts x hx)
      hcode⟩
  · intro d hd c hreach
    obtain ⟨f, hf, before, code, n, n', hcode⟩ := exists_of_mem_forall₂ hof.functions hd
    have hmem : f.signature ∈ p.signatures := List.mem_append_left _ (List.mem_map_of_mem hf)
    have hresult := Signature.result_not_textLabel (hlabels f.signature hmem)
    have hslots : f.argSlots < 2 ^ 63 :=
      Signature.paramSlots_lt_of_isCountable (hsizes f.signature hmem)
    exact SafeFor.reachable (hcode.safeFor hp hf hcalls hslots hresult hkeeps) hreach

/-- A call of a native is filled as the native is declared, and carries what fits of its sizes. -/
theorem TypedProgram.Uses.native (hp : p.WellTyped)
    (hlabels : ∀ f ∈ p.signatures, f.hasTextLabel = false) {ty : Ty} {span : Span} {name : String}
    {args : List TypedExpr} {a b : UInt32} (h : p.Uses (.native ty span name args a b)) :
    ∃ f ∈ p.natives, slotsOf (args.map TypedExpr.ty) = f.signature.paramSlots ∧
      ty.slots = f.signature.resultSlots ∧ a = UInt32.ofNat (slotsOf (args.map TypedExpr.ty)) ∧
      b = UInt32.ofNat ty.slots := by
  obtain ⟨_, _, hwell⟩ := h.wellTyped hp
  cases hwell with
  | @native result params _ _ _ hnative hargs =>
      obtain ⟨signature, hmem, -, hmatches⟩ := hnative
      have hparams := Lowering.slotsOf_arguments hargs
        (hmatches.params_not_textLabel (hlabels signature (List.mem_append_right _ hmem)))
      obtain ⟨f, hf, rfl⟩ := List.mem_map.mp hmem
      rw [hparams, Lowering.slots_getD_void]
      exact ⟨f, hf, hmatches.paramSlots, hmatches.resultSlots, rfl, rfl⟩

/-- Natives whose sizes fit lose nothing. -/
theorem keepsCount_of_isSmall (hp : p.WellTyped)
    (hlabels : ∀ f ∈ p.signatures, f.hasTextLabel = false)
    (hsmall : ∀ f ∈ p.natives, f.signature.isSmall = true) : ∀ x, p.Uses x → x.KeepsCount := by
  intro x hx
  cases x with
  | native ty span name args a b =>
      obtain ⟨f, hf, hparams, hresult, -, -⟩ := hx.native hp hlabels
      have hsizes := hsmall f hf
      simp only [Signature.isSmall, Bool.and_eq_true, decide_eq_true_eq] at hsizes
      rw [TypedExpr.KeepsCount, hparams, hresult]
      omega
  | _ => exact trivial

/-- Code in which expressions leave the slots of their types carries the right sizes in its calls of
natives, as far as the number of slots shows. -/
theorem GeneratedScript.Balanced.keepsCount (h : script.Balanced p) (hp : p.WellTyped)
    (hlabels : ∀ f ∈ p.signatures, f.hasTextLabel = false) :
    ∀ x, p.Uses x → x.KeepsCount := by
  intro x hx
  cases x with
  | native ty span name args a b =>
      obtain ⟨f, hf, -, -, rfl, rfl⟩ := hx.native hp hlabels
      obtain ⟨code, hcode, hturns⟩ := h.values _ hx
      rw [Lowering.value] at hcode
      obtain ⟨first, hfirst, heq⟩ := bind_eq_ok.mp hcode
      cases heq
      have hargs : Turns script.functions first 0 (slotsOf (args.map TypedExpr.ty)) := by
        refine Lowering.values_turns (fun y hy code hcode => ?_) hfirst
        obtain ⟨code', hcode', hturns⟩ := h.values y (hx.part (.nativeArg hy .self))
        obtain rfl := Except.ok.inj (hcode.symm.trans hcode')
        exact hturns
      -- What the call leaves and what its type says are the same number.
      have hslots := (hargs.append (Lowering.nativeCall_turns name _ _)).unique hturns
      rw [TypedExpr.ty] at hslots
      rw [TypedExpr.KeepsCount]
      omega
  | _ => exact trivial

end

/-- The code of a script without errors, with signatures whose sizes can be counted, is balanced
exactly if its calls of natives lose nothing or as much of their arguments as of their result. There
is no code if initial values are to be computed and there is no function to do it. -/
theorem generate_balanced_iff {script : Script} (hsuccess : (check script).isSuccess = true)
    (hlabels : ∀ f ∈ (check script).program.signatures, f.hasTextLabel = false)
    (hsizes : ∀ f ∈ (check script).program.signatures, f.isCountable = true) :
    (∃ generated, generate (check script).program = .ok generated ∧
        (generated.Balanced (check script).program ↔
          ∀ x, (check script).program.Uses x → x.KeepsCount)) ∨
      generate (check script).program = .error (.unsupported .initializerWithoutMain) ∧
        (check script).program.ComputesInit ∧
        ∀ f ∈ (check script).program.functions, f.isMain = false := by
  have hp := (check_wellTyped hsuccess).1
  rcases generate_cases hp with ⟨generated, heq, hof⟩ | hnone
  · refine .inl ⟨generated, heq, ?_, hof.balanced hp hlabels hsizes⟩
    exact fun hbalanced => hbalanced.keepsCount hp hlabels
  · exact .inr hnone

/-- A script that goes round a list of places with a jump, a switch and calls of many slots. -/
def patrol : Script :=
  let i : Expr := .name {} "i"
  let place : Expr := .index {} (.name {} "places") i
  let zero : Expr := .literal {} (.float ⟨0⟩)
  [.static { name := "places", ty := { name := "VECTOR", lengths := [3] } },
    .native {
      name := "DISTANCE"
      params :=
        [{ name := "from", ty := { name := "VECTOR" } },
          { name := "to", ty := { name := "VECTOR" } }]
      result := some { name := "FLOAT" } },
    .function {
      name := "next"
      params := [{ name := "i", ty := { name := "INT" } }]
      result := some { name := "VECTOR" }
      body := [
        .cond {} (.binary {} .lt i (.literal {} (.int 2))) [.ret {} (some place)]
          [.ret {} (some (.vector {} zero zero zero))]] },
    .function {
      name := "main"
      params := []
      body := [
        .var {} "i" { name := "INT" } none,
        .label {} "again",
        .assign {} place (.call {} (.name {} "next") [i]),
        .switch {} i
          [⟨.literal {} (.int 0), [.call {} (.call {} (.name {} "DISTANCE") [place, place])], {}⟩]
          (some [.goto {} "again"])] }]

theorem generate_balanced_iff_patrol :
    (check patrol).isSuccess = true ∧
      (∀ f ∈ (check patrol).program.signatures, f.hasTextLabel = false) ∧
      (∀ f ∈ (check patrol).program.signatures, f.isCountable = true) ∧
      ∃ generated, generate (check patrol).program = .ok generated ∧
        generated.Balanced (check patrol).program ∧
        ∀ x, (check patrol).program.Uses x → x.KeepsCount := by
  have hall : (check patrol).isSuccess = true ∧
      (∀ f ∈ (check patrol).program.signatures, f.hasTextLabel = false) ∧
      (∀ f ∈ (check patrol).program.signatures, f.isCountable = true) ∧
      (∀ f ∈ (check patrol).program.natives, f.signature.isSmall = true) ∧
      ¬ ∀ f ∈ (check patrol).program.functions, f.isMain = false := by
    rw [check_eq_checkFrom]
    decide +kernel
  obtain ⟨hsuccess, hlabels, hsizes, hsmall, hmain⟩ := hall
  have hkeeps := keepsCount_of_isSmall (check_wellTyped hsuccess).1 hlabels hsmall
  rcases generate_balanced_iff hsuccess hlabels hsizes with ⟨generated, heq, hiff⟩ | hnone
  · exact ⟨hsuccess, hlabels, hsizes, generated, heq, hiff.mpr hkeeps, hkeeps⟩
  · exact absurd hnone.2.2 hmain

end GameScript
