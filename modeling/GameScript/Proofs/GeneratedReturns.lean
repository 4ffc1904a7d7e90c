import GameScript.Proofs.AssemblyLines
import GameScript.Proofs.GeneratedProgram

/-!
# Returns in generated code

Every instruction that leaves a function gives back the slots of its arguments and its result,
wherever in the body it stands, and the last instruction of a function is one of them. Whether the
result is on the stack when the function is left is another matter.
-/
namespace GameScript

/-- Opcodes are told apart by their mnemonics. -/
theorem Opcode.mnemonic_inj {o o' : Opcode} (h : o.mnemonic = o'.mnemonic) : o = o' := by
  have hop := o.mnemonic_spec.1
  rw [h, o'.mnemonic_spec.1] at hop
  exact (Op.named.inj (Option.some.inj hop)).symm

namespace Lowering

open Statement (op pushInt mark)

def ReturnsBy (info : BodyInfo) (code : List Statement) : Prop :=
  ∀ s ∈ code, s.mnemonic = some Opcode.leave.mnemonic → s = info.leave

section
variable {Γ : TypingEnv} {info : BodyInfo}

@[simp] theorem returnsBy_nil : ReturnsBy info [] := fun _ hs => absurd hs List.not_mem_nil

@[simp] theorem returnsBy_append {code code' : List Statement} :
    ReturnsBy info (code ++ code') ↔ ReturnsBy info code ∧ ReturnsBy info code' :=
  List.forall_mem_append

theorem returnsBy_cons {s : Statement} {code : List Statement} :
    ReturnsBy info (s :: code) ↔
      (s.mnemonic = some Opcode.leave.mnemonic → s = info.leave) ∧ ReturnsBy info code :=
  List.forall_mem_cons

@[simp] theorem returnsBy_mark {label : String} {code : List Statement} :
    ReturnsBy info (mark label :: code) ↔ ReturnsBy info code := by
  rw [returnsBy_cons]
  exact and_iff_right fun h => nomatch h

@[simp] theorem returnsBy_leave {code : List Statement} :
    ReturnsBy info (info.leave :: code) ↔ ReturnsBy info code := by
  rw [returnsBy_cons]
  exact and_iff_right fun _ => rfl

@[simp] theorem returnsBy_pushInt {v : Int} {code : List Statement} :
    ReturnsBy info (pushInt v :: code) ↔ ReturnsBy info code := by
  rw [returnsBy_cons]
  refine and_iff_right fun h => absurd (Option.some.inj h) ?_
  decide

@[simp] theorem returnsBy_op {o : Opcode} {operands : List Operand} {code : List Statement}
    (ho : o ≠ .leave) : ReturnsBy info (op o operands :: code) ↔ ReturnsBy info code := by
  rw [returnsBy_cons]
  exact and_iff_right fun h => absurd (Opcode.mnemonic_inj (Option.some.inj h)) ho

@[simp] theorem returnsBy_jumpTo {o : Opcode} {label : String} {code : List Statement}
    (ho : o ≠ .leave) : ReturnsBy info (jumpTo o label :: code) ↔ ReturnsBy info code :=
  returnsBy_op ho

/-- Plain instructions are no returns. -/
theorem PlainCode.returnsBy {code : List Statement} (h : PlainCode Γ code) :
    ReturnsBy info code := by
  intro s hs hleave
  cases h s hs with
  | @op o hlayout =>
      obtain rfl := Opcode.mnemonic_inj (Option.some.inj hleave)
      cases hlayout
  | pushInt | pushFloat => exact absurd (Option.some.inj hleave) (by decide)
  | string | call | native | assignString => cases Opcode.mnemonic_inj (Option.some.inj hleave)

end

mutual

theorem lowered_returns {Γ : TypingEnv} {info : BodyInfo} (hlayout : info.layout.Covers Γ)
    {result : Option Ty} {labels : List String} :
    (s : TypedStmt) → {n n' : Nat} → {code : List Statement} → s.WellTyped Γ result labels →
      Lowered info s n code n' → ReturnsBy info code
  | .assign x y, _, _, _, .assign hx hlvalue hy _, .assign hcode =>
      ((store_succeeds hlayout hx hlvalue hy).plain hcode).returnsBy
  | .defaultInit x, _, _, _, .defaultInit hx hlvalue, .defaultInit hplace => by
      have hplain := (address_succeeds hlayout x hx hlvalue).plain hplace
      simp [hplain.returnsBy, (plain_initInPlace (Γ := Γ) x.ty).returnsBy]
  | .cond c thenBody [], _, _, _, .cond hc _ hthen _, .ifThen htest hbody => by
      have hplain := (value_succeeds hlayout c hc).plain htest
      simp [hplain.returnsBy, block_returns hlayout thenBody hthen hbody]
  | .cond c thenBody elseBody, _, _, _, .cond hc _ hthen helse, .ifElse _ htest hfirst hsecond => by
      have hplain := (value_succeeds hlayout c hc).plain htest
      simp [hplain.returnsBy, block_returns hlayout thenBody hthen hfirst,
        block_returns hlayout elseBody helse hsecond]
  | .whileLoop c body, _, _, _, .whileLoop hc _ hbody, .whileLoop htest hcode => by
      have hplain := (value_succeeds hlayout c hc).plain htest
      simp [hplain.returnsBy, block_returns hlayout body hbody hcode]
  | .repeatLoop limit counter body, _, _, _, .repeatLoop hl _ hc _ hlvalue hbody,
      .repeatLoop hplace hcurrent hbound hcode => by
      have hplace := (address_succeeds hlayout counter hc hlvalue).plain hplace
      have hcurrent := (load_succeeds hlayout hc hlvalue).plain hcurrent
      have hbound := (value_succeeds hlayout limit hl).plain hbound
      simp [hplace.returnsBy, hcurrent.returnsBy, hbound.returnsBy,
        block_returns hlayout body hbody hcode]
  | .switch x cases none, _, _, _, .switch hx _ _ hcases _, .switch hselector hbodies => by
      have hplain := (value_succeeds hlayout x hx).plain hselector
      simp [hplain.returnsBy, cases_returns hlayout cases hcases hbodies]
  | .switch x cases (some default), _, _, _, .switch hx _ _ hcases hdefault,
      .switchDefault hselector hbodies hcode => by
      have hplain := (value_succeeds hlayout x hx).plain hselector
      simp [hplain.returnsBy, cases_returns hlayout cases hcases hbodies,
        block_returns hlayout default (hdefault default rfl) hcode]
  | .ret none, _, _, _, _, .leave => by simp
  | .ret (some x), _, _, _, .ret hx _ _, .ret hcode => by
      have hplain := (value_succeeds hlayout x hx).plain hcode
      simp [hplain.returnsBy]
  | .expr x, _, _, _, .expr hx _, .expr hcode => by
      have hplain := (value_succeeds hlayout x hx).plain hcode
      simp [hplain.returnsBy, (plain_drops (Γ := Γ) x.ty.slots).returnsBy]
  | .label name, _, _, _, _, .label => by simp
  | .goto name, _, _, _, _, .goto => by simp
  | .block body, _, _, _, .block hs, .block hbody => block_returns hlayout body hs hbody

theorem block_returns {Γ : TypingEnv} {info : BodyInfo} (hlayout : info.layout.Covers Γ)
    {result : Option Ty} {labels : List String} :
    (body : List TypedStmt) → {n n' : Nat} → {code : List Statement} →
      (∀ s ∈ body, s.WellTyped Γ result labels) → LoweredBlock info body n code n' →
        ReturnsBy info code
  | [], _, _, _, _, .nil => returnsBy_nil
  | s :: rest, _, _, _, hs, .cons hfirst hmore => by
      rw [List.forall_mem_cons] at hs
      simp [lowered_returns hlayout s hs.1 hfirst, block_returns hlayout rest hs.2 hmore]

theorem cases_returns {Γ : TypingEnv} {info : BodyInfo} (hlayout : info.layout.Covers Γ)
    {result : Option Ty} {labels : List String} {done : String} :
    (cases : List TypedCase) → {i n n' : Nat} → {code : List Statement} →
      (∀ c ∈ cases, ∀ s ∈ c.body, s.WellTyped Γ result labels) →
      LoweredCases info done i cases n code n' → ReturnsBy info code
  | [], _, _, _, _, _, .nil => returnsBy_nil
  | ⟨v, body⟩ :: rest, _, _, _, _, hs, .cons hfirst hmore => by
      rw [List.forall_mem_cons] at hs
      simp [block_returns hlayout body hs.1 hfirst, cases_returns hlayout rest hs.2 hmore]

end

/-- The code of a body that ends in a return ends in one, too. -/
theorem leave_of_endsInReturn {info : BodyInfo} {body : List TypedStmt} {n n' : Nat}
    {code : List Statement} (h : LoweredBlock info body n code n')
    (hends : endsInReturn body = true) :
    ∃ front, code = front ++ [info.leave] := by
  induction body generalizing n code with
  | nil => cases hends
  | cons s rest ih =>
      cases h with
      | @cons _ _ _ n₁ _ first more hfirst hmore =>
          cases rest with
          | nil =>
              cases hmore
              rw [List.append_nil]
              cases hfirst with
              | leave => exact ⟨[], rfl⟩
              | ret hcode => exact ⟨_, rfl⟩
              | _ => cases hends
          | cons s' rest =>
              have hlast : endsInReturn (s' :: rest) = true := by
                rwa [endsInReturn, List.getLast?_cons_cons] at hends
              obtain ⟨front, rfl⟩ := ih hmore hlast
              exact ⟨first ++ front, (List.append_assoc _ _ _).symm⟩

section
variable {p : TypedProgram} {f : TypedFunction} {d : FunctionDef} {before code : List Statement}
  {n n' : Nat}

theorem FunctionCode.returnsBy (h : FunctionCode p f d before code n n') (hp : p.WellTyped)
    (hf : f ∈ p.functions) : ReturnsBy (infoOf (layoutOf p) f) d.body := by
  have hlayout : (infoOf (layoutOf p) f).layout.Covers (p.env.inside f.args f.locals) :=
    layoutOf_covers p f.args f.locals
  have hbefore := block_returns hlayout _ (preludeFor_wellTyped hp) h.prelude
  have hcode := block_returns hlayout _ (hp.functions f hf).body h.body
  rw [h.eq]
  dsimp only
  split
  · simp [hbefore, hcode]
  · simp [hbefore, hcode]

/-- The last statement of a function returns from it. -/
theorem FunctionCode.endsInLeave (h : FunctionCode p f d before code n n') :
    ∃ front, d.body = front ++ [(infoOf (layoutOf p) f).leave] := by
  rw [h.eq]
  dsimp only
  split
  · next hends =>
      obtain ⟨front, rfl⟩ := leave_of_endsInReturn h.body hends
      exact ⟨before ++ front, by simp only [List.append_assoc, List.append_nil]⟩
  · exact ⟨before ++ code, rfl⟩

end

end Lowering
end GameScript
