import GameScript.Proofs.ReturnAnalysis

/-!
# Returns that can be reached

The code of a function leaves it once for each return of its body, in the order of the returns, and
once more at the end unless the body ends in a return. In a function with a result every return
carries a value, and the end is never reached. So wherever control can come to from the start of the
function, it is left with the value of a return.
-/
namespace GameScript

/-! ## The return that an instruction was generated for -/

mutual

/-- The returns of a statement in order, each with the value that it carries. -/
def TypedStmt.returns : TypedStmt → List (Option TypedExpr)
  | .ret x => [x]
  | .cond _ thenBody elseBody => TypedStmt.blockReturns thenBody ++ TypedStmt.blockReturns elseBody
  | .whileLoop _ body | .repeatLoop _ _ body | .block body => TypedStmt.blockReturns body
  | .switch _ cases default =>
    TypedStmt.caseReturns cases ++
      match default with
      | some body => TypedStmt.blockReturns body
      | none => []
  | _ => []

def TypedStmt.blockReturns : List TypedStmt → List (Option TypedExpr)
  | [] => []
  | s :: rest => s.returns ++ TypedStmt.blockReturns rest

def TypedStmt.caseReturns : List TypedCase → List (Option TypedExpr)
  | [] => []
  | ⟨_, body⟩ :: rest => TypedStmt.blockReturns body ++ TypedStmt.caseReturns rest

end

def leaveCount (code : List Statement) : Nat := code.countP Statement.isLeave

@[simp] theorem leaveCount_append (code code' : List Statement) :
    leaveCount (code ++ code') = leaveCount code + leaveCount code' := List.countP_append

namespace Lowering

open Statement (op pushInt mark)

/-- The code leaves the function once for each of these returns, in the same order, right after
their values. -/
structure LeavesFor (info : BodyInfo) (code : List Statement) (returns : List (Option TypedExpr)) :
    Prop where
  count : leaveCount code = returns.length
  each : ∀ i s, code[i]? = some s → s.isLeave = true →
    ∃ x operands, value info.layout x = .ok operands ∧
      returns[leaveCount (code.take i)]? = some (some x) ∧ operands <:+ code.take i

def Stays (code : List Statement) : Prop := ∀ s ∈ code, s.isLeave = false

section
variable {Γ : TypingEnv} {info : BodyInfo} {code code' : List Statement}
  {returns returns' : List (Option TypedExpr)}

@[simp] theorem stays_nil : Stays [] := fun _ hs => absurd hs List.not_mem_nil

@[simp] theorem stays_append : Stays (code ++ code') ↔ Stays code ∧ Stays code' :=
  List.forall_mem_append

theorem stays_cons {s : Statement} : Stays (s :: code) ↔ s.isLeave = false ∧ Stays code :=
  List.forall_mem_cons

@[simp] theorem stays_mark {label : String} : Stays (mark label :: code) ↔ Stays code := by
  rw [stays_cons]
  exact and_iff_right rfl

@[simp] theorem stays_op {o : Opcode} (ho : o ≠ .leave) {operands : List Operand} :
    Stays (op o operands :: code) ↔ Stays code := by
  rw [stays_cons, Statement.isLeave, Statement.opcode?_op, decide_eq_false_iff_not]
  exact and_iff_right fun h => ho (Option.some.inj h)

@[simp] theorem stays_jumpTo {o : Opcode} (ho : o ≠ .leave) {label : String} :
    Stays (jumpTo o label :: code) ↔ Stays code := stays_op ho

@[simp] theorem stays_pushInt {v : Int} : Stays (pushInt v :: code) ↔ Stays code := by
  rw [stays_cons, Statement.isLeave, Statement.pushInt, Statement.opcode?_push]
  exact and_iff_right rfl

theorem PlainCode.stays (h : PlainCode Γ code) : Stays code := by
  intro s hs
  rw [Statement.isLeave, decide_eq_false_iff_not]
  cases h s hs with
  | @op o hlayout =>
      rw [Statement.opcode?_op]
      rintro ⟨⟩
      cases hlayout
  | pushInt =>
      rw [Statement.pushInt, Statement.opcode?_push]
      rintro ⟨⟩
  | pushFloat =>
      rw [Statement.opcode?_push]
      rintro ⟨⟩
  | string | call | native | assignString =>
      rw [Statement.opcode?_op]
      rintro ⟨⟩

theorem Stays.leavesFor (h : Stays code) : LeavesFor info code [] := by
  refine ⟨List.countP_eq_zero.mpr fun s hs => by rw [h s hs]; exact Bool.false_ne_true,
    fun i s hs hleave => ?_⟩
  rw [h s (List.mem_of_getElem? hs)] at hleave
  cases hleave

theorem LeavesFor.append (h : LeavesFor info code returns) (h' : LeavesFor info code' returns') :
    LeavesFor info (code ++ code') (returns ++ returns') := by
  constructor
  · rw [leaveCount_append, h.count, h'.count, List.length_append]
  · intro i s hs hleave
    rcases getElem?_append_cases hs with hfirst | ⟨k, rfl, hsecond⟩
    · obtain ⟨x, operands, hvalue, hreturn, hbefore⟩ := h.each i s hfirst hleave
      have hi := (List.getElem?_eq_some_iff.mp hfirst).1
      have hindex := (List.getElem?_eq_some_iff.mp hreturn).1
      rw [List.take_append_of_le_length (Nat.le_of_lt hi)]
      exact ⟨x, operands, hvalue, by rwa [List.getElem?_append_left hindex], hbefore⟩
    · obtain ⟨x, operands, hvalue, hreturn, hbefore⟩ := h'.each k s hsecond hleave
      refine ⟨x, operands, hvalue, ?_, ?_⟩
      · rw [List.take_length_add_append, leaveCount_append, h.count,
          List.getElem?_append_right (Nat.le_add_right _ _), Nat.add_sub_cancel_left]
        exact hreturn
      · rw [List.take_length_add_append]
        exact hbefore.trans (List.suffix_append _ _)

theorem LeavesFor.around {before after : List Statement} (hbefore : Stays before)
    (h : LeavesFor info code returns) (hafter : Stays after) :
    LeavesFor info (before ++ code ++ after) returns := by
  have hwhole := (hbefore.leavesFor.append h).append hafter.leavesFor
  rwa [List.nil_append, List.append_nil] at hwhole

theorem LeavesFor.around_two {before between after : List Statement} (hbefore : Stays before)
    (h : LeavesFor info code returns) (hbetween : Stays between)
    (h' : LeavesFor info code' returns') (hafter : Stays after) :
    LeavesFor info (before ++ code ++ between ++ code' ++ after) (returns ++ returns') := by
  have hwhole := ((h.around hbefore hbetween).append h').append hafter.leavesFor
  rwa [List.append_nil] at hwhole

theorem isLeave_leave (info : BodyInfo) : info.leave.isLeave = true := by
  rw [BodyInfo.leave, Statement.isLeave, Statement.opcode?_op]
  rfl

theorem leavesFor_ret {x : TypedExpr} (hvalue : value info.layout x = .ok code)
    (hcode : Stays code) :
    LeavesFor info (code ++ [info.leave]) [some x] := by
  have hcount : leaveCount code = 0 := (hcode.leavesFor : LeavesFor info code []).count
  constructor
  · rw [leaveCount_append, hcount, leaveCount, List.countP_singleton, isLeave_leave]
    rfl
  · intro i s hs hleave
    rcases getElem?_append_cases hs with hfirst | ⟨k, rfl, hsecond⟩
    · rw [hcode s (List.mem_of_getElem? hfirst)] at hleave
      cases hleave
    · have hk := (List.getElem?_eq_some_iff.mp hsecond).1
      rw [List.length_singleton] at hk
      obtain rfl : k = 0 := by omega
      rw [Nat.add_zero, List.take_left, hcount]
      exact ⟨x, code, hvalue, rfl, List.suffix_refl code⟩

end

mutual

theorem lowered_leavesFor {Γ : TypingEnv} {info : BodyInfo} (hlayout : info.layout.Covers Γ)
    {ty : Ty} {labels : List String} : (s : TypedStmt) → {n n' : Nat} → {code : List Statement} →
      s.WellTyped Γ (some ty) labels → Lowered info s n code n' → LeavesFor info code s.returns
  | .assign x y, _, _, _, .assign hx hlvalue hy _, .assign hcode =>
      ((store_succeeds hlayout hx hlvalue hy).plain hcode).stays.leavesFor
  | .defaultInit x, _, _, _, .defaultInit hx hlvalue, .defaultInit hplace => by
      have hplain := (address_succeeds hlayout x hx hlvalue).plain hplace
      exact ((hplain.append (plain_initInPlace x.ty)).append (.single (.op rfl))).stays.leavesFor
  | .cond c thenBody [], _, _, _, .cond hc _ hthen _, .ifThen htest hbody => by
      have hplain := (value_succeeds hlayout c hc).plain htest
      rw [TypedStmt.returns, TypedStmt.blockReturns, List.append_nil]
      exact (block_leavesFor hlayout thenBody hthen hbody).around (by simp [hplain.stays]) (by simp)
  | .cond c thenBody elseBody, _, _, _, .cond hc _ hthen helse, .ifElse _ htest hfirst hsecond => by
      have hplain := (value_succeeds hlayout c hc).plain htest
      exact .around_two (by simp [hplain.stays]) (block_leavesFor hlayout thenBody hthen hfirst)
        (by simp) (block_leavesFor hlayout elseBody helse hsecond) (by simp)
  | .whileLoop c body, _, _, _, .whileLoop hc _ hbody, .whileLoop htest hcode => by
      have hplain := (value_succeeds hlayout c hc).plain htest
      exact (block_leavesFor hlayout body hbody hcode).around (by simp [hplain.stays]) (by simp)
  | .repeatLoop limit counter body, n, _, _, .repeatLoop hl _ hc _ hlvalue hbody, hcode => by
      cases hcode with
      | @repeatLoop _ _ _ _ _ place current bound _ hplace hcurrent hbound hcode =>
          have hplace := ((address_succeeds hlayout counter hc hlvalue).plain hplace).stays
          have hcurrent := ((load_succeeds hlayout hc hlvalue).plain hcurrent).stays
          have hbound := ((value_succeeds hlayout limit hl).plain hbound).stays
          have htest :
              Stays ([pushInt 0] ++ place ++ [op .store, mark (freshLabel "repeat_begin" n)] ++
                current ++ bound ++
                [op .ilt, jumpTo .jumpZero (freshLabel "repeat_end" (n + 1))]) := by
            simp [hplace, hcurrent, hbound]
          have hstep : Stays (current ++ ([pushInt 1, op .iadd] ++ (place ++
              [op .store, jumpTo .jump (freshLabel "repeat_begin" n),
                mark (freshLabel "repeat_end" (n + 1))]))) := by
            simp [hplace, hcurrent]
          have hwhole := (block_leavesFor hlayout body hbody hcode).around htest hstep
          rwa [← List.append_assoc, ← List.append_assoc, ← List.append_assoc] at hwhole
  | .switch x cases none, _, _, _, .switch hx _ _ hcases _, .switch hselector hbodies => by
      have hplain := (value_succeeds hlayout x hx).plain hselector
      rw [TypedStmt.returns, List.append_nil]
      exact (cases_leavesFor hlayout cases hcases hbodies).around (by simp [hplain.stays]) (by simp)
  | .switch x cases (some default), _, _, _, .switch hx _ _ hcases hdefault,
      .switchDefault hselector hbodies hcode => by
      have hplain := (value_succeeds hlayout x hx).plain hselector
      exact .around_two (by simp [hplain.stays]) (cases_leavesFor hlayout cases hcases hbodies)
        (by simp) (block_leavesFor hlayout default (hdefault default rfl) hcode) (by simp)
  | .ret none, _, _, _, hs, _ => by
      cases hs with
      | leave hnone => cases hnone
  | .ret (some x), _, _, _, .ret hx _ _, .ret hcode => by
      have hplain := (value_succeeds hlayout x hx).plain hcode
      exact leavesFor_ret hcode hplain.stays
  | .expr x, _, _, _, .expr hx _, .expr hcode => by
      have hplain := (value_succeeds hlayout x hx).plain hcode
      exact (hplain.append (plain_drops x.ty.slots)).stays.leavesFor
  | .label name, _, _, _, _, .label => (stays_mark.mpr stays_nil).leavesFor
  | .goto name, _, _, _, _, .goto => ((stays_jumpTo (o := .jump) nofun).mpr stays_nil).leavesFor
  | .block body, _, _, _, .block hs, .block hbody => block_leavesFor hlayout body hs hbody

theorem block_leavesFor {Γ : TypingEnv} {info : BodyInfo} (hlayout : info.layout.Covers Γ) {ty : Ty}
    {labels : List String} : (body : List TypedStmt) → {n n' : Nat} → {code : List Statement} →
      (∀ s ∈ body, s.WellTyped Γ (some ty) labels) → LoweredBlock info body n code n' →
        LeavesFor info code (TypedStmt.blockReturns body)
  | [], _, _, _, _, .nil => stays_nil.leavesFor
  | s :: rest, _, _, _, hs, .cons hfirst hmore => by
      rw [List.forall_mem_cons] at hs
      exact (lowered_leavesFor hlayout s hs.1 hfirst).append
        (block_leavesFor hlayout rest hs.2 hmore)

theorem cases_leavesFor {Γ : TypingEnv} {info : BodyInfo} (hlayout : info.layout.Covers Γ) {ty : Ty}
    {labels : List String} {done : String} : (cases : List TypedCase) → {i n n' : Nat} →
      {code : List Statement} → (∀ c ∈ cases, ∀ s ∈ c.body, s.WellTyped Γ (some ty) labels) →
    LoweredCases info done i cases n code n' →
        LeavesFor info code (TypedStmt.caseReturns cases)
  | [], _, _, _, _, _, .nil => stays_nil.leavesFor
  | ⟨v, body⟩ :: rest, _, _, _, _, hs, .cons hfirst hmore => by
      rw [List.forall_mem_cons] at hs
      exact ((block_leavesFor hlayout body hs.1 hfirst).around (by simp) (by simp)).append
        (cases_leavesFor hlayout rest hs.2 hmore)

end

/-! ## Functions with a result -/

theorem blockReturns_preludeFor (p : TypedProgram) (f : TypedFunction) :
    TypedStmt.blockReturns (preludeFor p f) = [] := by
  have hnone : ∀ body : List TypedStmt, (∀ s ∈ body, s.returns = []) →
      TypedStmt.blockReturns body = [] := by
    intro body hbody
    induction body with
    | nil => rfl
    | cons s rest ih =>
        rw [List.forall_mem_cons] at hbody
        rw [TypedStmt.blockReturns, hbody.1, ih hbody.2, List.nil_append]
  refine hnone _ fun s hs => ?_
  unfold preludeFor at hs
  split at hs
  · obtain ⟨storage, d, -, hdeferred⟩ := mem_preludeOf hs
    obtain ⟨x, -, -, rfl⟩ := deferred_eq_some hdeferred
    rfl
  · exact absurd hs List.not_mem_nil

end Lowering

/-- What is reached in the code of a function with a result. -/
structure FunctionDef.ReturnsValues (d : FunctionDef) (layout : DataLayout) (f : TypedFunction) :
    Prop where
  /-- Every jump goes to one place. -/
  targets : ∀ s ∈ d.body, ∀ label ∈ s.jumpLabels, ∃! j, StandsAt d.body label j
  /-- The function is left once for each return, and once more unless the body ends in a return. -/
  count : leaveCount d.body =
    (TypedStmt.blockReturns f.body).length + if Lowering.endsInReturn f.body then 0 else 1
  /-- Where the function is left, the value of the return has just been computed. -/
  reached : ∀ i s, Reached d.body i → d.body[i]? = some s → s.isLeave = true →
    ∃ x operands, (TypedStmt.blockReturns f.body)[leaveCount (d.body.take i)]? = some (some x) ∧
      Lowering.value layout x = .ok operands ∧ operands <:+ d.body.take i
  /-- An additional instruction to leave the function is not reached. -/
  appended : Lowering.endsInReturn f.body = false →
    (∃ front last, d.body = front ++ [last] ∧ last.isLeave = true) ∧
      ¬ Reached d.body (d.body.length - 1)
  /-- Control does not run past the end. -/
  inside : ¬ Reached d.body d.body.length

/-- Labels that can be told apart stand in different places. -/
theorem existsUnique_label {code : List Statement}
    (hnodup : ((Lowering.codeLabels code).map foldName).Nodup) {label : String}
    (h : label ∈ Lowering.codeLabels code) : ∃! j, StandsAt code label j := by
  obtain ⟨t, ht, hlabel⟩ := List.mem_filterMap.mp h
  obtain ⟨j, hj⟩ := List.mem_iff_getElem?.mp ht
  refine ⟨j, ⟨t, hj, label, hlabel, rfl⟩, ?_⟩
  rintro k ⟨u, hk, name, hname, hsame⟩
  have hpairs := List.pairwise_filterMap.mp (List.pairwise_map.mp hnodup)
  obtain ⟨hjlt, hjget⟩ := List.getElem?_eq_some_iff.mp hj
  obtain ⟨hklt, hkget⟩ := List.getElem?_eq_some_iff.mp hk
  rw [List.pairwise_iff_getElem] at hpairs
  rcases Nat.lt_trichotomy k j with hlt | heq | hlt
  · exact absurd hsame (hpairs k j hklt hjlt hlt name (hkget ▸ hname) label (hjget ▸ hlabel))
  · exact heq
  · exact absurd hsame.symm (hpairs j k hjlt hklt hlt label (hjget ▸ hlabel) name (hkget ▸ hname))

namespace Lowering

section
variable {p : TypedProgram} {f : TypedFunction} {d : FunctionDef} {before code : List Statement}
  {n n' : Nat}

def tailOf (p : TypedProgram) (f : TypedFunction) : List Statement :=
  if endsInReturn f.body then [] else [(infoOf (layoutOf p) f).leave]

theorem FunctionCode.body_eq (h : FunctionCode p f d before code n n') :
    d.body = before ++ code ++ tailOf p f := by
  rw [h.eq]
  rfl

theorem FunctionCode.stops (h : FunctionCode p f d before code n n') (hp : p.WellTyped)
    (hf : f ∈ p.functions) (hresult : f.result.isSome = true)
    (hdollar : NoDollar (TypedStmt.blockLabels f.body)) :
    Stops d.body (before ++ code) := by
  have hlayout : (infoOf (layoutOf p) f).layout.Covers (p.env.inside f.args f.locals) :=
    layoutOf_covers p f.args f.locals
  have hreturns : Returns d.body code n n' :=
    block_stops hlayout hdollar f.body (hp.functions f hf).body hdollar
      ((hp.functions f hf).returns hresult) h.body
  have hnone : NoDollar [] := fun _ hname => absurd hname List.not_mem_nil
  have hbefore := block_jumpsIn hlayout hnone (preludeFor_wellTyped hp)
    (by rw [blockLabels_preludeFor]; exact hnone) h.prelude
  refine hreturns.stops before (tailOf p f) ⟨h.body_eq, hbefore.2.mono fun k hk => .inl hk.2, ?_⟩
  unfold tailOf
  split
  · exact jumpsIn_nil
  · exact jumpsIn_leave.mpr jumpsIn_nil

theorem FunctionCode.leavesFor (h : FunctionCode p f d before code n n') (hp : p.WellTyped)
    (hf : f ∈ p.functions) (hresult : f.result.isSome = true) :
    LeavesFor (infoOf (layoutOf p) f) (before ++ code) (TypedStmt.blockReturns f.body) := by
  have hlayout : (infoOf (layoutOf p) f).layout.Covers (p.env.inside f.args f.locals) :=
    layoutOf_covers p f.args f.locals
  obtain ⟨ty, hty⟩ := Option.isSome_iff_exists.mp hresult
  have hprelude : ∀ s ∈ preludeFor p f, s.WellTyped (p.env.inside f.args f.locals) f.result [] :=
    preludeFor_wellTyped hp
  have hbody := (hp.functions f hf).body
  rw [hty] at hprelude hbody
  have hwhole :=
    (block_leavesFor hlayout _ hprelude h.prelude).append (block_leavesFor hlayout _ hbody h.body)
  rwa [blockReturns_preludeFor, List.nil_append] at hwhole

theorem FunctionCode.returnsValues (h : FunctionCode p f d before code n n') (hp : p.WellTyped)
    (hf : f ∈ p.functions) (hresult : f.result.isSome = true)
    (hdollar : NoDollar (TypedStmt.blockLabels f.body)) :
    d.ReturnsValues (layoutOf p) f := by
  have hlinkable := h.linkable hp hf hdollar
  have hstops := h.stops hp hf hresult hdollar
  have hleaves := h.leavesFor hp hf hresult
  have hbody := h.body_eq
  unfold tailOf at hbody
  have hleave := isLeave_leave (infoOf (layoutOf p) f)
  refine ⟨fun s hs label hlabel => ?_, ?_, fun i s hreached hs hsleave => ?_, fun hends => ?_, ?_⟩
  · exact existsUnique_label hlinkable.labels (target_of_jumpLabel (hlinkable.forms s hs) hlabel)
  · rw [hbody, leaveCount_append, hleaves.count]
    split
    · rfl
    · rw [leaveCount, List.countP_singleton, if_pos hleave]
  · rw [hbody] at hs
    rcases getElem?_append_cases hs with hearly | ⟨k, rfl, hlate⟩
    · obtain ⟨x, operands, hvalue, hreturn, hbefore⟩ := hleaves.each i s hearly hsleave
      have hi := (List.getElem?_eq_some_iff.mp hearly).1
      rw [hbody, List.take_append_of_le_length (Nat.le_of_lt hi)]
      exact ⟨x, operands, hreturn, hvalue, hbefore⟩
    · refine absurd hreached ?_
      split at hlate
      · cases hlate
      · next hends =>
          rw [if_neg hends] at hbody
          cases k with
          | zero => exact hstops.not_reached hbody fun name hname => nomatch hname
          | succ k => cases hlate
  · rw [hends, if_neg Bool.false_ne_true] at hbody
    refine ⟨⟨before ++ code, _, hbody, hleave⟩, ?_⟩
    have hplace : d.body.length - 1 = (before ++ code).length := by
      rw [hbody, List.length_append, List.length_singleton, Nat.add_sub_cancel]
    rw [hplace]
    exact hstops.not_reached hbody fun name hname => nomatch hname
  · refine Stops.not_reached_length ?_
    split at hbody
    · rw [List.append_nil] at hbody
      rwa [← hbody] at hstops
    · have hlast := Stops.of_last hbody (continues_leave _)
      rwa [← hbody] at hlast

end

end Lowering

theorem mem_functions_of_generate {p : TypedProgram} {generated : GeneratedScript}
    (h : generate p = .ok generated) {f : TypedFunction} (hf : f ∈ p.functions) {d : FunctionDef}
    (hd : Lowering.functionDef (Lowering.layoutOf p) (Lowering.preludeOf p) f = .ok d) :
    d ∈ generated.functions := by
  rw [generate_eq] at h
  split at h
  · cases h
  · obtain ⟨functions, hfunctions, heq⟩ := bind_eq_ok.mp h
    obtain rfl := Except.ok.inj heq
    obtain ⟨d', hd', hsame⟩ := exists_of_mem_left_forall₂ (forall₂_of_mapM hfunctions) hf
    obtain rfl := Except.ok.inj (hd.symm.trans hsame)
    exact hd'

/-- In a script without errors and without reserved labels, the code of every function with a result
is left only with the value of a return, whatever labels and jumps its body contains. -/
theorem check_returnsValues {script : Script} (hsuccess : (check script).isSuccess = true)
    (hdollar : ∀ f ∈ script.functions, ∀ label ∈ Stmt.blockLabels f.body, '$' ∉ label.toList) :
    ∀ f ∈ (check script).program.functions, f.result.isSome = true →
      ∃ d, Lowering.functionDef (Lowering.layoutOf (check script).program)
          (Lowering.preludeOf (check script).program) f = .ok d ∧
        (∀ generated, generate (check script).program = .ok generated → d ∈ generated.functions) ∧
        d.ReturnsValues (Lowering.layoutOf (check script).program) f := by
  intro f hf hresult
  obtain ⟨hp, hlabels⟩ := check_wellTyped hsuccess
  obtain ⟨d, hd⟩ := Lowering.functionDef_succeeds hp hf
  refine ⟨d, hd, fun generated hgenerated => ?_, ?_⟩
  · exact mem_functions_of_generate hgenerated hf hd
  · have hmem : (f.name, TypedStmt.blockLabels f.body) ∈ script.functions.map
        fun decl => (decl.name, Stmt.blockLabels decl.body) := hlabels ▸ List.mem_map_of_mem hf
    obtain ⟨decl, hdecl, heq⟩ := List.mem_map.mp hmem
    have hsame : Stmt.blockLabels decl.body = TypedStmt.blockLabels f.body := congrArg Prod.snd heq
    have hnames : Lowering.NoDollar (TypedStmt.blockLabels f.body) := hsame ▸ hdollar decl hdecl
    obtain ⟨before, code, n, n', hcode⟩ := Lowering.functionCode_of_functionDef hd
    exact hcode.returnsValues hp hf hresult hnames

/-- A function that jumps back and returns from the cases of a switch, one of which chooses between
two returns. -/
def pickScript : Script :=
  let i : Expr := .name {} "i"
  let number (n : Int32) : Expr := .literal {} (.int n)
  [.function {
      name := "pick"
      params := [{ name := "i", ty := { name := "INT" } }]
      result := some { name := "INT" }
      body := [
        .label {} "again",
        .cond {} (.binary {} .lt i (number 0)) [.assign {} i (number 7), .goto {} "again"] [],
        .switch {} i [⟨number 0, [.ret {} (some (number 1))], {}⟩]
          (some
            [.cond {} (.binary {} .gt i (number 5)) [.ret {} (some i)]
              [.ret {} (some (number 3))]])] },
    .function
      { name := "main", params := [], body := [.call {} (.call {} (.name {} "pick") [number 4])] }]

theorem check_returnsValues_pickScript :
    (check pickScript).isSuccess = true ∧
      ∃ f ∈ (check pickScript).program.functions, f.name = "pick" ∧
        Lowering.endsInReturn f.body = false ∧ (TypedStmt.blockReturns f.body).length = 3 ∧
        ∃ d, Lowering.functionDef (Lowering.layoutOf (check pickScript).program)
            (Lowering.preludeOf (check pickScript).program) f = .ok d ∧
          d.ReturnsValues (Lowering.layoutOf (check pickScript).program) f := by
  have hall : (check pickScript).isSuccess = true ∧
      ∃ f ∈ (check pickScript).program.functions, f.name = "pick" ∧ f.result.isSome = true ∧
        Lowering.endsInReturn f.body = false ∧ (TypedStmt.blockReturns f.body).length = 3 := by
    rw [check_eq_checkFrom]
    decide +kernel
  have hdollar : ∀ f ∈ pickScript.functions, ∀ label ∈ Stmt.blockLabels f.body,
      '$' ∉ label.toList := by
    decide +kernel
  obtain ⟨hsuccess, f, hf, hname, hresult, hends, hcount⟩ := hall
  obtain ⟨d, hd, -, hreturns⟩ := check_returnsValues hsuccess hdollar f hf hresult
  exact ⟨hsuccess, f, hf, hname, hends, hcount, d, hd, hreturns⟩

end GameScript
