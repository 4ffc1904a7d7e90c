import GameScript.Proofs.GeneratedProgram

/-!
# Where expressions occur

An expression occurs in a program in the body of a function or in the initial value of a variable,
either by itself or as a part of another. Everything that occurs in a well-typed program is well
typed, for the function that it occurs in.
-/
namespace GameScript

/-- `x` is the other expression or stands in it. -/
inductive TypedExpr.Part (x : TypedExpr) : TypedExpr → Prop where
  | self : Part x x
  | converted {ty span c y} : Part x y → Part x (.convert ty span c y)
  | operand {ty span op y} : Part x y → Part x (.unary ty span op y)
  | left {ty span op y z} : Part x y → Part x (.binary ty span op y z)
  | right {ty span op y z} : Part x z → Part x (.binary ty span op y z)
  | ofField {ty span y slots} : Part x y → Part x (.field ty span y slots)
  | ofElement {ty span y i slots} : Part x y → Part x (.index ty span y i slots)
  | position {ty span y i slots} : Part x i → Part x (.index ty span y i slots)
  | callArg {ty span name args y} : y ∈ args → Part x y → Part x (.call ty span name args)
  | nativeArg {ty span name args a b y} : y ∈ args → Part x y →
      Part x (.native ty span name args a b)
  | first {ty span y z w} : Part x y → Part x (.vector ty span y z w)
  | second {ty span y z w} : Part x z → Part x (.vector ty span y z w)
  | third {ty span y z w} : Part x w → Part x (.vector ty span y z w)

inductive TypedStmt.Uses (x : TypedExpr) : TypedStmt → Prop where
  | target {y z} : x.Part y → Uses x (.assign y z)
  | source {y z} : x.Part z → Uses x (.assign y z)
  | defaultInit {y} : x.Part y → Uses x (.defaultInit y)
  | condition {c thenBody elseBody} : x.Part c → Uses x (.cond c thenBody elseBody)
  | thenBody {c thenBody elseBody s} : s ∈ thenBody → Uses x s → Uses x (.cond c thenBody elseBody)
  | elseBody {c thenBody elseBody s} : s ∈ elseBody → Uses x s → Uses x (.cond c thenBody elseBody)
  | loopCondition {c body} : x.Part c → Uses x (.whileLoop c body)
  | loopBody {c body s} : s ∈ body → Uses x s → Uses x (.whileLoop c body)
  | limit {y z body} : x.Part y → Uses x (.repeatLoop y z body)
  | counter {y z body} : x.Part z → Uses x (.repeatLoop y z body)
  | repeated {y z body s} : s ∈ body → Uses x s → Uses x (.repeatLoop y z body)
  | selector {y cases default} : x.Part y → Uses x (.switch y cases default)
  | case {y cases default c s} : c ∈ cases → s ∈ c.body → Uses x s →
      Uses x (.switch y cases default)
  | default {y cases body s} : s ∈ body → Uses x s → Uses x (.switch y cases (some body))
  | result {y} : x.Part y → Uses x (.ret (some y))
  | expr {y} : x.Part y → Uses x (.expr y)
  | block {body s} : s ∈ body → Uses x s → Uses x (.block body)

/-- `s` is the other statement or stands in it. -/
inductive TypedStmt.Within (s : TypedStmt) : TypedStmt → Prop where
  | self : Within s s
  | thenBody {c thenBody elseBody t} : t ∈ thenBody → Within s t →
      Within s (.cond c thenBody elseBody)
  | elseBody {c thenBody elseBody t} : t ∈ elseBody → Within s t →
      Within s (.cond c thenBody elseBody)
  | loopBody {c body t} : t ∈ body → Within s t → Within s (.whileLoop c body)
  | repeated {y z body t} : t ∈ body → Within s t → Within s (.repeatLoop y z body)
  | case {y cases default c t} : c ∈ cases → t ∈ c.body → Within s t →
      Within s (.switch y cases default)
  | default {y cases body t} : t ∈ body → Within s t → Within s (.switch y cases (some body))
  | block {body t} : t ∈ body → Within s t → Within s (.block body)

inductive TypedProgram.Uses (p : TypedProgram) (x : TypedExpr) : Prop where
  | body {f s} : f ∈ p.functions → s ∈ f.body → s.Uses x → Uses p x
  | init {d y} : d ∈ p.statics ++ p.globals → d.init = some y → x.Part y → Uses p x

theorem TypedExpr.Part.trans {x y z : TypedExpr} (hxy : x.Part y) (hyz : y.Part z) : x.Part z := by
  induction hyz with
  | self => exact hxy
  | converted _ ih => exact .converted ih
  | operand _ ih => exact .operand ih
  | left _ ih => exact .left ih
  | right _ ih => exact .right ih
  | ofField _ ih => exact .ofField ih
  | ofElement _ ih => exact .ofElement ih
  | position _ ih => exact .position ih
  | callArg hmem _ ih => exact .callArg hmem ih
  | nativeArg hmem _ ih => exact .nativeArg hmem ih
  | first _ ih => exact .first ih
  | second _ ih => exact .second ih
  | third _ ih => exact .third ih

theorem TypedStmt.Uses.part {x y : TypedExpr} {s : TypedStmt} (h : s.Uses y) (hxy : x.Part y) :
    s.Uses x := by
  induction h with
  | target hy => exact .target (hxy.trans hy)
  | source hy => exact .source (hxy.trans hy)
  | defaultInit hy => exact .defaultInit (hxy.trans hy)
  | condition hy => exact .condition (hxy.trans hy)
  | thenBody hmem _ ih => exact .thenBody hmem ih
  | elseBody hmem _ ih => exact .elseBody hmem ih
  | loopCondition hy => exact .loopCondition (hxy.trans hy)
  | loopBody hmem _ ih => exact .loopBody hmem ih
  | limit hy => exact .limit (hxy.trans hy)
  | counter hy => exact .counter (hxy.trans hy)
  | repeated hmem _ ih => exact .repeated hmem ih
  | selector hy => exact .selector (hxy.trans hy)
  | case hc hmem _ ih => exact .case hc hmem ih
  | default hmem _ ih => exact .default hmem ih
  | result hy => exact .result (hxy.trans hy)
  | expr hy => exact .expr (hxy.trans hy)
  | block hmem _ ih => exact .block hmem ih

theorem TypedProgram.Uses.part {p : TypedProgram} {x y : TypedExpr} (h : p.Uses y)
    (hxy : x.Part y) : p.Uses x := by
  cases h with
  | body hf hs hy => exact .body hf hs (hy.part hxy)
  | init hd hinit hy => exact .init hd hinit (hxy.trans hy)

theorem TypedExpr.Arguments.wellTyped {Γ : TypingEnv} {args : List TypedExpr} {params : List Ty}
    (h : TypedExpr.Arguments Γ args params) : ∀ y ∈ args, y.WellTyped Γ := by
  induction args generalizing params with
  | nil => exact fun y hy => absurd hy List.not_mem_nil
  | cons x args ih =>
      cases h with
      | cons hx _ hargs => exact List.forall_mem_cons.mpr ⟨hx, ih hargs⟩

theorem TypedExpr.Part.wellTyped {Γ : TypingEnv} {x y : TypedExpr} (h : x.Part y)
    (hy : y.WellTyped Γ) : x.WellTyped Γ := by
  induction h with
  | self => exact hy
  | converted _ ih =>
      cases hy with
      | convert hy _ => exact ih hy
  | operand _ ih =>
      cases hy with
      | unary hy _ => exact ih hy
  | left _ ih =>
      cases hy with
      | binary hy _ _ => exact ih hy
  | right _ ih =>
      cases hy with
      | binary _ hz _ => exact ih hz
  | ofField _ ih =>
      cases hy with
      | field hy _ _ => exact ih hy
  | ofElement _ ih =>
      cases hy with
      | index hy _ _ _ _ => exact ih hy
  | position _ ih =>
      cases hy with
      | index _ _ _ hi _ => exact ih hi
  | callArg hmem _ ih =>
      cases hy with
      | call _ hargs => exact ih (hargs.wellTyped _ hmem)
  | nativeArg hmem _ ih =>
      cases hy with
      | native _ hargs => exact ih (hargs.wellTyped _ hmem)
  | first _ ih =>
      cases hy with
      | vector hy _ _ _ _ _ => exact ih hy
  | second _ ih =>
      cases hy with
      | vector _ _ hz _ _ _ => exact ih hz
  | third _ ih =>
      cases hy with
      | vector _ _ _ _ hw _ => exact ih hw

theorem TypedStmt.Uses.wellTyped {Γ : TypingEnv} {result : Option Ty} {labels : List String}
    {s : TypedStmt} {x : TypedExpr} (h : s.Uses x) (hs : s.WellTyped Γ result labels) :
    x.WellTyped Γ := by
  induction h with
  | target hx =>
      cases hs with
      | assign hy _ _ _ => exact hx.wellTyped hy
  | source hx =>
      cases hs with
      | assign _ _ hz _ => exact hx.wellTyped hz
  | defaultInit hx =>
      cases hs with
      | defaultInit hy _ => exact hx.wellTyped hy
  | condition hx =>
      cases hs with
      | cond hc _ _ _ => exact hx.wellTyped hc
  | thenBody hmem _ ih =>
      cases hs with
      | cond _ _ hthen _ => exact ih (hthen _ hmem)
  | elseBody hmem _ ih =>
      cases hs with
      | cond _ _ _ helse => exact ih (helse _ hmem)
  | loopCondition hx =>
      cases hs with
      | whileLoop hc _ _ => exact hx.wellTyped hc
  | loopBody hmem _ ih =>
      cases hs with
      | whileLoop _ _ hbody => exact ih (hbody _ hmem)
  | limit hx =>
      cases hs with
      | repeatLoop hy _ _ _ _ _ => exact hx.wellTyped hy
  | counter hx =>
      cases hs with
      | repeatLoop _ _ hz _ _ _ => exact hx.wellTyped hz
  | repeated hmem _ ih =>
      cases hs with
      | repeatLoop _ _ _ _ _ hbody => exact ih (hbody _ hmem)
  | selector hx =>
      cases hs with
      | switch hy _ _ _ _ => exact hx.wellTyped hy
  | case hc hmem _ ih =>
      cases hs with
      | switch _ _ _ hcases _ => exact ih (hcases _ hc _ hmem)
  | default hmem _ ih =>
      cases hs with
      | switch _ _ _ _ hdefault => exact ih (hdefault _ rfl _ hmem)
  | result hx =>
      cases hs with
      | ret hy _ _ => exact hx.wellTyped hy
  | expr hx =>
      cases hs with
      | expr hy _ => exact hx.wellTyped hy
  | block hmem _ ih =>
      cases hs with
      | block hbody => exact ih (hbody _ hmem)

theorem TypedStmt.Within.wellTyped {Γ : TypingEnv} {result : Option Ty} {labels : List String}
    {s t : TypedStmt} (h : s.Within t) (ht : t.WellTyped Γ result labels) :
    s.WellTyped Γ result labels := by
  induction h with
  | self => exact ht
  | thenBody hmem _ ih =>
      cases ht with
      | cond _ _ hthen _ => exact ih (hthen _ hmem)
  | elseBody hmem _ ih =>
      cases ht with
      | cond _ _ _ helse => exact ih (helse _ hmem)
  | loopBody hmem _ ih =>
      cases ht with
      | whileLoop _ _ hbody => exact ih (hbody _ hmem)
  | repeated hmem _ ih =>
      cases ht with
      | repeatLoop _ _ _ _ _ hbody => exact ih (hbody _ hmem)
  | case hc hmem _ ih =>
      cases ht with
      | switch _ _ _ hcases _ => exact ih (hcases _ hc _ hmem)
  | default hmem _ ih =>
      cases ht with
      | switch _ _ _ _ hdefault => exact ih (hdefault _ rfl _ hmem)
  | block hmem _ ih =>
      cases ht with
      | block hbody => exact ih (hbody _ hmem)

/-- What occurs in a well-typed program is well typed in the frame of some function. -/
theorem TypedProgram.Uses.wellTyped {p : TypedProgram} {x : TypedExpr} (h : p.Uses x)
    (hp : p.WellTyped) : ∃ args locals, x.WellTyped (p.env.inside args locals) := by
  cases h with
  | body hf hs hx => exact ⟨_, _, hx.wellTyped ((hp.functions _ hf).body _ hs)⟩
  | @init d y hd hinit hx =>
      have hdata : d.WellTyped p.env := by
        rcases List.mem_append.mp hd with hd | hd
        · exact hp.statics d hd
        · exact hp.globals d hd
      exact ⟨[], [],
        (hx.wellTyped (hdata.init y hinit).1).mono (TypingEnv.sub_inside _ _ _ _ [] [])⟩

/-! ## Lists of occurrences -/

mutual

def TypedExpr.parts : TypedExpr → List TypedExpr
  | .convert ty span c y => .convert ty span c y :: y.parts
  | .unary ty span op y => .unary ty span op y :: y.parts
  | .binary ty span op y z => .binary ty span op y z :: (y.parts ++ z.parts)
  | .field ty span y slots => .field ty span y slots :: y.parts
  | .index ty span y i slots => .index ty span y i slots :: (y.parts ++ i.parts)
  | .call ty span name args => .call ty span name args :: TypedExpr.listParts args
  | .native ty span name args a b => .native ty span name args a b :: TypedExpr.listParts args
  | .vector ty span y z w => .vector ty span y z w :: (y.parts ++ z.parts ++ w.parts)
  | x => [x]

def TypedExpr.listParts : List TypedExpr → List TypedExpr
  | [] => []
  | x :: rest => x.parts ++ TypedExpr.listParts rest

end

mutual

def TypedStmt.exprs : TypedStmt → List TypedExpr
  | .assign y z => y.parts ++ z.parts
  | .defaultInit y | .ret (some y) | .expr y => y.parts
  | .cond c thenBody elseBody =>
    c.parts ++ TypedStmt.blockExprs thenBody ++ TypedStmt.blockExprs elseBody
  | .whileLoop c body => c.parts ++ TypedStmt.blockExprs body
  | .repeatLoop y z body => y.parts ++ z.parts ++ TypedStmt.blockExprs body
  | .switch y cases none => y.parts ++ TypedStmt.caseExprs cases
  | .switch y cases (some body) => y.parts ++ TypedStmt.caseExprs cases ++ TypedStmt.blockExprs body
  | .block body => TypedStmt.blockExprs body
  | .ret none | .label _ | .goto _ => []

def TypedStmt.blockExprs : List TypedStmt → List TypedExpr
  | [] => []
  | s :: rest => s.exprs ++ TypedStmt.blockExprs rest

def TypedStmt.caseExprs : List TypedCase → List TypedExpr
  | [] => []
  | ⟨_, body⟩ :: rest => TypedStmt.blockExprs body ++ TypedStmt.caseExprs rest

end

def TypedProgram.exprs (p : TypedProgram) : List TypedExpr :=
  p.functions.flatMap (fun f => TypedStmt.blockExprs f.body) ++
    (p.statics ++ p.globals).flatMap fun d => TypedExpr.listParts d.init.toList

theorem TypedExpr.mem_parts_self (x : TypedExpr) : x ∈ x.parts := by
  cases x <;> simp [parts]

/-- What one item contributes to a list that is built item by item is in that list. -/
theorem mem_of_mem_item {α β : Type} {f : α → List β} {g : List α → List β}
    (hg : ∀ a as, g (a :: as) = f a ++ g as) {a : α} {b : β} {as : List α} (ha : a ∈ as)
    (hb : b ∈ f a) :
    b ∈ g as := by
  induction as with
  | nil => cases ha
  | cons a' as ih =>
      rw [hg, List.mem_append]
      rcases List.mem_cons.mp ha with rfl | ha
      · exact .inl hb
      · exact .inr (ih ha)

theorem TypedExpr.mem_listParts {x y : TypedExpr} {args : List TypedExpr} (hy : y ∈ args)
    (hx : x ∈ y.parts) : x ∈ listParts args :=
  mem_of_mem_item (f := parts) (fun _ _ => rfl) hy hx

theorem TypedExpr.Part.mem_parts {x y : TypedExpr} (h : x.Part y) : x ∈ y.parts := by
  induction h with
  | self => exact mem_parts_self x
  | converted _ ih => exact List.mem_cons_of_mem _ ih
  | operand _ ih => exact List.mem_cons_of_mem _ ih
  | left _ ih => exact List.mem_cons_of_mem _ (List.mem_append_left _ ih)
  | right _ ih => exact List.mem_cons_of_mem _ (List.mem_append_right _ ih)
  | ofField _ ih => exact List.mem_cons_of_mem _ ih
  | ofElement _ ih => exact List.mem_cons_of_mem _ (List.mem_append_left _ ih)
  | position _ ih => exact List.mem_cons_of_mem _ (List.mem_append_right _ ih)
  | callArg hy _ ih => exact List.mem_cons_of_mem _ (mem_listParts hy ih)
  | nativeArg hy _ ih => exact List.mem_cons_of_mem _ (mem_listParts hy ih)
  | first _ ih => exact List.mem_cons_of_mem _ (List.mem_append_left _ (List.mem_append_left _ ih))
  | second _ ih =>
      exact List.mem_cons_of_mem _ (List.mem_append_left _ (List.mem_append_right _ ih))
  | third _ ih => exact List.mem_cons_of_mem _ (List.mem_append_right _ ih)

theorem TypedStmt.mem_blockExprs {x : TypedExpr} {s : TypedStmt} {body : List TypedStmt}
    (hs : s ∈ body) (hx : x ∈ s.exprs) : x ∈ blockExprs body :=
  mem_of_mem_item (f := exprs) (fun _ _ => rfl) hs hx

theorem TypedStmt.mem_caseExprs {x : TypedExpr} {c : TypedCase} {cases : List TypedCase}
    (hc : c ∈ cases) (hx : x ∈ blockExprs c.body) : x ∈ caseExprs cases :=
  mem_of_mem_item (f := fun c => blockExprs c.body) (fun ⟨_, _⟩ _ => rfl) hc hx

theorem TypedStmt.Uses.mem_exprs {x : TypedExpr} {s : TypedStmt} (h : s.Uses x) : x ∈ s.exprs := by
  induction h with
  | target hx => exact List.mem_append_left _ hx.mem_parts
  | source hx => exact List.mem_append_right _ hx.mem_parts
  | defaultInit hx => exact hx.mem_parts
  | condition hx => exact List.mem_append_left _ (List.mem_append_left _ hx.mem_parts)
  | thenBody hs _ ih =>
      exact List.mem_append_left _ (List.mem_append_right _ (mem_blockExprs hs ih))
  | elseBody hs _ ih => exact List.mem_append_right _ (mem_blockExprs hs ih)
  | loopCondition hx => exact List.mem_append_left _ hx.mem_parts
  | loopBody hs _ ih => exact List.mem_append_right _ (mem_blockExprs hs ih)
  | limit hx => exact List.mem_append_left _ (List.mem_append_left _ hx.mem_parts)
  | counter hx => exact List.mem_append_left _ (List.mem_append_right _ hx.mem_parts)
  | repeated hs _ ih => exact List.mem_append_right _ (mem_blockExprs hs ih)
  | @selector y cases default hx =>
      cases default with
      | none => exact List.mem_append_left _ hx.mem_parts
      | some body => exact List.mem_append_left _ (List.mem_append_left _ hx.mem_parts)
  | @case y cases default c t hc hs _ ih =>
      have hcase := mem_caseExprs hc (mem_blockExprs hs ih)
      cases default with
      | none => exact List.mem_append_right _ hcase
      | some body => exact List.mem_append_left _ (List.mem_append_right _ hcase)
  | default hs _ ih => exact List.mem_append_right _ (mem_blockExprs hs ih)
  | result hx => exact hx.mem_parts
  | expr hx => exact hx.mem_parts
  | block hs _ ih => exact mem_blockExprs hs ih

/-- What occurs in a program is on its list, so that a property of everything that occurs can be
tested. -/
theorem TypedProgram.Uses.mem_exprs {p : TypedProgram} {x : TypedExpr} (h : p.Uses x) :
    x ∈ p.exprs := by
  rw [exprs, List.mem_append, List.mem_flatMap, List.mem_flatMap]
  cases h with
  | body hf hs hx => exact .inl ⟨_, hf, TypedStmt.mem_blockExprs hs hx.mem_exprs⟩
  | init hd hinit hx =>
      refine .inr ⟨_, hd, TypedExpr.mem_listParts ?_ hx.mem_parts⟩
      rw [hinit]
      exact List.mem_singleton_self _

end GameScript
