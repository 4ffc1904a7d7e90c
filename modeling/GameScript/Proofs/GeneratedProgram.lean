import GameScript.Proofs.DeclareInvariant
import GameScript.Proofs.GeneratedLabels

/-!
# Code of whole programs

Code is generated for every function of a well-typed program, unless a variable has an initial value
that must be computed and there is no entry function to compute it. Provided that no label of the
script contains a dollar sign, the labels of each function can be told apart, generated ones
included, and every jump goes to one of them. That the code can be assembled is not shown here.
-/
namespace GameScript

/-! ## Names of labels -/

theorem eq_of_toLower_eq {c d : Char} (hd : d.isLower = false) (h : c.toLower = d) : c = d := by
  delta Char.toLower at h
  split at h
  · subst h
    delta Char.isLower at hd
    simp only [Bool.and_eq_false_imp, decide_eq_true_eq, decide_eq_false_iff_not, UInt32.not_le]
      at hd
    grind
  · exact h

theorem toLower_digit {c : Char} (h : c.isDigit = true) : c.toLower = c := by
  delta Char.toLower
  grind [Char.isDigit]

theorem map_toLower_toDigits (n : Nat) :
    (Nat.toDigits 10 n).map Char.toLower = Nat.toDigits 10 n := by
  have hdigit : ∀ c ∈ Nat.toDigits 10 n, c.toLower = id c := fun c hc =>
    toLower_digit (Nat.isDigit_of_mem_toDigits (by decide) (Nat.le_refl 10) hc)
  rw [List.map_congr_left hdigit, List.map_id]

theorem toList_foldName (s : String) : (foldName s).toList = s.toList.map Char.toLower :=
  String.toList_ofList

theorem toList_foldName_numbered (stem : String) (n : Nat) :
    (foldName (stem ++ toString n)).toList = (foldName stem).toList ++ Nat.toDigits 10 n := by
  rw [toList_foldName, toList_foldName, Nat.toString_eq_ofList_toDigits, String.toList_append,
    String.toList_ofList, List.map_append, map_toLower_toDigits]

/-- Folding adds nothing but lower-case letters. -/
theorem mem_of_mem_foldName {s : String} {c : Char} (hc : c.isLower = false)
    (h : c ∈ (foldName s).toList) : c ∈ s.toList := by
  rw [toList_foldName] at h
  obtain ⟨d, hd, hdc⟩ := List.mem_map.mp h
  rwa [← eq_of_toLower_eq hc hdc]

theorem foldName_ne_of_ofName_ne {a b : String} (h : Identity.ofName a ≠ Identity.ofName b) :
    foldName a ≠ foldName b :=
  fun hfold => h (Identity.ofName_eq_of_foldName_eq hfold)

theorem nodup_foldName {names : List String} (h : (names.map Identity.ofName).Nodup) :
    (names.map foldName).Nodup :=
  List.pairwise_map.mpr ((List.pairwise_map.mp h).imp foldName_ne_of_ofName_ne)

namespace Lowering

theorem toList_foldName_freshLabel (kind : String) (n : Nat) :
    (foldName (freshLabel kind n)).toList =
      ('$' :: kind.toList.map Char.toLower) ++ '_' :: Nat.toDigits 10 n := by
  rw [toList_foldName, freshLabel, Nat.toString_eq_ofList_toDigits]
  simp only [String.toList_append, String.toList_ofList, List.map_append, map_toLower_toDigits]
  simp

/-- The number can be read off a generated label: it is what follows the last underscore. -/
theorem freshLabel_number {kind kind' : String} {n n' : Nat}
    (h : foldName (freshLabel kind n) = foldName (freshLabel kind' n')) : n = n' := by
  have hread (start : List Char) (k : Nat) :
      ((start ++ '_' :: Nat.toDigits 10 k).reverse.takeWhile (· != '_')).reverse =
        Nat.toDigits 10 k := by
    have hnone : ∀ c ∈ (Nat.toDigits 10 k).reverse, (c != '_') = true := by
      intro c hc
      rw [bne_iff_ne]
      rintro rfl
      exact Nat.underscore_not_in_toDigits (List.mem_reverse.mp hc)
    rw [List.reverse_append, List.reverse_cons, List.append_assoc,
      List.takeWhile_append_of_pos hnone]
    simp
  have hlist := congrArg String.toList h
  rw [toList_foldName_freshLabel, toList_foldName_freshLabel] at hlist
  have hdigits := hread ('$' :: kind.toList.map Char.toLower) n
  rw [hlist, hread] at hdigits
  rw [← Nat.ofDigitChars_ten_toDigits (n := n), ← hdigits, Nat.ofDigitChars_ten_toDigits]

/-- Labels of the script without a dollar sign are told apart from each other and from generated
ones. -/
theorem nodup_labels {names : List String} {n n' : Nat} {fresh : List Fresh}
    (hnames : (names.map Identity.ofName).Nodup) (hdollar : ∀ name ∈ names, '$' ∉ name.toList)
    (hfresh : Numbered n n' fresh) : ((names ++ fresh.map Fresh.text).map foldName).Nodup := by
  rw [List.map_append, List.nodup_append]
  refine ⟨nodup_foldName hnames, ?_, ?_⟩
  · rw [List.map_map]
    have hnumbers := List.pairwise_map.mp hfresh.nodup
    exact List.pairwise_map.mpr (hnumbers.imp fun hne heq => hne (freshLabel_number heq))
  · intro a ha b hb hab
    obtain ⟨name, hname, rfl⟩ := List.mem_map.mp ha
    obtain ⟨label, hlabel, rfl⟩ := List.mem_map.mp hb
    obtain ⟨p, _, rfl⟩ := List.mem_map.mp hlabel
    apply hdollar name hname
    apply mem_of_mem_foldName rfl
    rw [hab, Fresh.text, toList_foldName_freshLabel]
    exact List.mem_cons_self

end Lowering

/-! ## Where variables lie -/

theorem map_fst_placeFrom (fields : List DataField) (next : Nat) :
    (placeFrom next fields).map Prod.fst = fields.map DataField.name := by
  induction fields generalizing next with
  | nil => rfl
  | cons f fields ih => rw [placeFrom, List.map_cons, List.map_cons, ih]

theorem mem_layoutOrder {f : DataField} {fields : List DataField} :
    f ∈ layoutOrder fields ↔ f ∈ fields := by
  rw [layoutOrder, List.mem_append, List.mem_filter, List.mem_filter, ← and_or_left]
  exact and_iff_left (by cases f.isArg <;> simp)

theorem slot_ok {f : DataField} {fields : List DataField} (h : f ∈ fields) (kind : String) :
    ∃ slot, DataLayout.slot (DataLayout.slotMap fields) kind f.name = .ok slot := by
  have hkey : foldName f.name ∈ (DataLayout.slotMap fields).map Prod.fst := by
    have hname : f.name ∈ (segmentLayout fields).map Prod.fst := by
      rw [segmentLayout, map_fst_placeFrom]
      exact List.mem_map_of_mem (mem_layoutOrder.mpr h)
    obtain ⟨entry, hentry, hname⟩ := List.mem_map.mp hname
    rw [DataLayout.slotMap, List.map_map, ← hname]
    exact List.mem_map_of_mem (f := Prod.fst ∘ _) (List.mem_reverse.mpr hentry)
  unfold DataLayout.slot
  cases hslot : (DataLayout.slotMap fields).lookup (foldName f.name) with
  | none => exact absurd hkey (not_mem_keys_of_lookup hslot)
  | some slot => exact ⟨slot, rfl⟩

namespace Lowering

def layoutOf (p : TypedProgram) : DataLayout :=
  .ofFields (p.statics.map dataField) (p.globals.map dataField)

theorem layoutOf_covers (p : TypedProgram) (args locals : List Variable) :
    (layoutOf p).Covers (p.env.inside args locals) := by
  constructor
  · intro name ty kind h
    obtain ⟨d, hd, heq⟩ := List.mem_map.mp h
    cases heq
    exact slot_ok (List.mem_map_of_mem hd) kind
  · intro name ty kind h
    obtain ⟨d, hd, heq⟩ := List.mem_map.mp h
    cases heq
    exact slot_ok (List.mem_map_of_mem hd) kind

end Lowering

/-! ## Initial values that are computed -/

mutual

theorem TypedExpr.WellTyped.mono {Γ Γ' : TypingEnv} (hsub : Γ.Sub Γ') {x : TypedExpr} :
    x.WellTyped Γ → x.WellTyped Γ'
  | .const h => .const h
  | .string => .string
  | .frame h => .frame (hsub.frame _ _ h)
  | .static h => .static (hsub.static _ _ h)
  | .global h => .global (hsub.global _ _ h)
  | .convert hx h => .convert (hx.mono hsub) h
  | .unary hx h => .unary (hx.mono hsub) h
  | .binary hx hy h => .binary (hx.mono hsub) (hy.mono hsub) h
  | .field hx hlvalue h => .field (hx.mono hsub) hlvalue h
  | .index hx hlvalue h hi hint => .index (hx.mono hsub) hlvalue h (hi.mono hsub) hint
  | .call hf hargs => .call (hsub.function _ _ _ hf) (hargs.mono hsub)
  | .native hf hargs => .native (hsub.native _ _ _ hf) (hargs.mono hsub)
  | .vector hx htx hy hty hz htz =>
      .vector (hx.mono hsub) htx (hy.mono hsub) hty (hz.mono hsub) htz

theorem TypedExpr.Arguments.mono {Γ Γ' : TypingEnv} (hsub : Γ.Sub Γ') {args : List TypedExpr}
    {params : List Ty} : TypedExpr.Arguments Γ args params → TypedExpr.Arguments Γ' args params
  | .nil => .nil
  | .cons hx h hargs => .cons (hx.mono hsub) h (hargs.mono hsub)

end

namespace Lowering

def preludeOf (p : TypedProgram) : List TypedStmt :=
  p.statics.filterMap (deferred .static) ++ p.globals.filterMap (deferred .global)

theorem deferred_eq_some {storage : Ty → Span → String → TypedExpr} {d : TypedData} {s : TypedStmt}
    (h : deferred storage d = some s) :
    ∃ x, d.init = some x ∧ d.literal? = none ∧ s = .assign (storage d.ty d.span d.name) x := by
  unfold deferred at h
  split at h
  case h_1 x hinit hliteral => exact ⟨x, hinit, hliteral, (Option.some.inj h).symm⟩
  case h_2 => cases h

theorem mem_preludeOf {p : TypedProgram} {s : TypedStmt} (h : s ∈ preludeOf p) :
    ∃ (storage : Ty → Span → String → TypedExpr) (d : TypedData),
      (storage = .static ∧ d ∈ p.statics ∨ storage = .global ∧ d ∈ p.globals) ∧
        deferred storage d = some s := by
  rcases List.mem_append.mp h with h | h
  · obtain ⟨d, hd, hs⟩ := List.mem_filterMap.mp h
    exact ⟨.static, d, .inl ⟨rfl, hd⟩, hs⟩
  · obtain ⟨d, hd, hs⟩ := List.mem_filterMap.mp h
    exact ⟨.global, d, .inr ⟨rfl, hd⟩, hs⟩

theorem preludeOf_wellTyped {p : TypedProgram} (hp : p.WellTyped) (args locals : List Variable)
    (result : Option Ty) :
    ∀ s ∈ preludeOf p, s.WellTyped (p.env.inside args locals) result [] := by
  intro s hs
  have hsub : p.env.Sub (p.env.inside args locals) := TypingEnv.sub_inside _ _ _ _ args locals
  obtain ⟨storage, d, hd, hdeferred⟩ := mem_preludeOf hs
  obtain ⟨x, hinit, -, rfl⟩ := deferred_eq_some hdeferred
  rcases hd with ⟨rfl, hd⟩ | ⟨rfl, hd⟩
  · obtain ⟨hx, hadmits, -⟩ := (hp.statics d hd).init x hinit
    exact .assign (.static (List.mem_map_of_mem hd)) rfl (hx.mono hsub) hadmits
  · obtain ⟨hx, hadmits, -⟩ := (hp.globals d hd).init x hinit
    exact .assign (.global (List.mem_map_of_mem hd)) rfl (hx.mono hsub) hadmits

theorem blockLabels_eq_nil {body : List TypedStmt} (h : ∀ s ∈ body, s.labels = []) :
    TypedStmt.blockLabels body = [] := by
  induction body with
  | nil => rfl
  | cons s body ih =>
      rw [List.forall_mem_cons] at h
      rw [TypedStmt.blockLabels, h.1, ih h.2, List.nil_append]

theorem blockLabels_preludeOf (p : TypedProgram) : TypedStmt.blockLabels (preludeOf p) = [] := by
  apply blockLabels_eq_nil
  intro s hs
  obtain ⟨storage, d, -, hdeferred⟩ := mem_preludeOf hs
  obtain ⟨x, -, -, rfl⟩ := deferred_eq_some hdeferred
  rfl

/-! ## Functions -/

def infoOf (layout : DataLayout) (f : TypedFunction) : BodyInfo :=
  ⟨layout, f.argSlots, f.resultSlots⟩

def preludeFor (p : TypedProgram) (f : TypedFunction) : List TypedStmt :=
  if f.isMain then preludeOf p else []

/-- The parts that the code of a function consists of: the assignments before its body, the body,
and a return unless the body ends in one. -/
structure FunctionCode (p : TypedProgram) (f : TypedFunction) (d : FunctionDef)
    (before code : List Statement) (n n' : Nat) : Prop where
  prelude : LoweredBlock (infoOf (layoutOf p) f) (preludeFor p f) 0 before n
  body : LoweredBlock (infoOf (layoutOf p) f) f.body n code n'
  eq : d = { name := f.name, args := f.args, locals := f.locals, result := f.result,
             body := before ++ code ++
              if endsInReturn f.body then [] else [(infoOf (layoutOf p) f).leave] }

theorem functionCode_of_functionDef {p : TypedProgram} {f : TypedFunction} {d : FunctionDef}
    (h : functionDef (layoutOf p) (preludeOf p) f = .ok d) :
    ∃ before code n n', FunctionCode p f d before code n n' := by
  obtain ⟨whole, hwhole, heq⟩ := bind_eq_ok.mp h
  obtain ⟨⟨before, n⟩, hbefore, hwhole⟩ := bind_eq_ok.mp hwhole
  obtain ⟨⟨code, n'⟩, hcode, hwhole⟩ := bind_eq_ok.mp hwhole
  obtain rfl := Except.ok.inj hwhole
  exact ⟨before, code, n, n', lowered_of_block _ hbefore, lowered_of_block _ hcode,
    (Except.ok.inj heq).symm⟩

section
variable {p : TypedProgram} {f : TypedFunction}

theorem preludeFor_wellTyped (hp : p.WellTyped) :
    ∀ s ∈ preludeFor p f, s.WellTyped (p.env.inside f.args f.locals) f.result [] := by
  unfold preludeFor
  split
  · exact preludeOf_wellTyped hp f.args f.locals f.result
  · exact fun s hs => absurd hs List.not_mem_nil

theorem blockLabels_preludeFor : TypedStmt.blockLabels (preludeFor p f) = [] := by
  unfold preludeFor
  split
  · exact blockLabels_preludeOf p
  · rfl

theorem functionDef_succeeds (hp : p.WellTyped) (hf : f ∈ p.functions) :
    ∃ d, functionDef (layoutOf p) (preludeOf p) f = .ok d := by
  have hlayout : (infoOf (layoutOf p) f).layout.Covers (p.env.inside f.args f.locals) :=
    layoutOf_covers p f.args f.locals
  have hbody : ∃ code, functionBody (layoutOf p) (preludeFor p f) f = .ok code :=
    exists_ok_bind (block_succeeds hlayout _ (preludeFor_wellTyped hp) 0) fun before =>
      exists_ok_bind (block_succeeds hlayout _ (hp.functions f hf).body before.2) fun code =>
        ⟨_, rfl⟩
  exact exists_ok_bind hbody fun code => ⟨_, rfl⟩

/-- A call inside a function is a call of something that the script declares. -/
theorem Forms.outside {Γ : TypingEnv} {args locals : List Variable} {target : String → Prop}
    {code : List Statement} (h : Forms (Γ.inside args locals) target code) :
    Forms Γ target code := by
  intro s hs
  cases h s hs with
  | plain h =>
      apply Statement.Generated.plain
      cases h with
      | op h => exact .op h
      | pushInt => exact .pushInt
      | pushFloat => exact .pushFloat
      | string => exact .string
      | call h => exact .call h
      | native => exact .native
      | assignString => exact .assignString
  | mark => exact .mark
  | jump ho h => exact .jump ho h
  | switch h => exact .switch h
  | leave => exact .leave

/-- What the assembler has to know of a function: calls are of functions that exist, jumps go to
labels of the function, and no two of those are the same. -/
structure Linkable (Γ : TypingEnv) (code : List Statement) : Prop where
  forms : Forms Γ (· ∈ codeLabels code) code
  labels : ((codeLabels code).map foldName).Nodup

/-- The code of a function defines the labels of its body and generated ones. -/
theorem FunctionCode.emits {d : FunctionDef} {before code : List Statement} {n n' : Nat}
    (h : FunctionCode p f d before code n n') (hp : p.WellTyped) (hf : f ∈ p.functions) :
    EmitsFrom (p.env.inside f.args f.locals) (· ∈ TypedStmt.blockLabels f.body)
      (TypedStmt.blockLabels f.body) 0 n' d.body := by
  have hlayout : (infoOf (layoutOf p) f).layout.Covers (p.env.inside f.args f.locals) :=
    layoutOf_covers p f.args f.locals
  obtain ⟨fresh, hfresh, hbefore⟩ :=
    block_emits hlayout _ (preludeFor_wellTyped hp) h.prelude
  obtain ⟨fresh', hfresh', hcode⟩ :=
    block_emits hlayout _ (hp.functions f hf).body h.body
  rw [blockLabels_preludeFor] at hbefore
  have hleave : Emits (p.env.inside f.args f.locals) (· ∈ TypedStmt.blockLabels f.body) [] []
      (if endsInReturn f.body then [] else [(infoOf (layoutOf p) f).leave]) := by
    split
    · exact PlainCode.nil.emits
    · exact ⟨.single .leave, .nil⟩
  have hbefore : Emits (p.env.inside f.args f.locals) (· ∈ TypedStmt.blockLabels f.body) [] fresh
      before := hbefore.mono fun l hl => absurd hl List.not_mem_nil
  have hwhole := (hbefore.append hcode).append hleave
  simp only [List.nil_append, List.append_nil] at hwhole
  rw [h.eq]
  exact ⟨fresh ++ fresh', hfresh.append hfresh', hwhole⟩

/-- Jumps of a function go to its own labels, and calls to functions that exist. -/
theorem FunctionCode.forms {d : FunctionDef} {before code : List Statement} {n n' : Nat}
    (h : FunctionCode p f d before code n n') (hp : p.WellTyped) (hf : f ∈ p.functions) :
    Forms p.env (· ∈ codeLabels d.body) d.body := by
  obtain ⟨fresh, _, hwhole⟩ := h.emits hp hf
  refine (hwhole.forms.mono fun l hl => ?_).outside
  rcases hl with hl | hl
  · exact hl
  · exact hwhole.labels.mem_iff.mpr (List.mem_append_left _ hl)

theorem FunctionCode.linkable {d : FunctionDef} {before code : List Statement} {n n' : Nat}
    (h : FunctionCode p f d before code n n') (hp : p.WellTyped) (hf : f ∈ p.functions)
    (hdollar : ∀ name ∈ TypedStmt.blockLabels f.body, '$' ∉ name.toList) :
    Linkable p.env d.body := by
  obtain ⟨fresh, hfresh, hwhole⟩ := h.emits hp hf
  refine ⟨h.forms hp hf, ?_⟩
  rw [(hwhole.labels.map foldName).nodup_iff]
  exact nodup_labels (hp.functions f hf).labels hdollar hfresh

end

end Lowering

/-! ## Programs -/

/-- Whether some variable has an initial value that cannot be stored in the data segment. -/
def TypedProgram.ComputesInit (p : TypedProgram) : Prop :=
  ∃ d ∈ p.statics ++ p.globals, ∃ x, d.init = some x ∧ x.literal? = none

structure GeneratedScript.Of (p : TypedProgram) (script : GeneratedScript) : Prop where
  functions : List.Forall₂
    (fun f d => ∃ before code n n', Lowering.FunctionCode p f d before code n n')
    p.functions script.functions
  statics : script.statics = p.statics.map Lowering.dataField
  globals : script.globals = p.globals.map Lowering.dataField

def FunctionDef.signature (d : FunctionDef) : Signature :=
  ⟨d.name, d.args.map Variable.ty, d.result⟩

theorem GeneratedScript.Of.signatures {p : TypedProgram} {script : GeneratedScript}
    (h : script.Of p) :
    script.functions.map FunctionDef.signature = p.functions.map TypedFunction.signature := by
  have hsignatures : List.Forall₂ (fun f d => f.signature = d.signature) p.functions
      script.functions := by
    refine h.functions.imp fun f d hd => ?_
    obtain ⟨before, code, n, n', hcode⟩ := hd
    rw [hcode.eq]
    rfl
  have heq := List.forall₂_map_left_iff.mpr (List.forall₂_map_right_iff.mpr hsignatures)
  rw [List.forall₂_eq_eq_eq] at heq
  exact heq.symm

theorem GeneratedScript.Of.names {p : TypedProgram} {script : GeneratedScript} (h : script.Of p) :
    script.functions.map FunctionDef.name = p.functions.map TypedFunction.name := by
  have hnames := congrArg (List.map Signature.name) h.signatures
  rwa [List.map_map, List.map_map] at hnames

theorem computesInit_of_prelude {p : TypedProgram} (h : (Lowering.preludeOf p).isEmpty = false) :
    p.ComputesInit := by
  obtain ⟨s, hs⟩ := List.exists_mem_of_ne_nil _ (List.isEmpty_eq_false_iff.mp h)
  obtain ⟨storage, d, hd, hdeferred⟩ := Lowering.mem_preludeOf hs
  obtain ⟨x, hinit, hliteral, -⟩ := Lowering.deferred_eq_some hdeferred
  rw [TypedData.literal?, hinit] at hliteral
  refine ⟨d, List.mem_append.mpr ?_, x, hinit, hliteral⟩
  exact hd.imp And.right And.right

theorem generate_eq (p : TypedProgram) :
    generate p =
      if !(Lowering.preludeOf p).isEmpty && !p.functions.any TypedFunction.isMain then
        .error (.unsupported .initializerWithoutMain)
      else p.functions.mapM (Lowering.functionDef (Lowering.layoutOf p) (Lowering.preludeOf p)) >>=
        fun functions => .ok ⟨functions, p.statics.map Lowering.dataField,
          p.globals.map Lowering.dataField⟩ := by
  unfold generate Lowering.preludeOf Lowering.layoutOf
  dsimp only
  split <;> rfl

/-- Generating fails in one way only. -/
theorem generate_cases {p : TypedProgram} (hp : p.WellTyped) :
    (∃ script, generate p = .ok script ∧ script.Of p) ∨
      generate p = .error (.unsupported .initializerWithoutMain) ∧ p.ComputesInit ∧
        ∀ f ∈ p.functions, f.isMain = false := by
  obtain ⟨functions, hfunctions⟩ := exists_mapM_ok fun f hf => Lowering.functionDef_succeeds hp hf
  rw [generate_eq]
  cases hguard : !(Lowering.preludeOf p).isEmpty && !p.functions.any TypedFunction.isMain with
  | true =>
      rw [Bool.and_eq_true, Bool.not_eq_true', Bool.not_eq_true', List.any_eq_false] at hguard
      refine .inr ⟨rfl, computesInit_of_prelude hguard.1, fun f hf => ?_⟩
      exact Bool.eq_false_iff.mpr (hguard.2 f hf)
  | false =>
      refine .inl ⟨⟨functions, _, _⟩, ?_, ?_, rfl, rfl⟩
      · rw [hfunctions]
        rfl
      · exact (forall₂_of_mapM hfunctions).imp fun f d h => Lowering.functionCode_of_functionDef h

theorem of_generate {p : TypedProgram} (hp : p.WellTyped) {script : GeneratedScript}
    (h : generate p = .ok script) :
    script.Of p := by
  rcases generate_cases hp with ⟨script', hscript', hof⟩ | ⟨herror, -⟩
  · exact Except.ok.inj (hscript'.symm.trans h) ▸ hof
  · cases herror.symm.trans h

end GameScript
