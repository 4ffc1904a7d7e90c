import Mathlib.Algebra.GroupWithZero.Nat
import GameScript.Proofs.CheckEvaluation
import GameScript.Proofs.Occurrences
import GameScript.Proofs.TypeEquivalence

/-!
# Accepted scripts are sound

Whatever occurs in the program of an accepted script obeys the rule for its form: variables are
where the frame has them, fields and elements are parts of storage that has such parts, operators
stand on types that they are defined on, and calls pass one argument for each parameter. The rules
are stated here for one expression or statement at a time, in terms of the program and of natural
numbers. Slots are counted in 32 bits, so sizes are assumed to stay below that.
-/
namespace GameScript

/-! ## Rules for expressions -/

/-- The frame has a variable of this type from this slot on. Arguments come first, then the reserved
slots, then the locals. -/
inductive InFrame (args locals : List Variable) : Nat → Ty → Prop where
  | arg {before v after} : args = before ++ v :: after →
      InFrame args locals (variableSlots before) v.ty
  | var {before v after} : locals = before ++ v :: after →
      InFrame args locals (variableSlots args + reservedSlots + variableSlots before) v.ty

/-- A value of the first type has a part of the second type from this slot on. -/
inductive Ty.HasField : Ty → Ty → Nat → Prop where
  | struct {name fields before f after} : fields.toList = before ++ f :: after →
      HasField (.struct name fields) f.ty ((before.map fun g => g.ty.size).sum / slotSize)
  | coordinate {i} : i < 3 → HasField .vector .float i
  | value {kind} : HasField (.handle kind) .int 0

inductive UnaryOp.Takes : UnaryOp → Ty → Ty → Prop where
  | neg {ty} : ty = .int ∨ ty = .float ∨ ty = .vector → Takes .neg ty ty
  | not {ty} : ty = .bool ∨ ty = .int → Takes .not ty ty

/-- Values of these types can be told apart although they are not ordered. -/
inductive Ty.Comparable : Ty → Ty → Prop where
  | bool : Comparable .bool .bool
  | enum {a members b members'} : sameName a b = true →
      Comparable (.enum a members) (.enum b members')
  | handle {kind} : Comparable (.handle kind) (.handle kind)
  | handleNull {kind} : Comparable (.handle kind) .null
  | nullHandle {kind} : Comparable .null (.handle kind)

/-- The operator takes values of the first two types to one of the third, without a conversion. -/
inductive BinaryOp.Takes : BinaryOp → Ty → Ty → Ty → Prop where
  | arithmetic {op ty} : op.isArithmetic = true → ty = .int ∨ ty = .float → Takes op ty ty ty
  | vector {op} : op.isArithmetic = true → op ≠ .mod → Takes op .vector .vector .vector
  | bitwise {op ty} : op.isBitwise = true → ty = .int ∨ ty = .bool → Takes op ty ty ty
  | comparison {op ty} : op.isComparison = true → ty = .int ∨ ty = .float → Takes op ty ty .bool
  | equality {op x y} : op.isEquality = true → Ty.Comparable x y → Takes op x y .bool
  | logical {op x y} : op.isLogical = true → x = .int ∨ x = .bool → y = .int ∨ y = .bool →
      Takes op x y .bool

/-- The rule for an expression in a function of `p` with this frame, its parts apart. -/
def TypedExpr.Sound (p : TypedProgram) (args locals : List Variable) : TypedExpr → Prop
  | .const ty _ v => v.HasType ty
  | .string ty _ _ => ty = .string
  | .frame ty _ slot => InFrame args locals slot.toNat ty
  | .static ty _ name => ∃ d ∈ p.statics, d.name = name ∧ d.ty = ty
  | .global ty _ name => ∃ d ∈ p.globals, d.name = name ∧ d.ty = ty
  | .typeName _ _ => False
  | .convert ty _ c x => ty = c.type ∧ c.Applies x
  | .unary ty _ op x => op.Takes x.ty ty
  | .binary ty _ op x y => op.Takes x.ty y.ty ty
  | .field ty _ x offset => x.isLValue = true ∧ x.ty.HasField ty offset.toNat
  | .index ty _ x i itemSlots => x.isLValue = true ∧ (∃ n, x.ty = .array ty n) ∧ i.ty = .int ∧
      itemSlots.toNat = ty.slots
  | .call ty _ name values => ∃ f ∈ p.functions, f.name = name ∧
      List.Forall₂ (fun x v => v.ty.Admits x.ty) values f.args ∧
      ty.same (f.result.getD .void) = true
  | .native ty _ name values _ _ => ∃ f ∈ p.natives, f.name = name ∧
      List.Forall₂ (fun x param => param.Admits x.ty) values f.params ∧
      ty.same (f.result.getD .void) = true
  | .vector ty _ x y z => ty = .vector ∧ x.ty = .float ∧ y.ty = .float ∧ z.ty = .float

/-! ## Rules for statements and programs -/

/-- The rule for a statement of a function with this result and these labels, the statements in it
apart. -/
def TypedStmt.Sound (result : Option Ty) (labels : List String) : TypedStmt → Prop
  | .assign x y => x.isLValue = true ∧ x.ty.Admits y.ty
  | .defaultInit x => x.isLValue = true
  | .cond c _ _ | .whileLoop c _ => c.ty = .bool
  | .repeatLoop limit counter _ => limit.ty = .int ∧ counter.ty = .int ∧ counter.isLValue = true
  | .switch x cases _ => x.ty = .int ∧ (cases.map TypedCase.value).Nodup
  | .ret none => result = none
  | .ret (some x) => ∃ ty, result = some ty ∧ ty.Admits x.ty
  | .expr x => x.isCall = true
  | .label name | .goto name => name ∈ labels
  | .block _ => True

/-- Every expression and every statement of the function obeys its rule. Labels can be told apart,
and a function with a result cannot be left at its end. -/
structure TypedFunction.Sound (p : TypedProgram) (f : TypedFunction) : Prop where
  exprs : ∀ s ∈ f.body, ∀ x, s.Uses x → x.Sound p f.args f.locals
  stmts : ∀ s ∈ f.body, ∀ t : TypedStmt, t.Within s →
    t.Sound f.result (TypedStmt.blockLabels f.body)
  labels : ((TypedStmt.blockLabels f.body).map Identity.ofName).Nodup
  returns : f.result.isSome = true → lastReturns f.body = true

/-- The initial value can be stored in the variable and obeys the rules outside of any function. -/
structure TypedData.Sound (p : TypedProgram) (d : TypedData) : Prop where
  fits : ∀ x, d.init = some x → d.ty.Admits x.ty
  exprs : ∀ y, d.init = some y → ∀ x : TypedExpr, x.Part y → x.Sound p [] []

structure TypedProgram.Sound (p : TypedProgram) : Prop where
  functions : ∀ f ∈ p.functions, f.Sound p
  statics : ∀ d ∈ p.statics, d.Sound p
  globals : ∀ d ∈ p.globals, d.Sound p

/-! ## Operators -/

theorem takes_of_unaryDefined {op : UnaryOp} {ty : Ty} (h : Typing.unaryDefined op ty = true) :
    op.Takes ty ty := by
  unfold Typing.unaryDefined at h
  split at h
  · exact .neg (.inl rfl)
  · exact .neg (.inr (.inl rfl))
  · exact .neg (.inr (.inr rfl))
  · exact .not (.inl rfl)
  · exact .not (.inr rfl)
  · cases h

/-- An operator that neither computes nor combines bits compares or decides. -/
theorem BinaryOp.isComparison_or_isLogical {op : BinaryOp}
    (h : ¬ (op.isArithmetic || op.isBitwise) = true) :
    op.isComparison = true ∨ op.isLogical = true := by
  cases op <;> first | exact .inl rfl | exact .inr rfl | exact absurd rfl h

/-- A rule without conversions that has a condition. -/
theorem of_guarded_rule {c : Bool} {result ty : Ty}
    (h : (if c then some { result := result } else none) = some ({ result := ty } : BinaryRule)) :
    c = true ∧ result = ty := by
  obtain ⟨hc, hrule⟩ := Option.ite_none_right_eq_some.mp h
  cases hrule
  exact ⟨hc, rfl⟩

/-- Every operator is defined on two integers. -/
theorem takes_int_of_rule {op : BinaryOp} {ty : Ty}
    (h : binaryRule? op .int .int = some { result := ty }) : op.Takes .int .int ty := by
  rw [binaryRule?] at h
  split at h
  · next hop =>
      cases h
      rcases Bool.or_eq_true_iff.mp hop with hop | hop
      · exact .arithmetic hop (.inl rfl)
      · exact .bitwise hop (.inl rfl)
  · next hop =>
      cases h
      rcases BinaryOp.isComparison_or_isLogical hop with hop | hop
      · exact .comparison hop (.inl rfl)
      · exact .logical hop (.inl rfl) (.inl rfl)

theorem takes_float_of_rule {op : BinaryOp} {ty : Ty}
    (h : binaryRule? op .float .float = some { result := ty }) : op.Takes .float .float ty := by
  rw [binaryRule?] at h
  split at h
  · next hop =>
      cases h
      exact .arithmetic hop (.inr rfl)
  · obtain ⟨hop, rfl⟩ := of_guarded_rule h
    exact .comparison hop (.inr rfl)

theorem takes_bool_of_rule {op : BinaryOp} {ty : Ty}
    (h : binaryRule? op .bool .bool = some { result := ty }) : op.Takes .bool .bool ty := by
  obtain ⟨hop, rfl⟩ := of_guarded_rule h
  rw [Bool.or_eq_true, Bool.or_eq_true] at hop
  rcases hop with (hop | hop) | hop
  · exact .logical hop (.inr rfl) (.inr rfl)
  · exact .bitwise hop (.inr rfl)
  · exact .equality hop .bool

theorem takes_of_binaryRule {op : BinaryOp} {x y ty : Ty}
    (h : binaryRule? op x y = some { result := ty }) : op.Takes x y ty := by
  unfold binaryRule? at h
  split at h
  case h_1 => exact takes_int_of_rule h
  case h_2 => exact takes_float_of_rule h
  -- An integer and a truth value can only be decided on.
  case h_5 =>
      obtain ⟨hop, rfl⟩ := of_guarded_rule h
      exact .logical hop (.inl rfl) (.inr rfl)
  case h_6 =>
      obtain ⟨hop, rfl⟩ := of_guarded_rule h
      exact .logical hop (.inr rfl) (.inl rfl)
  case h_7 => exact takes_bool_of_rule h
  -- Two vectors: there is no remainder.
  case h_8 =>
      obtain ⟨hop, rfl⟩ := of_guarded_rule h
      rw [Bool.and_eq_true, bne_iff_ne] at hop
      exact .vector hop.1 hop.2
  -- Two members of one enum.
  case h_11 =>
      obtain ⟨hop, rfl⟩ := of_guarded_rule h
      rw [Bool.and_eq_true] at hop
      exact .equality hop.1 (.enum hop.2)
  -- Two handles, or a handle and the null value.
  case h_12 =>
      obtain ⟨hop, rfl⟩ := of_guarded_rule h
      rw [Bool.and_eq_true, beq_iff_eq] at hop
      obtain ⟨hop, rfl⟩ := hop
      exact .equality hop .handle
  case h_13 =>
      obtain ⟨hop, rfl⟩ := of_guarded_rule h
      exact .equality hop .handleNull
  case h_14 =>
      obtain ⟨hop, rfl⟩ := of_guarded_rule h
      exact .equality hop .nullHandle
  -- What is left needs a conversion or is not defined.
  all_goals
    repeat' split at h
    all_goals cases h

/-! ## Storage -/

/-- Half the range of a word is enough for a count to be exact. -/
theorem toNat_ofNat_of_lt_half {n : Nat} (h : n < 2 ^ 31) : (UInt32.ofNat n).toNat = n :=
  UInt32.toNat_ofNat_of_lt' (Nat.lt_trans h (by decide))

theorem FrameSlot.inFrame {args locals : List Variable} {slot : UInt32} {ty : Ty}
    (hframe : variableSlots args + reservedSlots + variableSlots locals < 2 ^ 31)
    (h : FrameSlot args locals slot ty) : InFrame args locals slot.toNat ty := by
  cases h with
  | arg before after v hargs =>
      have hsum : variableSlots args = variableSlots before + variableSlots (v :: after) := by
        rw [hargs, variableSlots_append]
      rw [toNat_ofNat_of_lt_half (by omega)]
      exact .arg hargs
  | var before after v hlocals =>
      have hsum : variableSlots locals = variableSlots before + variableSlots (v :: after) := by
        rw [hlocals, variableSlots_append]
      rw [toNat_ofNat_of_lt_half (by omega)]
      exact .var hlocals

theorem exists_of_mem_entries {data : List TypedData} {name : String} {ty : Ty}
    (h : (name, ty) ∈ data.map TypedData.entry) : ∃ d ∈ data, d.name = name ∧ d.ty = ty := by
  obtain ⟨d, hd, heq⟩ := List.mem_map.mp h
  exact ⟨d, hd, congrArg Prod.fst heq, congrArg Prod.snd heq⟩

/-- A placed field begins after the bytes of the fields before it. -/
theorem mem_placeFields {q : PlacedField} : (fields : Fields) → (start : Nat) →
    q ∈ placeFields start fields → ∃ before after, fields.toList = before ++ q.field :: after ∧
      q.offset = start + (before.map fun g => g.ty.size).sum ∧ q.offset ≤ start + fields.size
  | .nil, _, h => absurd h List.not_mem_nil
  | .cons name ty init rest, start, h => by
      have hsize : (Fields.cons name ty init rest).size = ty.size + rest.size := rfl
      rcases List.mem_cons.mp h with rfl | h
      · exact ⟨[], rest.toList, rfl, rfl, Nat.le_add_right _ _⟩
      · obtain ⟨before, after, hfields, hoffset, hle⟩ := mem_placeFields rest (start + ty.size) h
        refine ⟨⟨name, ty, init⟩ :: before, after, ?_, ?_, ?_⟩
        · rw [Fields.toList, hfields, List.cons_append]
        · rw [hoffset, List.map_cons, List.sum_cons, Nat.add_assoc]
        · rw [hsize]
          omega

theorem Ty.hasField_of_field? {ty : Ty} {name : String} {q : PlacedField}
    (h : ty.field? name = some q) :
    ty.HasField q.field.ty (q.offset / slotSize) ∧ q.offset ≤ ty.size := by
  unfold field? at h
  split at h
  case h_1 structName fields =>
      obtain ⟨before, after, hfields, hoffset, hle⟩ :=
        mem_placeFields fields 0 (List.mem_of_find?_eq_some h)
      rw [Nat.zero_add] at hoffset hle
      rw [hoffset]
      exact ⟨.struct hfields, hoffset ▸ hle⟩
  case h_2 =>
      have hmem := List.mem_of_find?_eq_some h
      simp only [Fields.ofList, List.foldr, placeFields, List.mem_cons, List.not_mem_nil, or_false]
        at hmem
      rcases hmem with rfl | rfl | rfl
      · exact ⟨.coordinate (by decide), by decide⟩
      · exact ⟨.coordinate (by decide), by decide⟩
      · exact ⟨.coordinate (by decide), by decide⟩
  case h_3 kind =>
      split at h
      · cases h
        exact ⟨.value, Nat.zero_le _⟩
      · cases h
  case h_4 => cases h

/-- The slot of a part is exact if the whole takes less than half the range. -/
theorem Ty.toNat_fieldSlot {ty : Ty} {name : String} {q : PlacedField} (h : ty.field? name = some q)
    (hslots : ty.slots < 2 ^ 31) : (UInt32.ofNat (q.offset / slotSize)).toNat =
      q.offset / slotSize := by
  have hle := (hasField_of_field? h).2
  apply toNat_ofNat_of_lt_half
  simp only [Ty.slots, slotsFor, slotSize] at hslots ⊢
  omega

/-! ## Calls -/

theorem TypedExpr.Arguments.forall₂ {Γ : TypingEnv} {args : List TypedExpr}
    {params params' : List Ty} (h : TypedExpr.Arguments Γ args params)
    (hsame : Ty.sameList params params' = true) :
    List.Forall₂ (fun x param => param.Admits x.ty) args params' := by
  induction args generalizing params params' with
  | nil =>
      cases h
      cases params' with
      | nil => exact .nil
      | cons => simp only [Ty.sameList, Bool.false_eq_true] at hsame
  | cons x args ih =>
      cases h with
      | cons _ hadmits hargs =>
          cases params' with
          | nil => simp only [Ty.sameList, Bool.false_eq_true] at hsame
          | cons param' params' =>
              rw [Ty.sameList, Bool.and_eq_true] at hsame
              exact .cons (Ty.admits_of_same hsame.1 hadmits) (ih hargs hsame.2)

theorem Ty.same_getD_of_sameResult {result result' : Option Ty}
    (h : Ty.sameResult result result' = true) :
    (result.getD .void).same (result'.getD .void) = true := by
  cases result <;> cases result'
  case none.none => exact Ty.same_refl _
  case some.some =>
      rw [Ty.sameResult] at h
      exact h
  all_goals simp only [Ty.sameResult, Bool.false_eq_true] at h

/-! ## Expressions -/

/-- What is well typed obeys the rule for its form. -/
theorem TypedExpr.WellTyped.sound {p : TypedProgram} {args locals : List Variable} {x : TypedExpr}
    (hframe : variableSlots args + reservedSlots + variableSlots locals < 2 ^ 31)
    (htypes : ∀ y : TypedExpr, y.Part x → y.ty.slots < 2 ^ 31)
    (hx : x.WellTyped (p.env.inside args locals)) : x.Sound p args locals := by
  cases hx with
  | const hv => exact hv
  | string => exact rfl
  | frame hslot => exact FrameSlot.inFrame hframe hslot
  | static hname => exact exists_of_mem_entries hname
  | global hname => exact exists_of_mem_entries hname
  | convert _ happlies => exact ⟨rfl, happlies⟩
  | unary _ hdefined => exact takes_of_unaryDefined hdefined
  | binary _ _ hrule => exact takes_of_binaryRule hrule
  | field _ hlvalue hfield =>
      refine ⟨hlvalue, ?_⟩
      rw [Ty.toNat_fieldSlot hfield (htypes _ (.ofField .self))]
      exact (Ty.hasField_of_field? hfield).1
  | index _ hlvalue harray _ hint =>
      refine ⟨hlvalue, ⟨_, harray⟩, hint, ?_⟩
      exact toNat_ofNat_of_lt_half (htypes _ .self)
  | call hfunction hargs =>
      obtain ⟨g, hg, hname, hmatches⟩ := hfunction
      obtain ⟨f, hf, rfl⟩ := List.mem_map.mp hg
      obtain ⟨hresult, hparams⟩ := hmatches.same
      refine ⟨f, hf, hname, ?_, Ty.same_getD_of_sameResult hresult⟩
      exact List.forall₂_map_right_iff.mp (hargs.forall₂ hparams)
  | native hnative hargs =>
      obtain ⟨g, hg, hname, hmatches⟩ := hnative
      obtain ⟨f, hf, rfl⟩ := List.mem_map.mp hg
      obtain ⟨hresult, hparams⟩ := hmatches.same
      exact ⟨f, hf, hname, hargs.forall₂ hparams, Ty.same_getD_of_sameResult hresult⟩
  | vector _ hx _ hy _ hz => exact ⟨rfl, hx, hy, hz⟩

/-! ## Programs -/

theorem TypedStmt.WellTyped.sound {Γ : TypingEnv} {result : Option Ty} {labels : List String}
    {s : TypedStmt} (h : s.WellTyped Γ result labels) : s.Sound result labels := by
  cases h with
  | assign _ hlvalue _ hadmits => exact ⟨hlvalue, hadmits⟩
  | defaultInit _ hlvalue => exact hlvalue
  | cond _ hbool _ _ => exact hbool
  | whileLoop _ hbool _ => exact hbool
  | repeatLoop _ hlimit _ hcounter hlvalue _ => exact ⟨hlimit, hcounter, hlvalue⟩
  | switch _ hint hvalues _ _ => exact ⟨hint, hvalues⟩
  | leave hresult => exact hresult
  | ret _ hresult hadmits => exact ⟨_, hresult, hadmits⟩
  | expr _ hcall => exact hcall
  | label hname => exact hname
  | goto hname => exact hname
  | block _ => exact trivial

/-- The types of all expressions and the frames of all functions take less than half the range of a
word. -/
structure TypedProgram.Small (p : TypedProgram) : Prop where
  types : ∀ x, p.Uses x → x.ty.slots < 2 ^ 31
  frames : ∀ f ∈ p.functions, variableSlots f.args + reservedSlots + variableSlots f.locals < 2 ^ 31

/-- Whether a program is small can be tested on the list of its expressions. -/
theorem TypedProgram.small_of_exprs {p : TypedProgram} (htypes : ∀ x ∈ p.exprs, x.ty.slots < 2 ^ 31)
    (hframes : ∀ f ∈ p.functions,
      variableSlots f.args + reservedSlots + variableSlots f.locals < 2 ^ 31) :
    p.Small :=
  ⟨fun x hx => htypes x hx.mem_exprs, hframes⟩

theorem TypedFunction.WellTyped.sound {p : TypedProgram} {f : TypedFunction} (hf : f ∈ p.functions)
    (hsmall : p.Small) (h : f.WellTyped p.env) : f.Sound p where
  exprs s hs _ hx :=
    (hx.wellTyped (h.body s hs)).sound (hsmall.frames f hf) fun _ hy =>
      hsmall.types _ (.body hf hs (hx.part hy))
  stmts s hs _ ht := (ht.wellTyped (h.body s hs)).sound
  labels := h.labels
  returns := h.returns

theorem TypedData.WellTyped.sound {p : TypedProgram} {d : TypedData}
    (hd : d ∈ p.statics ++ p.globals) (hsmall : p.Small) (h : d.WellTyped p.env) : d.Sound p where
  fits _ hx := (h.init _ hx).2.1
  exprs y hy x hx := by
    have htyped : x.WellTyped (p.env.inside [] []) :=
      (hx.wellTyped (h.init y hy).1).mono (TypingEnv.sub_inside _ _ _ _ [] [])
    exact htyped.sound (by decide) fun z hz => hsmall.types z (.init hd hy (hz.trans hx))

theorem TypedProgram.WellTyped.sound {p : TypedProgram} (hsmall : p.Small) (h : p.WellTyped) :
    p.Sound where
  functions f hf := (h.functions f hf).sound hf hsmall
  statics d hd := (h.statics d hd).sound (List.mem_append_left _ hd) hsmall
  globals d hd := (h.globals d hd).sound (List.mem_append_right _ hd) hsmall

/-- A script without errors becomes a sound program with the functions of the script. -/
theorem check_sound {script : Script} (h : (check script).isSuccess = true)
    (hsmall : (check script).program.Small) :
    (check script).program.Sound ∧
      (check script).program.functions.map TypedFunction.name =
        script.functions.map FunctionDecl.name := by
  obtain ⟨htyped, hfunctions⟩ := check_wellTyped h
  refine ⟨htyped.sound hsmall, ?_⟩
  have hnames := congrArg (List.map Prod.fst) hfunctions
  rw [List.map_map, List.map_map] at hnames
  exact hnames

/-- A script with parts of parts, an operand that is converted, and calls of both kinds. -/
def lookout : Script :=
  let post : Expr := .index {} (.name {} "posts") (.name {} "i")
  let number (v : Int32) : Expr := .literal {} (.int v)
  [.struct {
      name := "POST"
      fields := [{ name := "at", ty := { name := "VECTOR" } },
        { name := "waits", ty := { name := "INT" }, init := some (.int 2) }] },
    .static { name := "posts", ty := { name := "POST", lengths := [3] } },
    .static
      { name := "pause", ty := { name := "FLOAT" },
        init := some (.literal {} (.float ⟨0x40A00000⟩)) },
    .globals { name := "SHARED", vars := [{ name := "alarm", ty := { name := "BOOL" } }] },
    .native { name := "WAIT", params := [{ name := "time", ty := { name := "INT" } }] },
    .function {
      name := "height"
      params :=
        [{ name := "p", ty := { name := "POST" } }, { name := "by", ty := { name := "INT" } }]
      result := some { name := "FLOAT" }
      body := [.ret {} (some (.binary {} .mul (.field {} (.field {} (.name {} "p") "at") "z")
        (.name {} "by")))] },
    .function {
      name := "main"
      params := []
      body := [
        .var {} "i" { name := "INT" } none,
        .var {} "top" { name := "AUTO" } (some (.name {} "pause")),
        .repeatLoop {} (number 3) (.name {} "i") [
          .call {} (.call {} (.name {} "WAIT") [.field {} post "waits"]),
          .assign {} (.name {} "top")
            (.call {} (.name {} "height") [post, .unary {} .neg (number 1)])],
        .assign {} (.name {} "alarm") (.binary {} .gt (.name {} "top") (number 0))] }]

theorem check_sound_lookout :
    (check lookout).isSuccess = true ∧ (check lookout).program.Small ∧
      (check lookout).program.Sound ∧
      (check lookout).program.functions.map TypedFunction.name = ["height", "main"] := by
  have heval : (check lookout).isSuccess = true ∧
      (∀ x ∈ (check lookout).program.exprs, x.ty.slots < 2 ^ 31) ∧
      ∀ f ∈ (check lookout).program.functions,
        variableSlots f.args + reservedSlots + variableSlots f.locals < 2 ^ 31 := by
    rw [check_eq_checkFrom]
    decide +kernel
  have hsmall := TypedProgram.small_of_exprs heval.2.1 heval.2.2
  exact ⟨heval.1, hsmall, check_sound heval.1 hsmall⟩

end GameScript
