import GameScript.Proofs.DataPlacement
import GameScript.Proofs.NothingDropped

/-!
# Where literals are stored

An initial value that is a literal is not assigned by code but written into the data segment,
whatever the type of its variable. Literals other than texts only get into variables of one slot. A
text gets into a text label, as it should, but also into a variable of type `ANY`, which takes any
value of one slot: there the first bytes of the text stand where a reference to it is expected. That
is the only exception. It happens exactly if the source gives a variable of that type a text as its
initial value, and neither the defaults of fields nor the counts of arrays add a text.
-/
namespace GameScript

def Literal.StoredIn (v : Literal) (ty : Ty) : Prop :=
  match v with
  | .text _ => ty.isTextLabel = true ∨ ty = .any
  | _ => ty.slots = 1

/-! ## Types -/

theorem Ty.takesText_of_accepts {target : Ty} (h : target.accepts .string = true)
    (hne : target ≠ .string) :
    target.isTextLabel = true ∨ target = .any := by
  unfold accepts at h
  rw [Bool.or_eq_true] at h
  rcases h with hsame | hrule
  · exact absurd (eq_of_beq_scalar hsame (.inr (.inr (.inr (.inl rfl))))) hne
  · cases target with
    | textLabel n => exact .inl rfl
    | any => exact .inr rfl
    | _ => cases hrule

theorem Ty.eq_any_of_same {ty : Ty} (h : Ty.any.same ty = true) : ty = .any := by
  cases ty with
  | any => rfl
  | _ => simp only [Ty.same, Bool.false_eq_true] at h

theorem storedIn_of_wellTyped {Γ : TypingEnv} {target : Ty} {x : TypedExpr} {v : Literal}
    (hx : x.WellTyped Γ) (hadmits : target.Admits x.ty) (hne : target ≠ .string)
    (hv : x.literal? = some v) : v.StoredIn target := by
  have hfits := literalFits_of_wellTyped hx hadmits hv
  have hslots (hsize : target.size = slotSize) : target.slots = 1 := by
    rw [Ty.slots, hsize]
    rfl
  cases hx with
  | @const _ _ value hty =>
      obtain rfl := Option.some.inj hv
      cases value with
      | text s => exact hty.elim
      | _ => exact hslots hfits
  | string =>
      obtain rfl := Option.some.inj hv
      exact Ty.takesText_of_accepts hadmits.1 hne
  | _ => cases hv

/-! ## Trees -/

/-- Somewhere in a tree the literal `v` is written into a region of `n` bytes. -/
inductive Init.Leaf (v : Literal) (n : Nat) : Init → Prop where
  | literal : Leaf v n (.literal v n)
  | group {c : Init} {children : List Init} : c ∈ children → Leaf v n c → Leaf v n (.group children)

/-- A literal other than a text, in a region of one slot. -/
def Literal.InSlot (v : Literal) (n : Nat) : Prop := n = slotSize ∧ ∀ s, v ≠ .text s

theorem inSlot_of_fieldInitError {ty : Ty} {v : Literal} (h : fieldInitError? ty v = none) :
    v.InSlot ty.size := by
  unfold fieldInitError? at h
  split at h
  case h_4 => cases h
  all_goals
    refine ⟨rfl, ?_⟩
    rintro s rfl
    split at h
    · next haccepts => exact (Ty.takesText_of_accepts haccepts nofun).elim nofun nofun
    · cases h

namespace Init

variable {v : Literal} {n : Nat}

mutual

/-- Only a variable's own initial value can be a text. -/
theorem leaf_ofType : (ty : Ty) → (init : Option Literal) → ty.WellFormed →
    Leaf v n (ofType ty init) → (init = some v ∧ n = ty.size) ∨ v.InSlot n
  | .array item length, init, hty, h => by
      unfold ofType at h
      split at h
      · cases h with
        | group hmem hleaf =>
            rcases List.mem_pair.mp hmem with rfl | rfl
            · cases hleaf
              exact .inr ⟨rfl, nofun⟩
            · cases hleaf
      · cases h with
        | group hmem hleaf =>
            rcases List.mem_cons.mp hmem with rfl | hmem
            · cases hleaf
              exact .inr ⟨rfl, nofun⟩
            · obtain rfl := List.eq_of_mem_replicate hmem
              exact .inr ((leaf_ofType item none hty hleaf).resolve_left nofun)
  | .struct _ fields, init, hty, h => by
      unfold ofType at h
      cases h with
      | group hmem hleaf => exact .inr (leaf_ofFields fields hty hmem hleaf)
  | .void, init, _, h | .int, init, _, h | .float, init, _, h | .bool, init, _, h
  | .string, init, _, h | .null, init, _, h | .any, init, _, h | .auto, init, _, h
  | .vector, init, _, h | .handle _, init, _, h | .textLabel _, init, _, h
  | .enum _ _, init, _, h | .function _ _, init, _, h | .typeName _, init, _, h => by
      cases init with
      | none => cases h
      | some value =>
          cases h
          exact .inl ⟨rfl, rfl⟩

theorem leaf_ofFields {c : Init} : (fields : Fields) → fields.WellFormed → c ∈ ofFields fields →
    Leaf v n c → v.InSlot n
  | .nil, _, hmem, _ => absurd hmem List.not_mem_nil
  | .cons _ ty init rest, hfields, hmem, hleaf => by
      rw [ofFields, List.mem_cons] at hmem
      rcases hmem with rfl | hmem
      · rcases leaf_ofType ty init hfields.1 hleaf with ⟨hinit, rfl⟩ | hslot
        · exact inSlot_of_fieldInitError (hfields.2.1 v hinit)
        · exact hslot
      · exact leaf_ofFields rest hfields.2.2 hmem hleaf

end

end Init

/-- A text is written from the first byte of its variable on. -/
theorem DataField.bytes_of_text {f : DataField} {s : String} (hinit : f.init = some (.text s))
    (hty : (Literal.text s).StoredIn f.ty) : f.bytes = .ok (Init.fillText s f.ty.size) := by
  have htree : f.tree = .literal (.text s) f.ty.size ∧ f.ty.size ≤ allocationLimit := by
    rw [tree, hinit]
    rcases hty with hlabel | hany
    · cases hf : f.ty with
      | textLabel n => exact ⟨rfl, Nat.le_trans (Nat.le_of_lt n.toNat_lt) (by decide)⟩
      | _ =>
          rw [hf] at hlabel
          cases hlabel
    · rw [hany]
      exact ⟨rfl, by decide⟩
  refine bytes_of_write htree.2 ?_ (Init.length_fillText s f.ty.size)
  rw [htree.1]
  simp only [Init.write, Nat.le_refl, if_true]

/-! ## Texts of the source -/

/-- What the check gives, if anything, is no text. -/
def Checked.NoText (x : Checked TypedExpr) : Prop :=
  ∀ a, x.value? = some a → ∀ s, a.literal? ≠ some (.text s)

namespace Checked

theorem value?_bind {α β : Type} {x : Checked α} {f : α → Checked β} {b : β}
    (h : (x >>= f).value? = some b) :
    ∃ a, x.value? = some a ∧ (f a).value? = some b := by
  cases hx : x.value? with
  | none =>
      simp only [Bind.bind, hx] at h
      cases h
  | some a =>
      simp only [Bind.bind, hx] at h
      exact ⟨a, rfl, h⟩

theorem NoText.pure {a : TypedExpr} (h : ∀ s, a.literal? ≠ some (.text s)) :
    NoText (Pure.pure a) := fun _ ha => Option.some.inj ha ▸ h

theorem NoText.fail (span : Span) (e : TypeError) : NoText (.fail span e) := nofun

theorem NoText.bind {α : Type} {x : Checked α} {f : α → Checked TypedExpr} (h : ∀ a, NoText (f a)) :
    NoText (x >>= f) := by
  intro b hb
  obtain ⟨a, -, ha⟩ := value?_bind hb
  exact h a b ha

end Checked

namespace Typing

open Checked (NoText)

theorem name_noText (scope : Scope) (span : Span) (name : String) :
    NoText (Typing.name scope span name) := by
  unfold Typing.name
  split
  · exact .fail _ _
  · split
    case h_7 => exact .fail _ _
    all_goals exact .pure nofun

theorem unary_noText (op : UnaryOp) (x : TypedExpr) (span : Span) :
    NoText (Typing.unary op x span) := by
  unfold Typing.unary
  split
  case h_4 =>
    split
    · exact .pure nofun
    · exact .fail _ _
  all_goals exact .pure nofun

theorem binary_noText (op : BinaryOp) (x y : TypedExpr) (span : Span) :
    NoText (Typing.binary op x y span) := by
  unfold Typing.binary
  split
  · exact .fail _ _
  · exact .pure nofun

theorem field_noText (x : TypedExpr) (name : String) (span : Span) :
    NoText (Typing.field x name span) := by
  unfold Typing.field
  split
  · exact .fail _ _
  · split
    · exact .pure nofun
    · exact .fail _ _

theorem index_noText (x i : TypedExpr) (span : Span) : NoText (Typing.index x i span) := by
  unfold Typing.index
  split
  · split
    · exact .fail _ _
    · split
      · exact .fail _ _
      · exact .pure nofun
  · exact .fail _ _

theorem call_noText (scope : Scope) (callee : Expr) (args : List (Span × Checked TypedExpr))
    (span : Span) :
    NoText (Typing.call scope callee args span) := by
  unfold Typing.call
  split
  · split
    · exact .fail _ _
    · split
      · refine .bind fun p => ?_
        dsimp only
        split
        · exact .pure nofun
        · exact .pure nofun
      · exact .fail _ _
      · exact .fail _ _
  · exact .fail _ _

end Typing

/-- A text is only the value of a text in the source. -/
theorem typeExpr_text {scope : Scope} {e : Expr} {x : TypedExpr} {s : String}
    (h : (typeExpr scope e).value? = some x) (hx : x.literal? = some (.text s)) :
    ∃ span, e = .literal span (.text s) := by
  have hnone (hno : (typeExpr scope e).NoText) : False := hno x h s hx
  cases e with
  | literal span value =>
      cases value with
      | text t =>
          obtain rfl := Option.some.inj h
          obtain rfl := Literal.text.inj (Option.some.inj hx)
          exact ⟨span, rfl⟩
      | _ => exact (hnone (.pure nofun)).elim
  | name span name => exact (hnone (Typing.name_noText scope span name)).elim
  | unary span op operand => exact (hnone (.bind fun x => Typing.unary_noText op x span)).elim
  | binary span op lhs rhs =>
      exact (hnone (.bind fun p => Typing.binary_noText op p.1 p.2 span)).elim
  | field span target name => exact (hnone (.bind fun x => Typing.field_noText x name span)).elim
  | index span target i => exact (hnone (.bind fun p => Typing.index_noText p.1 p.2 span)).elim
  | call span callee args =>
      exact (hnone (Typing.call_noText scope callee (typeArgs scope args) span)).elim
  | vector span x y z => exact (hnone (.bind fun p => .pure nofun)).elim
  | sizeOf span inner => exact (hnone (.bind fun x => .pure nofun)).elim

theorem typeValue_value? {scope : Scope} {e : Expr} {x : TypedExpr}
    (h : (typeValue scope e).value? = some x) :
    (typeExpr scope e).value? = some x := by
  obtain ⟨a, ha, hx⟩ := Checked.value?_bind h
  split at hx
  · cases hx
  · rw [ha]
    exact hx

/-- Fitting a value to a variable makes no literal of it, and keeps a text as it is. -/
theorem coerce_literal {x y : TypedExpr} {target : Ty} (h : coerce x target = .ok y)
    (hkeeps : y.literal?.isSome = true ∨ x.ty = .string) : y = x := by
  unfold coerce at h
  split at h
  · cases h
  · split at h
    · next n hlabel _ =>
        split at h
        · obtain rfl := Except.ok.inj h
          rcases hkeeps with hsome | hstring
          · cases hsome
          · cases hlabel.symm.trans hstring
        · cases h
    · exact (Except.ok.inj h).symm

theorem dataInit_value? {kind : String} {symbols : GlobalTable} {d : DeclaredData} {init : Expr}
    {y : TypedExpr} (hinit : d.init = some init) (h : (dataInit kind symbols d).value? = some y) :
    ∃ x, (typeExpr (Scope.new symbols) init).value? = some x ∧ coerce x d.ty = .ok y := by
  unfold dataInit at h
  rw [hinit] at h
  simp only [] at h
  split at h
  · cases h
  · obtain ⟨x, hx, hy⟩ := Checked.value?_bind h
    refine ⟨x, typeValue_value? hx, ?_⟩
    cases hcoerce : coerce x d.ty with
    | error found =>
        rw [hcoerce] at hy
        cases hy
    | ok z =>
        rw [hcoerce] at hy
        exact congrArg Except.ok (Option.some.inj hy)

/-- The variable is stored with a text exactly if a text is written as its initial value. -/
def StaticDecl.KeepsText (decl : StaticDecl) (d : TypedData) : Prop :=
  ∀ s, d.literal? = some (.text s) ↔ ∃ span, decl.init = some (.literal span (.text s))

theorem checkData_keepsText (kind : String) {symbols : GlobalTable} {decl : StaticDecl}
    {d : DeclaredData} (hd : decl.DeclaredAs symbols d) :
    BodiesM.Ensures (checkData kind symbols d) decl.KeepsText := by
  intro state
  refine ⟨List.prefix_append _ _, fun hclean s => ?_⟩
  rw [← hd.init]
  have hliteral : (checkData kind symbols d state).1.literal? =
      (dataInit kind symbols d).value?.bind TypedExpr.literal? := rfl
  rw [hliteral]
  cases hinit : d.init with
  | none =>
      rw [dataInit, hinit]
      constructor
      · intro h
        cases h
      · rintro ⟨span, h⟩
        cases h
  | some init =>
      obtain ⟨y, hy, -⟩ := (dataInit_stands kind symbols hinit).of_clean fun report hreport =>
        hclean report (List.mem_append_right _ hreport)
      obtain ⟨x, hx, hcoerce⟩ := dataInit_value? hinit hy
      rw [hy, Option.bind_some]
      constructor
      · intro htext
        obtain rfl := coerce_literal hcoerce (.inl (by rw [htext]; rfl))
        obtain ⟨span, rfl⟩ := typeExpr_text hx htext
        exact ⟨span, rfl⟩
      · rintro ⟨span, heq⟩
        obtain rfl := Option.some.inj heq
        obtain rfl := Option.some.inj hx
        obtain rfl := coerce_literal hcoerce (.inr rfl)
        rfl

/-! ## Scripts -/

def Storage.decls : Storage → Script → List StaticDecl
  | static, script => script.statics
  | global, script => script.globalVars.map GlobalDecl.asStatic

theorem BodiesM.Ensures.and {α : Type} {x : BodiesM α} {P Q : α → Prop} (h : BodiesM.Ensures x P)
    (h' : BodiesM.Ensures x Q) : BodiesM.Ensures x fun a => P a ∧ Q a :=
  fun s => ⟨(h s).1, fun hclean => ⟨(h s).2 hclean, (h' s).2 hclean⟩⟩

theorem check_keepsText {script : Script} (h : (check script).isSuccess = true)
    (storage : Storage) :
    List.Forall₂ (fun decl d => decl.KeptAs (check script).program.symbols d ∧ decl.KeepsText d)
      (storage.decls script) (storage.data (check script).program) := by
  let first := declareScript script (DeclareState.start Registry.withBuiltins)
  obtain ⟨hdeclared, hclean⟩ := clean_of_isSuccess h
  have hcomplete : first.1.Complete first.2.symbols script :=
    (declareScript_ensures script _).2 ⟨List.prefix_refl _, hdeclared⟩
  have hbodies := checkBodies_ensuresData hcomplete fun kind decl d hd =>
    (checkData_keeps kind hd).and (checkData_keepsText kind hd)
  obtain ⟨hstatics, hglobals, -⟩ := (hbodies ⟨first.2.registry, first.2.diagnostics⟩).2 hclean
  rw [check_eq]
  cases storage with
  | static => exact hstatics
  | global => exact List.forall₂_map_left_iff.mpr hglobals

/-- A type written as `ANY` stands for nothing else. -/
theorem TypeRef.Denotes.eq_any {symbols : GlobalTable} {ref : TypeRef} {ty : Ty}
    (hany : ref.Denotes symbols .any) (hty : ref.Denotes symbols ty) : ty = .any := by
  have harrays {base array : Ty} {lengths : List UInt32} (h : base.Arrays lengths array) :
      array = .any → lengths = [] ∧ base = .any := by
    induction h with
    | nil => exact fun h => ⟨rfl, h⟩
    | cons hsame _ ih =>
        intro h
        rw [(ih h).2] at hsame
        cases Ty.eq_any_of_same hsame
  obtain ⟨base, hbase, hlengths⟩ := hany
  obtain ⟨base', hbase', hlengths'⟩ := hty
  obtain ⟨hnil, rfl⟩ := harrays hlengths rfl
  rw [hnil] at hlengths'
  obtain rfl := Option.some.inj (hbase.symm.trans hbase')
  cases hlengths'
  rfl

theorem Storage.wellTyped_data {p : TypedProgram} (hp : p.WellTyped) (storage : Storage) :
    ∀ d ∈ storage.data p, d.WellTyped p.env := by
  cases storage with
  | static => exact hp.statics
  | global => exact hp.globals

/-- In which variables literals are stored, and when a text is stored in one that is no text
label. -/
theorem check_literals_stored {script : Script} {generated : GeneratedScript}
    (hsuccess : (check script).isSuccess = true)
    (hgenerated : generate (check script).program = .ok generated) (storage : Storage) :
    (∀ f ∈ storage.fields generated, ∀ v, f.init = some v → v.StoredIn f.ty) ∧
    (∀ f ∈ storage.fields generated, ∀ v n, f.tree.Leaf v n → (f.init = some v ∧ n = f.ty.size) ∨
      v.InSlot n) ∧
    (∀ f ∈ storage.fields generated, ∀ s, f.init = some (.text s) →
      f.bytes = .ok (Init.fillText s f.ty.size)) ∧
    ((∀ f ∈ storage.fields generated, ∀ s, f.init = some (.text s) → f.ty.isTextLabel = true) ↔
      ∀ decl ∈ storage.decls script, ∀ span s, decl.init = some (.literal span (.text s)) →
        ¬ decl.ty.Denotes (check script).program.symbols .any) := by
  have hp := (check_wellTyped hsuccess).1
  have hdata := storage.wellTyped_data hp
  have hkept := check_keepsText hsuccess storage
  have hstored : ∀ d ∈ storage.data (check script).program, ∀ v, d.literal? = some v →
      v.StoredIn d.ty := by
    intro d hd v hv
    obtain ⟨x, hinit, hx⟩ := Option.bind_eq_some_iff.mp hv
    obtain ⟨htyped, hadmits, hne⟩ := (hdata d hd).init x hinit
    exact storedIn_of_wellTyped htyped hadmits hne hx
  rw [(of_generate hp hgenerated).fields storage]
  simp only [List.forall_mem_map]
  refine ⟨hstored, ?_, ?_, ?_, ?_⟩
  · exact fun d hd v n hleaf => Init.leaf_ofType d.ty d.literal? (hdata d hd).ty hleaf
  · exact fun d hd s htext => DataField.bytes_of_text htext (hstored d hd (.text s) htext)
  · intro hlabels decl hdecl span s hinit hany
    obtain ⟨d, hd, hkeeps, htext⟩ := exists_of_mem_left_forall₂ hkept hdecl
    have hlabel := hlabels d hd s ((htext s).mpr ⟨span, hinit⟩)
    have hty : d.ty = .any := hany.eq_any hkeeps.ty
    rw [show (Lowering.dataField d).ty = .any from hty] at hlabel
    cases hlabel
  · intro hnone d hd s htext
    obtain ⟨decl, hdecl, hkeeps, hkeepsText⟩ := exists_of_mem_forall₂ hkept hd
    obtain ⟨span, hinit⟩ := (hkeepsText s).mp htext
    rcases hstored d hd (.text s) htext with hlabel | hany
    · exact hlabel
    · exact absurd (hany ▸ hkeeps.ty) (hnone decl hdecl span s hinit)

/-- A script with a text in a variable of type `ANY` and another in a text label. -/
def memo : Script :=
  [.static { name := "note", ty := { name := "ANY" }, init := some (.literal {} (.text "abc")) },
    .static { name := "lives", ty := { name := "INT" }, init := some (.literal {} (.int 3)) },
    .globals {
      name := "SHARED"
      vars :=
        [{
          name := "title"
          ty := { name := "TEXT_LABEL_15" }
          init := some (.literal {} (.text "abc")) }] },
    .function { name := "main", params := [], body := [] }]

theorem check_literals_stored_memo :
    (check memo).isSuccess = true ∧ ∃ generated, generate (check memo).program = .ok generated ∧
      (∀ (storage : Storage), ∀ f ∈ storage.fields generated, ∀ v, f.init = some v →
        v.StoredIn f.ty) ∧
      (¬ ∀ f ∈ generated.statics, ∀ s, f.init = some (.text s) → f.ty.isTextLabel = true) ∧
      ∀ f ∈ generated.globals, ∀ s, f.init = some (.text s) → f.ty.isTextLabel = true := by
  have heval : (check memo).isSuccess = true ∧
      (generate (check memo).program).toOption.isSome = true ∧
      ((check memo).program.symbols.findType? "ANY").map (Ty.same .any) = some true ∧
      ((check memo).program.symbols.findType? "TEXT_LABEL_15").map (Ty.same .any) = some false := by
    rw [check_eq_checkFrom]
    decide +kernel
  obtain ⟨hsuccess, hsome, hany, hlabel⟩ := heval
  obtain ⟨generated, hgenerated⟩ := Option.isSome_iff_exists.mp hsome
  have hgenerated := ok_of_toOption hgenerated
  have hstored := check_literals_stored hsuccess hgenerated
  refine ⟨hsuccess, generated, hgenerated, fun storage => (hstored storage).1, fun hlabels => ?_,
    ?_⟩
  · refine (hstored .static).2.2.2.mp hlabels _ List.mem_cons_self {} "abc" rfl ?_
    obtain ⟨ty, hty, hsame⟩ := Option.map_eq_some_iff.mp hany
    exact ⟨.any, Ty.eq_any_of_same hsame ▸ hty, .nil⟩
  · refine (hstored .global).2.2.2.mpr fun decl hdecl span s hinit hdenotes => ?_
    obtain rfl := List.mem_singleton.mp hdecl
    obtain ⟨base, hbase, hlengths⟩ := hdenotes
    cases hlengths
    have hany : (check memo).program.symbols.findType? "TEXT_LABEL_15" = some .any := hbase
    rw [hany, Option.map_some, Ty.same] at hlabel
    cases hlabel

end GameScript
