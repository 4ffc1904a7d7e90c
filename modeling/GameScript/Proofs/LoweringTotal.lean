import GameScript.Lowering.Body
import GameScript.Proofs.Outcomes
import GameScript.Proofs.WellTyped

/-!
# Code for well-typed programs

Code can be generated for everything that is well typed: storage that is named exists, addresses are
taken only of storage, and operators stand on types that have an opcode for them. The statements
that are generated have few forms. They are named here, together with the labels that the code of a
body defines and refers to, because that is all the assembler asks for. How many slots the code
leaves on the stack is another matter.
-/
namespace GameScript

/-- Instructions that refer to no label: no operands, constants, or calls of what `Γ` knows. -/
inductive Statement.Plain (Γ : TypingEnv) : Statement → Prop where
  | op {o : Opcode} : o.layout = .none → Plain Γ (.op o)
  | pushInt {v : Int} : Plain Γ (.pushInt v)
  | pushFloat {v : Binary32} : Plain Γ (.push (.float v))
  | string {s : String} : Plain Γ (.op .string [.text s])
  | call {name result params} : Γ.function name result params → Plain Γ (.op .call [.ident name])
  | native {name : String} {a b : Nat} : Plain Γ (.op .native [.int a, .int b, .ident name])
  | assignString {n : Nat} : Plain Γ (.op .labelAssignString [.int n])

/-- What generated code consists of, where `target` tells which labels may be jumped to. -/
inductive Statement.Generated (Γ : TypingEnv) (target : String → Prop) : Statement → Prop where
  | plain {s : Statement} : s.Plain Γ → Generated Γ target s
  | mark {label : String} : Generated Γ target (.mark label)
  | jump {o : Opcode} {label : String} : o.layout = .label → target label →
      Generated Γ target (Lowering.jumpTo o label)
  | switch {operands : List Operand} :
      (∀ x ∈ operands, ∃ v label, x = .case v label ∧ target label) →
      Generated Γ target (.op .switch operands)
  | leave {a b : Int} : Generated Γ target (.op .leave [.int a, .int b])

theorem Statement.Generated.mono {Γ : TypingEnv} {target target' : String → Prop} {s : Statement}
    (h : s.Generated Γ target) (htarget : ∀ label, target label → target' label) :
    s.Generated Γ target' := by
  cases h with
  | plain h => exact .plain h
  | mark => exact .mark
  | jump ho h => exact .jump ho (htarget _ h)
  | switch h =>
      apply Generated.switch
      intro x hx
      obtain ⟨v, label, hcase, hlabel⟩ := h x hx
      exact ⟨v, label, hcase, htarget label hlabel⟩
  | leave => exact .leave

structure DataLayout.Covers (layout : DataLayout) (Γ : TypingEnv) : Prop where
  statics : ∀ name ty kind, Γ.static name ty →
    ∃ slot, DataLayout.slot layout.statics kind name = .ok slot
  globals : ∀ name ty kind, Γ.global name ty →
    ∃ slot, DataLayout.slot layout.globals kind name = .ok slot

namespace Lowering

def PlainCode (Γ : TypingEnv) (code : List Statement) : Prop := ∀ s ∈ code, s.Plain Γ

section
variable {Γ : TypingEnv}

theorem PlainCode.nil : PlainCode Γ [] := fun _ hs => absurd hs List.not_mem_nil

theorem PlainCode.cons {s : Statement} {code : List Statement} (hs : s.Plain Γ)
    (h : PlainCode Γ code) : PlainCode Γ (s :: code) :=
  List.forall_mem_cons.mpr ⟨hs, h⟩

theorem PlainCode.append {code code' : List Statement} (h : PlainCode Γ code)
    (h' : PlainCode Γ code') : PlainCode Γ (code ++ code') :=
  List.forall_mem_append.mpr ⟨h, h'⟩

theorem PlainCode.single {s : Statement} (hs : s.Plain Γ) : PlainCode Γ [s] := .cons hs .nil

theorem plain_drops (n : Nat) : PlainCode Γ (List.replicate n (Statement.op .drop)) := by
  intro s hs
  rw [(List.mem_replicate.mp hs).2]
  exact .op rfl

theorem plain_offset (slots : UInt32) : PlainCode Γ (offset slots) := by
  unfold offset
  split
  · exact .nil
  · exact .cons .pushInt (.single (.op rfl))

theorem plain_literal (v : Literal) : PlainCode Γ (literal v) := by
  cases v with
  | int v => exact .single .pushInt
  | float v => exact .single .pushFloat
  | bool b => exact .single .pushInt
  | text s => exact .single .string
  | null => exact .single (.op rfl)

theorem layout_localAt? {slot : Nat} {o : Opcode} (h : Opcode.localAt? slot = some o) :
    o.layout = .none := by
  have hmem := List.mem_of_getElem? h
  revert hmem
  cases o <;> decide

theorem plain_frameAddress (slot : UInt32) : PlainCode Γ (frameAddress slot) := by
  unfold frameAddress
  cases hslot : Opcode.localAt? slot.toNat with
  | some o => exact .single (.op (layout_localAt? hslot))
  | none => exact .cons .pushInt (.single (.op rfl))

theorem plain_loadFrom (slots : Nat) {place : List Statement} (h : PlainCode Γ place) :
    PlainCode Γ (loadFrom slots place) := by
  unfold loadFrom
  split
  · exact h.append (.single (.op rfl))
  · exact ((PlainCode.single .pushInt).append h).append (.single (.op rfl))

theorem layout_unaryOpcode (o : UnaryOp) (ty : Ty) : (unaryOpcode o ty).layout = .none := by
  unfold unaryOpcode
  split <;> rfl

/-- An operator has an opcode wherever it is defined. -/
theorem binaryOp_ok {o : BinaryOp} {a b : Ty} {rule : BinaryRule}
    (h : binaryRule? o a b = some rule) : ∃ s, binaryOp o a = .ok s ∧ s.Plain Γ := by
  have hopcode : ∃ opcode, binaryOpcode? o a = some opcode ∧ opcode.layout = .none := by
    unfold binaryRule? at h
    split at h
    all_goals cases o <;> first | exact ⟨_, rfl, rfl⟩ | cases h
  obtain ⟨opcode, hsome, hlayout⟩ := hopcode
  refine ⟨.op opcode, ?_, .op hlayout⟩
  rw [binaryOp, hsome]

end

def Succeeds (Γ : TypingEnv) (x : Except EncodingError (List Statement)) : Prop :=
  ∃ code, x = .ok code ∧ PlainCode Γ code

section
variable {Γ : TypingEnv}

theorem Succeeds.ok {code : List Statement} (h : PlainCode Γ code) : Succeeds Γ (.ok code) :=
  ⟨code, rfl, h⟩

theorem Succeeds.bind {x : Except EncodingError (List Statement)}
    {f : List Statement → Except EncodingError (List Statement)} (hx : Succeeds Γ x)
    (hf : ∀ code, PlainCode Γ code → Succeeds Γ (f code)) : Succeeds Γ (x >>= f) := by
  obtain ⟨code, rfl, hcode⟩ := hx
  exact hf code hcode

theorem Succeeds.exists_ok {x : Except EncodingError (List Statement)} (hx : Succeeds Γ x) :
    ∃ code, x = .ok code := by
  obtain ⟨code, hcode, -⟩ := hx
  exact ⟨code, hcode⟩

/-- Whatever code a step that succeeds gives is plain. -/
theorem Succeeds.plain {x : Except EncodingError (List Statement)} (hx : Succeeds Γ x)
    {code : List Statement} (h : x = .ok code) : PlainCode Γ code := by
  obtain ⟨code', hcode, hplain⟩ := hx
  rw [h] at hcode
  cases hcode
  exact hplain

theorem slot_bind {table : List (String × Nat)} {kind name : String}
    {f : Nat → Except EncodingError (List Statement)}
    (h : ∃ slot, DataLayout.slot table kind name = .ok slot) (hf : ∀ slot, Succeeds Γ (f slot)) :
    Succeeds Γ (DataLayout.slot table kind name >>= f) := by
  obtain ⟨slot, hslot⟩ := h
  rw [hslot]
  exact hf slot

end

mutual

/-- The address of well-typed storage. -/
theorem address_succeeds {Γ : TypingEnv} {layout : DataLayout} (hlayout : layout.Covers Γ) :
    (x : TypedExpr) → x.WellTyped Γ → x.isLValue = true → Succeeds Γ (address layout x)
  | .frame ty span slot, _, _ => by
      rw [address]
      exact .ok (plain_frameAddress slot)
  | .static ty span name, hx, _ => by
      rw [address]
      cases hx with
      | static h =>
          exact slot_bind (hlayout.statics name ty _ h) fun slot =>
            .ok (.cons .pushInt (.single (.op rfl)))
  | .global ty span name, hx, _ => by
      rw [address]
      cases hx with
      | global h =>
          exact slot_bind (hlayout.globals name ty _ h) fun slot =>
            .ok (.cons .pushInt (.single (.op rfl)))
  | .field ty span target slots, hx, _ => by
      rw [address]
      cases hx with
      | field ht hlvalue _ =>
          exact (address_succeeds hlayout target ht hlvalue).bind fun place hplace =>
            .ok (hplace.append (plain_offset _))
  | .index ty span target index itemSlots, hx, _ => by
      rw [address]
      cases hx with
      | index ht hlvalue _ hi _ =>
          refine (value_succeeds hlayout index hi).bind fun code hcode =>
            (address_succeeds hlayout target ht hlvalue).bind fun place hplace => .ok ?_
          exact (hcode.append hplace).append (.cons .pushInt (.single (.op rfl)))

/-- The value of any well-typed expression. -/
theorem value_succeeds {Γ : TypingEnv} {layout : DataLayout} (hlayout : layout.Covers Γ) :
    (x : TypedExpr) → x.WellTyped Γ → Succeeds Γ (value layout x)
  | .const ty span v, _ => by
      rw [value]
      exact .ok (plain_literal v)
  | .string ty span s, _ => by
      rw [value]
      exact .ok (.single .string)
  | .frame ty span slot, _ => by
      rw [value]
      exact .ok (plain_loadFrom _ (plain_frameAddress slot))
  | .static ty span name, hx => by
      rw [value]
      cases hx with
      | static h =>
          exact slot_bind (hlayout.statics name ty _ h) fun slot =>
            .ok (plain_loadFrom _ (.cons .pushInt (.single (.op rfl))))
  | .global ty span name, hx => by
      rw [value]
      cases hx with
      | global h =>
          exact slot_bind (hlayout.globals name ty _ h) fun slot =>
            .ok (plain_loadFrom _ (.cons .pushInt (.single (.op rfl))))
  | .field ty span target slots, hx => by
      rw [value]
      cases hx with
      | field ht hlvalue _ =>
          exact (address_succeeds hlayout target ht hlvalue).bind fun place hplace =>
            .ok (plain_loadFrom _ (hplace.append (plain_offset _)))
  | .index ty span target index itemSlots, hx => by
      rw [value]
      cases hx with
      | index ht hlvalue _ hi _ =>
          refine (value_succeeds hlayout index hi).bind fun code hcode =>
            (address_succeeds hlayout target ht hlvalue).bind fun place hplace => .ok ?_
          exact plain_loadFrom _ ((hcode.append hplace).append (.cons .pushInt (.single (.op rfl))))
  | .convert ty span .intToFloat x, hx => by
      rw [value]
      cases hx with
      | convert hx _ =>
          exact (value_succeeds hlayout x hx).bind fun code hcode =>
            .ok (hcode.append (.single (.op rfl)))
  | .convert ty span .floatToVector x, hx => by
      rw [value]
      cases hx with
      | convert hx _ =>
          exact (value_succeeds hlayout x hx).bind fun code hcode =>
            .ok (hcode.append (.single (.op rfl)))
  | .convert ty span .labelToString x, hx => by
      rw [value]
      cases hx with
      | convert hx h => exact address_succeeds hlayout x hx h.1
  | .unary ty span o x, hx => by
      rw [value]
      cases hx with
      | unary hx _ =>
          exact (value_succeeds hlayout x hx).bind fun code hcode =>
            .ok (hcode.append (.single (.op (layout_unaryOpcode o x.ty))))
  | .binary ty span o x y, hxy => by
      rw [value]
      cases hxy with
      | binary hx hy hrule =>
          obtain ⟨s, hs, hplain⟩ := binaryOp_ok (Γ := Γ) hrule
          refine (value_succeeds hlayout x hx).bind fun left hleft =>
            (value_succeeds hlayout y hy).bind fun right hright => ?_
          rw [hs]
          exact .ok ((hleft.append hright).append (.single hplain))
  | .call ty span name args, hx => by
      rw [value]
      cases hx with
      | call hf hargs =>
          exact (values_succeeds hlayout args _ hargs).bind fun code hcode =>
            .ok (hcode.append (.single (.call hf)))
  | .native ty span name args argSlots resultSlots, hx => by
      rw [value]
      cases hx with
      | native _ hargs =>
          exact (values_succeeds hlayout args _ hargs).bind fun code hcode =>
            .ok (hcode.append (.single .native))
  | .vector ty span x y z, hx => by
      rw [value]
      cases hx with
      | vector hx _ hy _ hz _ =>
          exact (value_succeeds hlayout x hx).bind fun cx hcx =>
            (value_succeeds hlayout y hy).bind fun cy hcy =>
            (value_succeeds hlayout z hz).bind fun cz hcz => .ok ((hcx.append hcy).append hcz)

theorem values_succeeds {Γ : TypingEnv} {layout : DataLayout} (hlayout : layout.Covers Γ) :
    (args : List TypedExpr) → (params : List Ty) → TypedExpr.Arguments Γ args params →
      Succeeds Γ (values layout args)
  | [], _, _ => by
      rw [values]
      exact .ok .nil
  | x :: args, params, h => by
      rw [values]
      cases h with
      | cons hx _ hargs =>
          exact (value_succeeds hlayout x hx).bind fun code hcode =>
            (values_succeeds hlayout args _ hargs).bind fun more hmore => .ok (hcode.append hmore)

end

section
variable {Γ : TypingEnv} {layout : DataLayout}

theorem load_succeeds (hlayout : layout.Covers Γ) {x : TypedExpr} (hx : x.WellTyped Γ)
    (hlvalue : x.isLValue = true) : Succeeds Γ (load layout x) :=
  (address_succeeds hlayout x hx hlvalue).bind fun _ hplace => .ok (plain_loadFrom _ hplace)

theorem storePlain_succeeds (hlayout : layout.Covers Γ) {x y : TypedExpr} (hx : x.WellTyped Γ)
    (hlvalue : x.isLValue = true) (hy : y.WellTyped Γ) : Succeeds Γ (storePlain layout x y) := by
  refine (value_succeeds hlayout y hy).bind fun code hcode =>
    (address_succeeds hlayout x hx hlvalue).bind fun place hplace => ?_
  split
  · exact .ok ((hcode.append hplace).append (.single (.op rfl)))
  · exact .ok (((hcode.append (.single .pushInt)).append hplace).append (.single (.op rfl)))

theorem store_succeeds (hlayout : layout.Covers Γ) {x y : TypedExpr} (hx : x.WellTyped Γ)
    (hlvalue : x.isLValue = true) (hy : y.WellTyped Γ) : Succeeds Γ (store layout x y) := by
  unfold store
  split
  · exact (value_succeeds hlayout y hy).bind fun code hcode =>
      (address_succeeds hlayout x hx hlvalue).bind fun place hplace =>
        .ok ((hcode.append hplace).append (.single .assignString))
  · split
    · exact storePlain_succeeds hlayout hx hlvalue hy
    · refine (value_succeeds hlayout y hy).bind fun code hcode =>
        (address_succeeds hlayout x hx hlvalue).bind fun place hplace => .ok ?_
      exact ((hcode.append (.cons .pushInt (.single .pushInt))).append hplace).append
        (.single (.op rfl))
  · exact storePlain_succeeds hlayout hx hlvalue hy

theorem PlainCode.flatten_replicate {code : List Statement} (h : PlainCode Γ code) (n : Nat) :
    PlainCode Γ (List.replicate n code).flatten := by
  intro s hs
  obtain ⟨c, hc, hs⟩ := List.mem_flatten.mp hs
  rw [(List.mem_replicate.mp hc).2] at hs
  exact h s hs

end

mutual

theorem plain_initInPlace {Γ : TypingEnv} : (ty : Ty) → PlainCode Γ (initInPlace ty)
  | .array item length => by
      rw [initInPlace]
      refine (PlainCode.cons .pushInt (.single (.op rfl))).append ?_
      split
      · have hitem : PlainCode Γ (initInPlace item ++ offset (UInt32.ofNat item.slots)) :=
          (plain_initInPlace item).append (plain_offset _)
        exact ((((PlainCode.single (.op rfl)).append (plain_offset 1)).append
          (hitem.flatten_replicate _)).append (.single (.op rfl)))
      · exact .nil
  | .struct _ fields => by
      rw [initInPlace]
      exact plain_initFields 0 fields
  | .void | .int | .float | .bool | .string | .null | .any | .auto | .vector | .handle _
  | .textLabel _ | .enum _ _ | .function _ _ | .typeName _ => .nil

theorem plain_initFields {Γ : TypingEnv} (start : Nat) :
    (fields : Fields) → PlainCode Γ (initFields start fields)
  | .nil => by
      rw [initFields]
      exact .nil
  | .cons _ ty init rest => by
      have hmove : PlainCode Γ ([.op .dup] ++ offset (UInt32.ofNat (start / slotSize))) :=
        (PlainCode.single (.op rfl)).append (plain_offset _)
      unfold initFields
      refine PlainCode.append ?_ (plain_initFields (start + ty.size) rest)
      cases init with
      | some v =>
          exact (hmove.append (plain_literal v)).append (.cons (.op rfl) (.single (.op rfl)))
      | none =>
          simp only []
          split
          · exact (hmove.append (plain_initInPlace ty)).append (.single (.op rfl))
          · exact .nil

end

end Lowering
end GameScript
