import GameScript.Proofs.DataRegions
import GameScript.Proofs.GeneratedReturns
import GameScript.Proofs.Occurrences

/-!
# Access to variables in generated code

The address of a variable is made by pushing a slot number and turning it into an address. Generated
code does this nowhere else: it falls into such pairs and instructions that have nothing to do with
variables. Every pair stands for an expression of the source that names a variable, and its number
is the one under which the layout has that name. Nothing is asked of the statements, so this also
holds of code that is never reached.
-/
namespace GameScript

/-- The two kinds of variables that are not part of a frame. -/
inductive Storage where
  | static
  | global

namespace Storage

def opcode : Storage → Opcode
  | static => .static
  | global => .global

def expr : Storage → Ty → Span → String → TypedExpr
  | static => .static
  | global => .global

def slot (storage : Storage) (layout : DataLayout) (name : String) : Except EncodingError Nat :=
  match storage with
  | static => DataLayout.slot layout.statics "static" name
  | global => DataLayout.slot layout.globals "global" name

theorem opcode_inj {a b : Storage} (h : a.opcode = b.opcode) : a = b := by
  cases a <;> cases b <;> first | rfl | cases h

end Storage

/-- The instruction makes an address of a slot of the statics or the globals. -/
def Statement.IsDataAddress (s : Statement) : Prop :=
  ∃ storage : Storage, s.mnemonic = some storage.opcode.mnemonic

namespace Lowering

open Statement (op pushInt mark push)

/-- The code consists of pushes of slots that are turned into addresses, each of which satisfies
`P`, and of other instructions. -/
inductive Accesses (P : Storage → Nat → Prop) : List Statement → Prop where
  | nil : Accesses P []
  | other {s : Statement} {code : List Statement} : ¬ s.IsDataAddress → Accesses P code →
      Accesses P (s :: code)
  | data {storage : Storage} {slot : Nat} {code : List Statement} : P storage slot →
      Accesses P code → Accesses P (pushInt slot :: op storage.opcode :: code)

def Quiet (code : List Statement) : Prop := ∀ s ∈ code, ¬ s.IsDataAddress

section
variable {P : Storage → Nat → Prop} {code code' : List Statement}

theorem isDataAddress_op {o : Opcode} {operands : List Operand} :
    (op o operands).IsDataAddress ↔ o = .static ∨ o = .global := by
  constructor
  · rintro ⟨_ | _, h⟩
    · exact .inl (Opcode.mnemonic_inj (Option.some.inj h))
    · exact .inr (Opcode.mnemonic_inj (Option.some.inj h))
  · rintro (rfl | rfl)
    · exact ⟨.static, rfl⟩
    · exact ⟨.global, rfl⟩

theorem not_isDataAddress_push (x : Operand) : ¬ (push x).IsDataAddress := by
  rintro ⟨_ | _, h⟩
  · exact absurd (Option.some.inj h) (by decide)
  · exact absurd (Option.some.inj h) (by decide)

theorem not_isDataAddress_mark (label : String) : ¬ (mark label).IsDataAddress := by
  rintro ⟨storage, h⟩
  cases h

@[simp] theorem quiet_nil : Quiet [] := fun _ hs => absurd hs List.not_mem_nil

@[simp] theorem quiet_append : Quiet (code ++ code') ↔ Quiet code ∧ Quiet code' :=
  List.forall_mem_append

@[simp] theorem quiet_op {o : Opcode} {operands : List Operand} :
    Quiet (op o operands :: code) ↔ ¬ (o = .static ∨ o = .global) ∧ Quiet code := by
  rw [← isDataAddress_op]
  exact List.forall_mem_cons

@[simp] theorem quiet_push {x : Operand} : Quiet (push x :: code) ↔ Quiet code :=
  List.forall_mem_cons.trans (and_iff_right (not_isDataAddress_push x))

@[simp] theorem quiet_pushInt {v : Int} : Quiet (pushInt v :: code) ↔ Quiet code := quiet_push

@[simp] theorem quiet_mark {label : String} : Quiet (mark label :: code) ↔ Quiet code :=
  List.forall_mem_cons.trans (and_iff_right (not_isDataAddress_mark label))

@[simp] theorem quiet_jumpTo {o : Opcode} {label : String} :
    Quiet (jumpTo o label :: code) ↔ ¬ (o = .static ∨ o = .global) ∧ Quiet code := quiet_op

@[simp] theorem quiet_leave {info : BodyInfo} : Quiet (info.leave :: code) ↔ Quiet code :=
  quiet_op.trans (and_iff_right (by decide))

theorem Quiet.accesses (h : Quiet code) : Accesses P code := by
  induction code with
  | nil => exact .nil
  | cons s code ih =>
      rw [Quiet, List.forall_mem_cons] at h
      exact .other h.1 (ih h.2)

theorem Accesses.append (h : Accesses P code) (h' : Accesses P code') :
    Accesses P (code ++ code') := by
  induction h with
  | nil => exact h'
  | other hs _ ih => exact .other hs ih
  | data hP _ ih => exact .data hP ih

/-- In such code a slot is pushed right before it is turned into an address. -/
theorem Accesses.pushed (h : Accesses P code) {storage : Storage} {s : Statement}
    {front back : List Statement} (hs : s.mnemonic = some storage.opcode.mnemonic)
    (hcode : code = front ++ s :: back) :
    ∃ (before : List Statement) (slot : Nat),
      s = op storage.opcode ∧ front = before ++ [pushInt slot] ∧ P storage slot := by
  have haddress : s.IsDataAddress := ⟨storage, hs⟩
  induction h generalizing front with
  | nil => exact absurd hcode.symm (List.append_ne_nil_of_right_ne_nil _ (List.cons_ne_nil _ _))
  | @other s' code hs' _ ih =>
      cases front with
      | nil =>
          obtain ⟨rfl, -⟩ := List.cons.inj hcode
          exact absurd haddress hs'
      | cons t front =>
          obtain ⟨rfl, htail⟩ := List.cons.inj hcode
          obtain ⟨before, slot, rfl, rfl, hP⟩ := ih htail
          exact ⟨s' :: before, slot, rfl, rfl, hP⟩
  | @data storage' slot code hP _ ih =>
      match front with
      | [] =>
          obtain ⟨rfl, -⟩ := List.cons.inj hcode
          exact absurd haddress (not_isDataAddress_push _)
      | [t] =>
          obtain ⟨rfl, htail⟩ := List.cons.inj hcode
          obtain ⟨rfl, -⟩ := List.cons.inj htail
          obtain rfl := Storage.opcode_inj (Opcode.mnemonic_inj (Option.some.inj hs))
          exact ⟨[], slot, rfl, rfl, hP⟩
      | t :: t' :: front =>
          obtain ⟨rfl, htail⟩ := List.cons.inj hcode
          obtain ⟨rfl, hrest⟩ := List.cons.inj htail
          obtain ⟨before, slot', rfl, rfl, hP'⟩ := ih hrest
          exact ⟨pushInt slot :: op storage'.opcode :: before, slot', rfl, rfl, hP'⟩

theorem quiet_offset (slots : UInt32) : Quiet (offset slots) := by
  unfold offset
  split <;> simp

theorem quiet_literal (v : Literal) : Quiet (literal v) := by
  cases v <;> simp [literal]

theorem quiet_frameAddress (slot : UInt32) : Quiet (frameAddress slot) := by
  unfold frameAddress
  cases hslot : Opcode.localAt? slot.toNat with
  | none => simp
  | some o =>
      have hmem := List.mem_of_getElem? hslot
      have hother : ¬ (o = .static ∨ o = .global) := by
        rintro (rfl | rfl)
        · exact absurd hmem (by decide)
        · exact absurd hmem (by decide)
      simpa using hother

theorem accesses_loadFrom (h : Accesses P code) (slots : Nat) :
    Accesses P (loadFrom slots code) := by
  unfold loadFrom
  split
  · exact h.append (Quiet.accesses (by simp))
  · exact ((Quiet.accesses (by simp)).append h).append (Quiet.accesses (by simp))

end

mutual

theorem quiet_initInPlace : (ty : Ty) → Quiet (initInPlace ty)
  | .array item length => by
      rw [initInPlace]
      split
      · have hitem : Quiet (List.replicate length.toNat
            (initInPlace item ++ offset (UInt32.ofNat item.slots))).flatten := by
          intro s hs
          obtain ⟨code, hcode, hs⟩ := List.mem_flatten.mp hs
          rw [List.eq_of_mem_replicate hcode] at hs
          exact quiet_append.mpr ⟨quiet_initInPlace item, quiet_offset _⟩ s hs
        simp [hitem, quiet_offset]
      · simp
  | .struct _ fields => by
      rw [initInPlace]
      exact quiet_initFields 0 fields
  | .void | .int | .float | .bool | .string | .null | .any | .auto | .vector | .handle _
  | .textLabel _ | .enum _ _ | .function _ _ | .typeName _ => quiet_nil

theorem quiet_initFields (start : Nat) : (fields : Fields) → Quiet (initFields start fields)
  | .nil => by
      rw [initFields]
      exact quiet_nil
  | .cons _ ty init rest => by
      have hrest := quiet_initFields (start + ty.size) rest
      unfold initFields
      cases init with
      | some v => simp [hrest, quiet_offset, quiet_literal]
      | none =>
          dsimp only
          split
          · simp [hrest, quiet_offset, quiet_initInPlace ty]
          · simp [hrest]

end

/-! ## Expressions -/

/-- The expression names a variable, for which the layout has this slot. -/
inductive NamesSlot (layout : DataLayout) : TypedExpr → Storage → Nat → Prop where
  | mk {storage : Storage} {ty : Ty} {span : Span} {name : String} {slot : Nat} :
      storage.slot layout name = .ok slot →
        NamesSlot layout (storage.expr ty span name) storage slot

section
variable {P : Storage → Nat → Prop} {layout : DataLayout}

/-- The code for the address of a variable. -/
theorem address_expr (storage : Storage) {ty : Ty} {span : Span} {name : String}
    {code : List Statement} :
    address layout (storage.expr ty span name) = .ok code ↔
      ∃ slot, storage.slot layout name = .ok slot ∧ code = [pushInt slot, op storage.opcode] := by
  have haddress : address layout (storage.expr ty span name) =
      storage.slot layout name >>= fun slot => .ok [pushInt slot, op storage.opcode] := by
    cases storage with
    | static => exact address.eq_2 layout ty span name
    | global => exact address.eq_3 layout ty span name
  rw [haddress, bind_eq_ok]
  simp only [Except.ok.injEq, eq_comm]

theorem accesses_variable (storage : Storage) {ty : Ty} {span : Span} {name : String} {slot : Nat}
    (hP : ∀ y : TypedExpr, y.Part (storage.expr ty span name) → ∀ s v, NamesSlot layout y s v →
      P s v)
    (h : storage.slot layout name = .ok slot) : Accesses P [pushInt slot, op storage.opcode] :=
  .data (hP _ .self storage slot (.mk h)) .nil

theorem quiet_unaryOp (o : UnaryOp) (ty : Ty) : Quiet [op (unaryOpcode o ty)] := by
  have hother : ¬ (unaryOpcode o ty = .static ∨ unaryOpcode o ty = .global) := by
    unfold unaryOpcode
    split <;> decide
  simpa using hother

theorem quiet_binaryOp {o : BinaryOp} {ty : Ty} {s : Statement} (h : binaryOp o ty = .ok s) :
    Quiet [s] := by
  have hopcode : ∀ opcode, binaryOpcode? o ty = some opcode →
      ¬ (opcode = .static ∨ opcode = .global) := by
    intro opcode hsome
    unfold binaryOpcode? at hsome
    split at hsome <;> cases hsome <;> decide
  unfold binaryOp at h
  split at h
  · next opcode hsome =>
      obtain rfl := Except.ok.inj h
      simpa using hopcode opcode hsome
  · cases h

mutual

theorem AddressCode.accesses : {x : TypedExpr} → {code : List Statement} →
    AddressCode layout x code →
    (∀ y : TypedExpr, y.Part x → ∀ s v, NamesSlot layout y s v → P s v) → Accesses P code
  | _, _, .frame, _ => (quiet_frameAddress _).accesses
  | _, _, .static hslot, hP => accesses_variable .static hP hslot
  | _, _, .global hslot, hP => accesses_variable .global hP hslot
  | _, _, .field hx, hP =>
      (hx.accesses fun y hy => hP y (.ofField hy)).append (quiet_offset _).accesses
  | _, _, .index hi hx, hP =>
      ((hi.accesses fun y hy => hP y (.position hy)).append
        (hx.accesses fun y hy => hP y (.ofElement hy))).append (Quiet.accesses (by simp))

theorem ValueCode.accesses : {x : TypedExpr} → {code : List Statement} →
    ValueCode layout x code →
    (∀ y : TypedExpr, y.Part x → ∀ s v, NamesSlot layout y s v → P s v) → Accesses P code
  | _, _, .const, _ => (quiet_literal _).accesses
  | _, _, .string, _ => Quiet.accesses (by simp)
  | _, _, .load hx, hP => accesses_loadFrom (hx.accesses hP) _
  | _, _, .intToFloat hx, hP =>
      (hx.accesses fun y hy => hP y (.converted hy)).append (Quiet.accesses (by simp))
  | _, _, .floatToVector hx, hP =>
      (hx.accesses fun y hy => hP y (.converted hy)).append (Quiet.accesses (by simp))
  | _, _, .labelToString hx, hP => hx.accesses fun y hy => hP y (.converted hy)
  | _, _, .unary hx, hP =>
      (hx.accesses fun y hy => hP y (.operand hy)).append (quiet_unaryOp _ _).accesses
  | _, _, .binary hx hy hs, hP =>
      ((hx.accesses fun w hw => hP w (.left hw)).append
        (hy.accesses fun w hw => hP w (.right hw))).append (quiet_binaryOp hs).accesses
  | _, _, .call hargs, hP =>
      (hargs.accesses fun x hx y hy => hP y (.callArg hx hy)).append (Quiet.accesses (by simp))
  | _, _, .native hargs, hP =>
      (hargs.accesses fun x hx y hy => hP y (.nativeArg hx hy)).append (Quiet.accesses (by simp))
  | _, _, .vector hx hy hz, hP =>
      ((hx.accesses fun w hw => hP w (.first hw)).append
        (hy.accesses fun w hw => hP w (.second hw))).append
        (hz.accesses fun w hw => hP w (.third hw))

theorem ValuesCode.accesses : {xs : List TypedExpr} → {code : List Statement} →
    ValuesCode layout xs code →
    (∀ x ∈ xs, ∀ y : TypedExpr, y.Part x → ∀ s v, NamesSlot layout y s v → P s v) →
    Accesses P code
  | _, _, .nil, _ => .nil
  | _, _, .cons hx hrest, hP =>
      (hx.accesses (hP _ List.mem_cons_self)).append
        (hrest.accesses fun x hx => hP x (List.mem_cons_of_mem _ hx))

end

theorem address_accesses (x : TypedExpr) {code : List Statement}
    (hP : ∀ y : TypedExpr, y.Part x → ∀ s v, NamesSlot layout y s v → P s v)
    (h : address layout x = .ok code) : Accesses P code :=
  (addressCode_of_ok x h).accesses hP

theorem value_accesses (x : TypedExpr) {code : List Statement}
    (hP : ∀ y : TypedExpr, y.Part x → ∀ s v, NamesSlot layout y s v → P s v)
    (h : value layout x = .ok code) : Accesses P code :=
  (valueCode_of_ok x h).accesses hP

/-! ## Statements -/

section
variable {x y : TypedExpr} {code : List Statement}

theorem load_accesses (hP : ∀ w : TypedExpr, w.Part x → ∀ s v, NamesSlot layout w s v → P s v)
    (h : load layout x = .ok code) : Accesses P code := by
  obtain ⟨place, hplace, heq⟩ := bind_eq_ok.mp h
  cases heq
  exact accesses_loadFrom (address_accesses x hP hplace) _

theorem storePlain_accesses (hx : ∀ w : TypedExpr, w.Part x → ∀ s v, NamesSlot layout w s v → P s v)
    (hy : ∀ w : TypedExpr, w.Part y → ∀ s v, NamesSlot layout w s v → P s v)
    (h : storePlain layout x y = .ok code) : Accesses P code := by
  obtain ⟨source, hsource, h⟩ := bind_eq_ok.mp h
  obtain ⟨place, hplace, h⟩ := bind_eq_ok.mp h
  have hsource := value_accesses y hy hsource
  have hplace := address_accesses x hx hplace
  split at h
  · cases h
    exact (hsource.append hplace).append (Quiet.accesses (by simp))
  · cases h
    exact ((hsource.append (Quiet.accesses (by simp))).append hplace).append
      (Quiet.accesses (by simp))

theorem store_accesses (hx : ∀ w : TypedExpr, w.Part x → ∀ s v, NamesSlot layout w s v → P s v)
    (hy : ∀ w : TypedExpr, w.Part y → ∀ s v, NamesSlot layout w s v → P s v)
    (h : store layout x y = .ok code) : Accesses P code := by
  unfold store at h
  split at h
  · obtain ⟨source, hsource, h⟩ := bind_eq_ok.mp h
    obtain ⟨place, hplace, h⟩ := bind_eq_ok.mp h
    cases h
    exact ((value_accesses y hy hsource).append (address_accesses x hx hplace)).append
      (Quiet.accesses (by simp))
  · split at h
    · exact storePlain_accesses hx hy h
    · obtain ⟨source, hsource, h⟩ := bind_eq_ok.mp h
      obtain ⟨place, hplace, h⟩ := bind_eq_ok.mp h
      cases h
      exact (((value_accesses y hy hsource).append (Quiet.accesses (by simp))).append
        (address_accesses x hx hplace)).append (Quiet.accesses (by simp))
  · exact storePlain_accesses hx hy h

end

mutual

theorem lowered_accesses {info : BodyInfo} :
    (s : TypedStmt) → {n n' : Nat} → {code : List Statement} →
      (∀ x : TypedExpr, s.Uses x → ∀ t v, NamesSlot info.layout x t v → P t v) →
      Lowered info s n code n' → Accesses P code
  | .assign x y, _, _, _, hP, .assign hcode =>
      store_accesses (fun w hw => hP w (.target hw)) (fun w hw => hP w (.source hw)) hcode
  | .defaultInit x, _, _, _, hP, .defaultInit hplace =>
      ((address_accesses x (fun w hw => hP w (.defaultInit hw)) hplace).append
        (quiet_initInPlace x.ty).accesses).append (Quiet.accesses (by simp))
  | .cond c thenBody [], _, _, _, hP, .ifThen htest hbody =>
      (((value_accesses c (fun w hw => hP w (.condition hw)) htest).append
        (Quiet.accesses (by simp))).append
        (block_accesses thenBody (fun s hs w hw => hP w (.thenBody hs hw)) hbody)).append
        (Quiet.accesses (by simp))
  | .cond c thenBody elseBody, _, _, _, hP, .ifElse _ htest hfirst hsecond =>
      (((((value_accesses c (fun w hw => hP w (.condition hw)) htest).append
        (Quiet.accesses (by simp))).append
        (block_accesses thenBody (fun s hs w hw => hP w (.thenBody hs hw)) hfirst)).append
        (Quiet.accesses (by simp))).append
        (block_accesses elseBody (fun s hs w hw => hP w (.elseBody hs hw)) hsecond)).append
        (Quiet.accesses (by simp))
  | .whileLoop c body, _, _, _, hP, .whileLoop htest hcode =>
      ((((Quiet.accesses (by simp)).append
        (value_accesses c (fun w hw => hP w (.loopCondition hw)) htest)).append
        (Quiet.accesses (by simp))).append
        (block_accesses body (fun s hs w hw => hP w (.loopBody hs hw)) hcode)).append
        (Quiet.accesses (by simp))
  | .repeatLoop limit counter body, _, _, _, hP, .repeatLoop hplace hcurrent hbound hcode => by
      have hcounter (w : TypedExpr) (hw : w.Part counter) := hP w (.counter hw)
      have hplace := address_accesses counter hcounter hplace
      have hcurrent := load_accesses hcounter hcurrent
      have hbound := value_accesses limit (fun w hw => hP w (.limit hw)) hbound
      have hbody := block_accesses body (fun s hs w hw => hP w (.repeated hs hw)) hcode
      have hquiet {code : List Statement} (h : Quiet code) : Accesses P code := h.accesses
      exact (((((((((hquiet (by simp)).append hplace).append (hquiet (by simp))).append
        hcurrent).append hbound).append (hquiet (by simp))).append hbody).append hcurrent).append
        (hquiet (by simp))).append hplace |>.append (hquiet (by simp))
  | .switch x cases none, _, _, _, hP, .switch hselector hbodies =>
      (((value_accesses x (fun w hw => hP w (.selector hw)) hselector).append
        (Quiet.accesses (by simp))).append
        (cases_accesses cases (fun c hc s hs w hw => hP w (.case hc hs hw)) hbodies)).append
        (Quiet.accesses (by simp))
  | .switch x cases (some default), _, _, _, hP, .switchDefault hselector hbodies hcode =>
      (((((value_accesses x (fun w hw => hP w (.selector hw)) hselector).append
        (Quiet.accesses (by simp))).append
        (cases_accesses cases (fun c hc s hs w hw => hP w (.case hc hs hw)) hbodies)).append
        (Quiet.accesses (by simp))).append
        (block_accesses default (fun s hs w hw => hP w (.default hs hw)) hcode)).append
        (Quiet.accesses (by simp))
  | .ret none, _, _, _, _, .leave => Quiet.accesses (by simp)
  | .ret (some x), _, _, _, hP, .ret hcode =>
      (value_accesses x (fun w hw => hP w (.result hw)) hcode).append (Quiet.accesses (by simp))
  | .expr x, _, _, _, hP, .expr hcode => by
      have hdrops : Quiet (List.replicate x.ty.slots (op .drop)) := by
        intro s hs
        rw [(List.mem_replicate.mp hs).2, isDataAddress_op]
        decide
      exact (value_accesses x (fun w hw => hP w (.expr hw)) hcode).append hdrops.accesses
  | .label name, _, _, _, _, .label => Quiet.accesses (by simp)
  | .goto name, _, _, _, _, .goto => Quiet.accesses (by simp)
  | .block body, _, _, _, hP, .block hbody =>
      block_accesses body (fun s hs w hw => hP w (.block hs hw)) hbody

theorem block_accesses {info : BodyInfo} :
    (body : List TypedStmt) → {n n' : Nat} → {code : List Statement} →
      (∀ s ∈ body, ∀ x : TypedExpr, s.Uses x → ∀ t v, NamesSlot info.layout x t v → P t v) →
      LoweredBlock info body n code n' → Accesses P code
  | [], _, _, _, _, .nil => .nil
  | s :: rest, _, _, _, hP, .cons hfirst hmore => by
      rw [List.forall_mem_cons] at hP
      exact (lowered_accesses s hP.1 hfirst).append (block_accesses rest hP.2 hmore)

theorem cases_accesses {info : BodyInfo} {done : String} :
    (cases : List TypedCase) → {i n n' : Nat} → {code : List Statement} →
      (∀ c ∈ cases, ∀ s ∈ c.body, ∀ x : TypedExpr, s.Uses x → ∀ t v, NamesSlot info.layout x t v →
        P t v) →
      LoweredCases info done i cases n code n' → Accesses P code
  | [], _, _, _, _, _, .nil => .nil
  | ⟨v, body⟩ :: rest, _, _, _, _, hP, .cons hfirst hmore => by
      rw [List.forall_mem_cons] at hP
      exact (((Quiet.accesses (by simp)).append (block_accesses body hP.1 hfirst)).append
        (Quiet.accesses (by simp))).append (cases_accesses rest hP.2 hmore)

end

end

end Lowering
end GameScript
