import GameScript.Proofs.Occurrences
import GameScript.Proofs.StackMachine

/-!
# What the code of expressions leaves on the stack

The code of a well-typed expression leaves the slots of its type on the stack and nothing else, and
the code of an address leaves one slot. Storing a value takes its slots off again, and writing
defaults in place keeps the address that it works on. All of this needs to know what calls do. Their
parameters must be filled exactly, so none of them may be a text label. A call of a native carries
the sizes of its parameters and its result in 32 bits each, so it leaves the slots of its type only
if as much is lost of the one as of the other.
-/
namespace GameScript

/-- A call of a native changes the number of slots as its type says: of its arguments and of its
result, 32 bits each are carried, and what is above them must be the same. -/
def TypedExpr.KeepsCount : TypedExpr → Prop
  | .native ty _ _ args _ _ =>
    slotsOf (args.map TypedExpr.ty) / 0x100000000 = ty.slots / 0x100000000
  | _ => True

/-- Every call of a native in the expression does so. -/
def TypedExpr.CallsKeepCount (x : TypedExpr) : Prop := ∀ y : TypedExpr, y.Part x → y.KeepsCount

namespace Lowering

open Statement (op push pushInt)

/-- Calls of functions take the slots of their parameters and leave those of their result. No call
has a text label for a parameter. -/
structure CallsFit (fs : List FunctionDef) (Γ : TypingEnv) : Prop where
  function : ∀ name result params, Γ.function name result params →
    (∀ ty ∈ params, ty.isTextLabel = false) ∧
      Turns fs [op .call [.ident name]] (slotsOf params) ((result.map Ty.slots).getD 0)
  native : ∀ name result params, Γ.native name result params → ∀ ty ∈ params, ty.isTextLabel = false

theorem CallsFit.inside {fs : List FunctionDef} {Γ : TypingEnv} (h : CallsFit fs Γ)
    (args locals : List Variable) : CallsFit fs (Γ.inside args locals) :=
  ⟨h.function, h.native⟩

/-! ## Parts of expressions -/

section
variable {fs : List FunctionDef}

/-- An expression that comes after others leaves its slots above theirs. -/
theorem Turns.push {code code' : List Statement} {a b : Nat} (h : Turns fs code 0 a)
    (h' : Turns fs code' 0 b) : Turns fs (code ++ code') 0 (a + b) :=
  h.append (h'.frame a)

theorem offset_turns (slots : UInt32) : Turns fs (offset slots) 1 1 := by
  unfold offset
  split
  · exact .nil
  · exact ((turns_pushInt _).frame 1).append (turns_op rfl)

theorem literal_turns (v : Literal) : Turns fs (literal v) 0 1 := by
  cases v with
  | int v => exact turns_pushInt _
  | float v => exact turns_of_takes (Statement.action?_pushFloat v) takes_fixed
  | bool b => exact turns_pushInt _
  | text s => exact turns_op rfl
  | null => exact turns_op rfl

theorem frameAddress_turns (slot : UInt32) : Turns fs (frameAddress slot) 0 1 := by
  unfold frameAddress
  cases hslot : Opcode.localAt? slot.toNat with
  | some o =>
      have hmem := List.mem_of_getElem? hslot
      simp only [List.mem_cons, List.not_mem_nil, or_false] at hmem
      rcases hmem with rfl | rfl | rfl | rfl | rfl | rfl | rfl | rfl
      all_goals exact turns_op rfl
  | none => exact (turns_pushInt _).append (turns_op rfl)

/-- An address of data is made from the number of its slot. -/
theorem dataAddress_turns (slot : Nat) {o : Opcode} (ho : o.action? [] = some (.fixed 1 1)) :
    Turns fs [pushInt slot, op o] 0 1 :=
  (turns_pushInt _).append (turns_op ho)

theorem elementAddress_turns {index place : List Statement} (hindex : Turns fs index 0 1)
    (hplace : Turns fs place 0 1) (itemSlots : Nat) :
    Turns fs (index ++ place ++ [pushInt itemSlots, op .array]) 0 1 :=
  (Turns.push hindex hplace).append (((turns_pushInt _).frame 2).append (turns_op rfl))

theorem loadFrom_turns {place : List Statement} (h : Turns fs place 0 1) (n : Nat) :
    Turns fs (loadFrom n place) 0 n := by
  unfold loadFrom
  split
  · next hn =>
      rw [hn]
      exact h.append (turns_op rfl)
  · refine Turns.of_runs fun σ => runs_pushInt (Runs.append ((h.runs _).mono ?_))
    rintro τ ⟨made, hmade, rfl⟩
    obtain ⟨place, rfl⟩ := List.length_eq_one_iff.mp hmade
    exact runs_loadN n place σ

theorem unaryOpcode_turns {o : UnaryOp} {ty : Ty} (h : Typing.unaryDefined o ty = true) :
    Turns fs [op (unaryOpcode o ty)] ty.slots ty.slots := by
  unfold Typing.unaryDefined at h
  split at h
  all_goals first | exact turns_op rfl | cases h

/-- No result takes no slots. -/
theorem slots_getD_void (result : Option Ty) :
    (result.getD .void).slots = (result.map Ty.slots).getD 0 := by
  cases result with
  | none => rfl
  | some ty => rfl

/-- A call of a native goes by the low bits of its sizes. -/
theorem nativeCall_turns (name : String) (a b : Nat) :
    Turns fs [op .native [.int (UInt32.ofNat a).toNat, .int (UInt32.ofNat b).toNat, .ident name]]
      a (0x100000000 * (a / 0x100000000) + b % 0x100000000) := by
  rw [UInt32.toNat_ofNat', UInt32.toNat_ofNat']
  have hlow : Turns fs [op .native [.int (a % 0x100000000 : Nat), .int (b % 0x100000000 : Nat),
      .ident name]] (a % 0x100000000) (b % 0x100000000) :=
    turns_of_takes (Statement.action?_op _ _) takes_native
  have hframe := hlow.frame (0x100000000 * (a / 0x100000000))
  rwa [Nat.div_add_mod] at hframe

theorem slotsOf_arguments {Γ : TypingEnv} {args : List TypedExpr} {params : List Ty}
    (h : TypedExpr.Arguments Γ args params) (hlabels : ∀ ty ∈ params, ty.isTextLabel = false) :
    slotsOf (args.map TypedExpr.ty) = slotsOf params := by
  induction args generalizing params with
  | nil =>
      cases h
      rfl
  | cons x args ih =>
      cases h with
      | cons _ hadmits hargs =>
          rw [List.forall_mem_cons] at hlabels
          rw [List.map_cons, slotsOf, slotsOf, Ty.slots_eq_of_admits hadmits hlabels.1,
            ih hargs hlabels.2]

/-- Once conversions are made, operators stand on single slots, or do arithmetic on vectors. -/
theorem slots_of_binaryRule? {o : BinaryOp} {a b ty : Ty}
    (h : binaryRule? o a b = some { result := ty }) :
    (a ≠ .vector ∧ a.slots = 1 ∧ b.slots = 1 ∧ ty.slots = 1) ∨
      (a = .vector ∧ o.isArithmetic = true ∧ b = .vector ∧ ty = .vector) := by
  unfold binaryRule? at h
  split at h
  all_goals
    repeat' split at h
  all_goals cases h
  case h_8.isTrue hop => exact .inr ⟨rfl, (Bool.and_eq_true_iff.mp hop).1, rfl, rfl⟩
  all_goals
    refine .inl ⟨by rintro ⟨⟩, ?_⟩
    simp only [Ty.slots, Ty.size]
    exact ⟨rfl, rfl, rfl⟩

theorem action?_of_binaryOpcode? {o : BinaryOp} {a : Ty} {opcode : Opcode}
    (h : binaryOpcode? o a = some opcode) (ha : a ≠ .vector) :
    opcode.action? [] = some (.fixed 2 1) := by
  unfold binaryOpcode? at h
  split at h
  all_goals first | cases h; rfl | exact absurd rfl ha | cases h

theorem action?_of_binaryOpcode?_vector {o : BinaryOp} {opcode : Opcode}
    (h : binaryOpcode? o .vector = some opcode) (ho : o.isArithmetic = true) :
    opcode.action? [] = some (.fixed 6 3) := by
  cases o <;> cases h <;> first | rfl | cases ho

/-- An operator takes both operands and leaves its result. -/
theorem binaryOp_turns {o : BinaryOp} {a b ty : Ty} {s : Statement}
    (h : binaryRule? o a b = some { result := ty }) (hs : binaryOp o a = .ok s) :
    Turns fs [s] (a.slots + b.slots) ty.slots := by
  unfold binaryOp at hs
  cases hopcode : binaryOpcode? o a with
  | none =>
      rw [hopcode] at hs
      cases hs
  | some opcode =>
      rw [hopcode] at hs
      cases hs
      rcases slots_of_binaryRule? h with ⟨hvector, ha, hb, hty⟩ | ⟨rfl, harith, rfl, rfl⟩
      · rw [ha, hb, hty]
        exact turns_op (action?_of_binaryOpcode? hopcode hvector)
      · exact turns_op (action?_of_binaryOpcode?_vector hopcode harith)

end

/-- A constant fills one slot. -/
theorem slots_of_hasType {v : Literal} {ty : Ty} (h : v.HasType ty) : ty.slots = 1 := by
  cases v with
  | int v =>
      rcases h with rfl | ⟨name, members, rfl⟩
      all_goals
        rw [Ty.slots, Ty.size]
        rfl
  | text s => exact h.elim
  | float v =>
      obtain rfl : ty = .float := h
      rfl
  | bool b =>
      obtain rfl : ty = .bool := h
      rfl
  | null =>
      obtain rfl : ty = .null := h
      rfl

/-! ## Expressions -/

section
variable {fs : List FunctionDef} {Γ : TypingEnv} {args : List TypedExpr} {params : List Ty}
  {result : Option Ty} {name : String} {code : List Statement}

theorem call_turns (hcalls : CallsFit fs Γ) (hf : Γ.function name result params)
    (hargs : TypedExpr.Arguments Γ args params)
    (hcode : Turns fs code 0 (slotsOf (args.map TypedExpr.ty))) :
    Turns fs (code ++ [op .call [.ident name]]) 0 (result.getD .void).slots := by
  obtain ⟨hlabels, hcall⟩ := hcalls.function name result params hf
  rw [slotsOf_arguments hargs hlabels] at hcode
  rw [slots_getD_void]
  exact hcode.append hcall

theorem native_turns (hcalls : CallsFit fs Γ) (hf : Γ.native name result params)
    (hargs : TypedExpr.Arguments Γ args params)
    (hcount : slotsOf (args.map TypedExpr.ty) / 0x100000000 =
      (result.getD .void).slots / 0x100000000)
    (hcode : Turns fs code 0 (slotsOf (args.map TypedExpr.ty))) :
    Turns fs (code ++ [op .native [.int (UInt32.ofNat (slotsOf params)).toNat,
      .int (UInt32.ofNat ((result.map Ty.slots).getD 0)).toNat, .ident name]]) 0
      (result.getD .void).slots := by
  rw [slots_getD_void] at hcount ⊢
  rw [slotsOf_arguments hargs (hcalls.native name result params hf)] at hcode hcount
  have hcall := hcode.append
    (nativeCall_turns name (slotsOf params) ((result.map Ty.slots).getD 0))
  rwa [hcount, Nat.div_add_mod] at hcall

end

mutual

/-- An address takes one slot. -/
theorem AddressCode.turns {fs : List FunctionDef} {Γ : TypingEnv} {layout : DataLayout}
    (hcalls : CallsFit fs Γ) : {x : TypedExpr} → {code : List Statement} →
    AddressCode layout x code → x.WellTyped Γ → x.CallsKeepCount → Turns fs code 0 1
  | _, _, .frame, _, _ => frameAddress_turns _
  | _, _, .static _, _, _ => dataAddress_turns _ rfl
  | _, _, .global _, _, _ => dataAddress_turns _ rfl
  | _, _, .field hplace, hwell, hkeeps => by
      cases hwell with
      | field hx _ _ =>
          have haddress := hplace.turns hcalls hx fun y hy => hkeeps y (.ofField hy)
          exact haddress.append (offset_turns _)
  | _, _, .index hfirst hplace, hwell, hkeeps => by
      cases hwell with
      | index hx _ _ hi hint =>
          have hindex := hfirst.turns hcalls hi fun y hy => hkeeps y (.position hy)
          have haddress := hplace.turns hcalls hx fun y hy => hkeeps y (.ofElement hy)
          rw [hint] at hindex
          exact elementAddress_turns hindex haddress _

/-- A value takes the slots of its type. -/
theorem ValueCode.turns {fs : List FunctionDef} {Γ : TypingEnv} {layout : DataLayout}
    (hcalls : CallsFit fs Γ) : {x : TypedExpr} → {code : List Statement} →
    ValueCode layout x code → x.WellTyped Γ → x.CallsKeepCount → Turns fs code 0 x.ty.slots
  | _, _, .const, hwell, _ => by
      cases hwell with
      | const hv =>
          rw [TypedExpr.ty, slots_of_hasType hv]
          exact literal_turns _
  | _, _, .string, hwell, _ => by
      cases hwell
      rw [TypedExpr.ty]
      exact turns_op rfl
  | _, _, .load hplace, hx, hkeeps => loadFrom_turns (hplace.turns hcalls hx hkeeps) _
  | _, _, .intToFloat hcode, hwell, hkeeps => by
      cases hwell with
      | convert hx hint =>
          have hvalue := hcode.turns hcalls hx fun y hy => hkeeps y (.converted hy)
          rw [show _ = Ty.int from hint] at hvalue
          rw [TypedExpr.ty]
          exact hvalue.append (turns_op rfl)
  | _, _, .floatToVector hcode, hwell, hkeeps => by
      cases hwell with
      | convert hx hfloat =>
          have hvalue := hcode.turns hcalls hx fun y hy => hkeeps y (.converted hy)
          rw [show _ = Ty.float from hfloat] at hvalue
          rw [TypedExpr.ty]
          exact hvalue.append (turns_op rfl)
  | _, _, .labelToString hplace, hwell, hkeeps => by
      cases hwell with
      | convert hx _ =>
          rw [TypedExpr.ty]
          exact hplace.turns hcalls hx fun y hy => hkeeps y (.converted hy)
  | _, _, .unary hcode, hwell, hkeeps => by
      cases hwell with
      | unary hx hdefined =>
          have hvalue := hcode.turns hcalls hx fun y hy => hkeeps y (.operand hy)
          exact hvalue.append (unaryOpcode_turns hdefined)
  | _, _, .binary hleft hright hs, hwell, hkeeps => by
      cases hwell with
      | binary hx hy hrule =>
          have hleft := hleft.turns hcalls hx fun z hz => hkeeps z (.left hz)
          have hright := hright.turns hcalls hy fun z hz => hkeeps z (.right hz)
          exact (Turns.push hleft hright).append (binaryOp_turns hrule hs)
  | _, _, .call hcode, hwell, hkeeps => by
      cases hwell with
      | call hf hargs =>
          have hvalues := hcode.turns hcalls hargs fun _ hx y hy => hkeeps y (.callArg hx hy)
          exact call_turns hcalls hf hargs hvalues
  | _, _, .native hcode, hwell, hkeeps => by
      cases hwell with
      | native hf hargs =>
          have hvalues := hcode.turns hcalls hargs fun _ hx y hy => hkeeps y (.nativeArg hx hy)
          exact native_turns hcalls hf hargs (hkeeps _ .self) hvalues
  | _, _, .vector hcx hcy hcz, hwell, hkeeps => by
      cases hwell with
      | vector hx hxty hy hyty hz hzty =>
          have hvx := hcx.turns hcalls hx fun w hw => hkeeps w (.first hw)
          have hvy := hcy.turns hcalls hy fun w hw => hkeeps w (.second hw)
          have hvz := hcz.turns hcalls hz fun w hw => hkeeps w (.third hw)
          rw [hxty] at hvx
          rw [hyty] at hvy
          rw [hzty] at hvz
          rw [TypedExpr.ty]
          exact Turns.push (Turns.push hvx hvy) hvz

theorem ValuesCode.turns {fs : List FunctionDef} {Γ : TypingEnv} {layout : DataLayout}
    (hcalls : CallsFit fs Γ) : {args : List TypedExpr} → {code : List Statement} →
    ValuesCode layout args code → {params : List Ty} → TypedExpr.Arguments Γ args params →
    (∀ x ∈ args, x.CallsKeepCount) → Turns fs code 0 (slotsOf (args.map TypedExpr.ty))
  | _, _, .nil, _, _, _ => .nil
  | _, _, .cons hfirst hmore, _, htyped, hkeeps => by
      cases htyped with
      | cons hx _ hargs =>
          exact Turns.push (hfirst.turns hcalls hx (hkeeps _ List.mem_cons_self))
            (hmore.turns hcalls hargs fun y hy => hkeeps y (List.mem_cons_of_mem _ hy))

end

section
variable {fs : List FunctionDef} {Γ : TypingEnv} {layout : DataLayout} {code : List Statement}

theorem value_turns (hcalls : CallsFit fs Γ) (x : TypedExpr) (hx : x.WellTyped Γ)
    (hkeeps : x.CallsKeepCount) (h : value layout x = .ok code) : Turns fs code 0 x.ty.slots :=
  (valueCode_of_ok x h).turns hcalls hx hkeeps

theorem address_turns (hcalls : CallsFit fs Γ) (x : TypedExpr) (hx : x.WellTyped Γ)
    (hkeeps : x.CallsKeepCount) (h : address layout x = .ok code) : Turns fs code 0 1 :=
  (addressCode_of_ok x h).turns hcalls hx hkeeps

/-- Values that are pushed one after the other. -/
theorem values_turns {args : List TypedExpr}
    (h : ∀ x ∈ args, ∀ code, value layout x = .ok code → Turns fs code 0 x.ty.slots)
    (hcode : values layout args = .ok code) :
    Turns fs code 0 (slotsOf (args.map TypedExpr.ty)) := by
  induction args generalizing code with
  | nil =>
      rw [values] at hcode
      cases hcode
      exact .nil
  | cons x args ih =>
      rw [values] at hcode
      rw [List.forall_mem_cons] at h
      obtain ⟨first, hfirst, hcode⟩ := bind_eq_ok.mp hcode
      obtain ⟨more, hmore, heq⟩ := bind_eq_ok.mp hcode
      cases heq
      exact Turns.push (h.1 first hfirst) (ih h.2 hmore)

end

/-! ## Storing -/

section
variable {fs : List FunctionDef}

/-- Many slots are written with their number on the stack. -/
theorem storeCode_turns {source place : List Statement} {n : Nat} (hsource : Turns fs source 0 n)
    (hplace : Turns fs place 0 1) :
    Turns fs (source ++ [pushInt n] ++ place ++ [op .storeN]) 0 0 := by
  refine Turns.of_runs fun σ => ?_
  simp only [List.append_assoc, List.singleton_append]
  refine Runs.append ((hsource.runs σ).mono ?_)
  rintro _ ⟨made, hmade, rfl⟩
  refine runs_pushInt (Runs.append ((hplace.runs _).mono ?_))
  rintro _ ⟨top, htop, rfl⟩
  obtain ⟨p, rfl⟩ := List.length_eq_one_iff.mp htop
  exact (runs_storeN hmade p σ).mono fun τ hτ => ⟨[], rfl, hτ⟩

/-- A text label is copied with the slots of both on the stack. -/
theorem copyCode_turns {source place : List Statement} {n : Nat} (hsource : Turns fs source 0 n)
    (hplace : Turns fs place 0 1) (m : Nat) :
    Turns fs (source ++ [pushInt n, pushInt m] ++ place ++ [op .labelCopy]) 0 0 := by
  refine Turns.of_runs fun σ => ?_
  simp only [List.append_assoc, List.cons_append, List.nil_append]
  refine Runs.append ((hsource.runs σ).mono ?_)
  rintro _ ⟨made, hmade, rfl⟩
  refine runs_pushInt (runs_pushInt (Runs.append ((hplace.runs _).mono ?_)))
  rintro _ ⟨top, htop, rfl⟩
  obtain ⟨p, rfl⟩ := List.length_eq_one_iff.mp htop
  exact (runs_copyLabel hmade p m σ).mono fun τ hτ => ⟨[], rfl, hτ⟩

variable {Γ : TypingEnv} {layout : DataLayout} {x y : TypedExpr} {code : List Statement}

theorem load_turns (hcalls : CallsFit fs Γ) (hx : x.WellTyped Γ) (hxkeeps : x.CallsKeepCount)
    (h : load layout x = .ok code) : Turns fs code 0 x.ty.slots := by
  obtain ⟨place, hplace, heq⟩ := bind_eq_ok.mp h
  cases heq
  exact loadFrom_turns (address_turns hcalls x hx hxkeeps hplace) _

theorem storePlain_turns (hcalls : CallsFit fs Γ) (hx : x.WellTyped Γ) (hxkeeps : x.CallsKeepCount)
    (hy : y.WellTyped Γ) (hykeeps : y.CallsKeepCount) (hslots : y.ty.slots = x.ty.slots)
    (h : storePlain layout x y = .ok code) :
    Turns fs code 0 0 := by
  obtain ⟨source, hsource, h⟩ := bind_eq_ok.mp h
  obtain ⟨place, hplace, h⟩ := bind_eq_ok.mp h
  have hvalue := value_turns hcalls y hy hykeeps hsource
  have haddress := address_turns hcalls x hx hxkeeps hplace
  rw [hslots] at hvalue
  split at h
  · next hone =>
      cases h
      rw [hone] at hvalue
      exact (Turns.push hvalue haddress).append (turns_op rfl)
  · cases h
    exact storeCode_turns hvalue haddress

/-- A value that its place admits is taken off the stack, whichever way it is stored. -/
theorem store_turns (hcalls : CallsFit fs Γ) (hx : x.WellTyped Γ) (hxkeeps : x.CallsKeepCount)
    (hy : y.WellTyped Γ) (hykeeps : y.CallsKeepCount) (hadmits : x.ty.Admits y.ty)
    (h : store layout x y = .ok code) : Turns fs code 0 0 := by
  unfold store at h
  split at h
  · next n hlabel hstring =>
      obtain ⟨source, hsource, h⟩ := bind_eq_ok.mp h
      obtain ⟨place, hplace, heq⟩ := bind_eq_ok.mp h
      cases heq
      have hvalue := value_turns hcalls y hy hykeeps hsource
      rw [hstring] at hvalue
      exact (Turns.push hvalue (address_turns hcalls x hx hxkeeps hplace)).append (turns_op rfl)
  · next n m hlabel hsource =>
      split at h
      · next hlength =>
          rw [← hlength, ← hsource] at hlabel
          exact storePlain_turns hcalls hx hxkeeps hy hykeeps (by rw [hlabel]) h
      · obtain ⟨source, hsource, h⟩ := bind_eq_ok.mp h
        obtain ⟨place, hplace, heq⟩ := bind_eq_ok.mp h
        cases heq
        exact copyCode_turns (value_turns hcalls y hy hykeeps hsource)
          (address_turns hcalls x hx hxkeeps hplace) _
  · next hnotString hnotLabel =>
      refine storePlain_turns hcalls hx hxkeeps hy hykeeps (Ty.slots_eq_of_admits hadmits ?_) h
      cases hty : x.ty with
      | textLabel n =>
          rw [hty] at hadmits
          rcases Ty.cases_of_textLabel_accepts hadmits.1 with hy | ⟨m, hy⟩
          · exact absurd hy (hnotString n hty)
          · exact absurd hy (hnotLabel n m hty)
      | _ => rfl

end

/-! ## Defaults -/

/-- Code that works on an address and keeps it can be repeated. -/
theorem flatten_replicate_turns {fs : List FunctionDef} {code : List Statement} {a : Nat}
    (h : Turns fs code a a) (n : Nat) : Turns fs (List.replicate n code).flatten a a := by
  induction n with
  | zero => exact .nil
  | succ n ih => exact h.append ih

mutual

/-- Defaults are written below an address that stays on the stack. -/
theorem initInPlace_turns {fs : List FunctionDef} : (ty : Ty) → Turns fs (initInPlace ty) 1 1
  | .array item length => by
      rw [initInPlace]
      have hcount : Turns fs [pushInt length.toNat, op .storeRev] 1 1 :=
        ((turns_pushInt _).frame 1).append (turns_op rfl)
      refine hcount.append ?_
      split
      · have hdup : Turns fs [op .dup] 1 2 := turns_op rfl
        have hitem : Turns fs (initInPlace item ++ offset (UInt32.ofNat item.slots)) 1 1 :=
          (initInPlace_turns item).append (offset_turns _)
        exact ((hdup.append ((offset_turns 1).frame 1)).append
          ((flatten_replicate_turns hitem _).frame 1)).append
            ((turns_op rfl : Turns fs _ 1 0).frame 1)
      · exact .nil
  | .struct _ fields => by
      rw [initInPlace]
      exact initFields_turns 0 fields
  | .void | .int | .float | .bool | .string | .null | .any | .auto | .vector | .handle _
  | .textLabel _ | .enum _ _ | .function _ _ | .typeName _ => .nil

theorem initFields_turns {fs : List FunctionDef} (start : Nat) :
    (fields : Fields) → Turns fs (initFields start fields) 1 1
  | .nil => by
      rw [initFields]
      exact .nil
  | .cons _ ty init rest => by
      have hdup : Turns fs [op .dup] 1 2 := turns_op rfl
      have hmove : Turns fs ([op .dup] ++ offset (UInt32.ofNat (start / slotSize))) 1 2 :=
        hdup.append ((offset_turns _).frame 1)
      have hdrop : Turns fs [op .drop] 2 1 := (turns_op rfl : Turns fs _ 1 0).frame 1
      unfold initFields
      refine Turns.append ?_ (initFields_turns (start + ty.size) rest)
      cases init with
      | some v =>
          have hstore : Turns fs [op .storeRev] 3 2 := (turns_op rfl : Turns fs _ 2 1).frame 1
          exact (hmove.append ((literal_turns v).frame 2)).append (hstore.append hdrop)
      | none =>
          dsimp only
          split
          · exact (hmove.append ((initInPlace_turns ty).frame 1)).append hdrop
          · exact .nil

end

end Lowering
end GameScript
