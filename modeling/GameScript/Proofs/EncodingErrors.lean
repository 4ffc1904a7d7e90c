import GameScript.Proofs.AssemblyLines

/-!
# Why an instruction is refused

The encoder refuses an instruction for one of two reasons: a number does not fit the field that it
is written into, or the operands are not the ones that the mnemonic takes. An instruction with
operands that fit its layout can therefore fail for its size only, and no instruction at all is
refused for a label. What is encoded refers to the labels among its operands and to no others.
-/
namespace GameScript

namespace EncodingError

def isTooLarge : EncodingError → Bool
  | operandOutOfRange _ _ _ | jumpOutOfRange _ _ => true
  | _ => false

/-- Whether an error says that an instruction is not written as its mnemonic asks. -/
def isMalformed : EncodingError → Bool
  | unknownMnemonic _ | operandCount _ _ _ | operandType _ _ _ => true
  | _ => false

def isDuplicateLabel : EncodingError → Bool
  | duplicateLabel _ => true
  | _ => false

end EncodingError

/-- A step that gives a result with `P`, unless something does not fit its field. -/
abbrev UnlessTooLarge {α : Type} (x : Except EncodingError α) (P : α → Prop) : Prop :=
  Ends (fun e : EncodingError => e.isTooLarge = true) x P

/-! ## Labels that pieces refer to -/

def RefersTo (known : String → Prop) (pieces : List Piece) : Prop :=
  ∀ key name, Piece.address key name ∈ pieces → known key

section
variable {known : String → Prop}

theorem refersTo_nil : RefersTo known [] := fun _ _ h => absurd h List.not_mem_nil

theorem RefersTo.cons_bytes {pieces : List Piece} (h : RefersTo known pieces) (bs : Bytes) :
    RefersTo known (.bytes bs :: pieces) := by
  intro key name hmem
  cases hmem with
  | tail _ hmem => exact h key name hmem

theorem RefersTo.cons_address {pieces : List Piece} (h : RefersTo known pieces) {key : String}
    (hkey : known key) (name : String) : RefersTo known (.address key name :: pieces) := by
  intro key' name' hmem
  cases hmem with
  | head => exact hkey
  | tail _ hmem => exact h key' name' hmem

theorem refersTo_bytes (bs : Bytes) : RefersTo known [.bytes bs] := refersTo_nil.cons_bytes bs

end

/-! ## Operands -/

namespace OperandLayout

/-- The operands that an instruction of a layout is written with. -/
def Takes : OperandLayout → List Operand → Prop
  | none, operands => operands = []
  | u8, operands | u16, operands | u32, operands => ∃ v, operands = [.int v]
  | f32, operands => (∃ v, operands = [.int v]) ∨ ∃ v, operands = [.float v]
  | label, operands | function, operands => ∃ name, operands = [.ident name]
  | native, operands =>
      ∃ a b, (∃ name, operands = [.int a, .int b, .ident name]) ∨
        ∃ v, operands = [.int a, .int b, .int v]
  | enter, operands =>
      ∃ a b, operands = [.int a, .int b] ∨ (∃ name, operands = [.int a, .int b, .ident name]) ∨
        ∃ name, operands = [.int a, .int b, .text name]
  | leave, operands => ∃ a b, operands = [.int a, .int b]
  | switch, operands => ∀ x ∈ operands, ∃ v label, x = .case v label
  | string, operands => ∃ s, operands = [.text s]

def reference? (key : String → String) : OperandLayout → Operand → Option String
  | label, .ident name => some (key name)
  | function, .ident name => some (functionKey name)
  | switch, .case _ name => some (key name)
  | _, _ => Option.none

end OperandLayout

namespace Encode

/-- What is refused does not fit, or is not what the mnemonic takes. -/
def Refusal (takes : Prop) (e : EncodingError) : Prop :=
  e.isTooLarge = true ∨ e.isMalformed = true ∧ ¬ takes

section
variable {takes : Prop} {mnemonic : String} {operands : List Operand}

theorem Refusal.mono {takes' : Prop} {e : EncodingError} (h : Refusal takes e)
    (hmono : takes' → takes) :
    Refusal takes' e :=
  h.imp_right fun hmalformed => ⟨hmalformed.1, fun htakes => hmalformed.2 (hmono htakes)⟩

theorem Refusal.isTooLarge {e : EncodingError} (h : Refusal takes e) (htakes : takes) :
    e.isTooLarge = true :=
  h.resolve_right fun hmalformed => hmalformed.2 htakes

theorem Refusal.not_isDuplicateLabel {e : EncodingError} (h : Refusal takes e) :
    e.isDuplicateLabel = false := by
  cases e with
  | duplicateLabel => rcases h with hlarge | ⟨hmalformed, -⟩ <;> contradiction
  | _ => rfl

theorem byteOf_unlessTooLarge (mnemonic : String) (v : Int) :
    UnlessTooLarge (byteOf mnemonic v) fun _ => True := .ite rfl

theorem halfOf_unlessTooLarge (mnemonic : String) (v : Int) :
    UnlessTooLarge (halfOf mnemonic v) fun _ => True := .ite rfl

theorem wordOf_unlessTooLarge (mnemonic : String) (v : Int) :
    UnlessTooLarge (wordOf mnemonic v) fun _ => True := .ite rfl

theorem pushInt_unlessTooLarge (mnemonic : String) (v : Int) :
    UnlessTooLarge (pushInt mnemonic v) fun _ => True := by
  unfold pushInt
  split
  · exact .ok trivial
  · split
    · exact .ok trivial
    · exact (wordOf_unlessTooLarge mnemonic v).map fun _ h => h

theorem string_unlessTooLarge (mnemonic s : String) :
    UnlessTooLarge (string mnemonic s) fun _ => True := by
  unfold string
  dsimp only
  split
  · exact .ok trivial
  · have hlength : UnlessTooLarge ((halfOf mnemonic (utf8Bytes s ++ [0]).length).map (0 :: ·))
        fun _ => True := (halfOf_unlessTooLarge mnemonic _).map fun _ h => h
    exact hlength.bind fun _ _ => .ok trivial

theorem expectCount_ends {n : Nat} (h : takes → operands.length = n) :
    Ends (Refusal takes) (expectCount mnemonic operands n) fun _ => True := by
  unfold expectCount
  split
  · exact .ok trivial
  next hlength => exact .error (.inr ⟨rfl, fun htakes => hlength (h htakes)⟩)

/-- A number that is read from an operand and written into a field. -/
theorem number_ends {index : Nat} {field : Int → Except EncodingError Bytes}
    {f : Bytes → Except EncodingError (List Piece)} {P : List Piece → Prop}
    (h : takes → ∃ v, operands[index]? = some (.int v))
    (hfield : ∀ v, UnlessTooLarge (field v) fun _ => True)
    (hf : ∀ bs, Ends (Refusal takes) (f bs) P) :
    Ends (Refusal takes) (intOperand mnemonic operands index >>= fun v => field v >>= f) P := by
  have hread : Ends (Refusal takes) (intOperand mnemonic operands index) fun _ => True := by
    unfold intOperand
    split
    · exact .ok trivial
    next hother =>
      refine .error (.inr ⟨rfl, fun htakes => ?_⟩)
      obtain ⟨v, hv⟩ := h htakes
      exact hother v hv
  exact hread.bind fun v _ => ((hfield v).mono fun _ => .inl).bind fun bs _ => hf bs

theorem identOperand_ends {index : Nat}
    (h : takes → ∃ name, operands[index]? = some (.ident name)) :
    Ends (Refusal takes) (identOperand mnemonic operands index)
      fun name => .ident name ∈ operands := by
  unfold identOperand
  split
  next name hname => exact .ok (List.mem_of_getElem? hname)
  next hother =>
    refine .error (.inr ⟨rfl, fun htakes => ?_⟩)
    obtain ⟨name, hname⟩ := h htakes
    exact hother name hname

theorem floatOperand_ends :
    Ends (Refusal (OperandLayout.f32.Takes operands)) (floatOperand mnemonic operands) fun _ =>
      True := by
  unfold floatOperand
  split
  · exact .ok trivial
  · exact .ok trivial
  next hfloat hint =>
    refine .error (.inr ⟨rfl, ?_⟩)
    rintro (⟨v, rfl⟩ | ⟨v, rfl⟩)
    · exact hint v [] rfl
    · exact hfloat v [] rfl

theorem commandOperand_ends :
    Ends (Refusal (OperandLayout.native.Takes operands)) (commandOperand mnemonic operands) fun _ =>
      True := by
  unfold commandOperand
  split
  · exact .ok trivial
  · exact (wordOf_unlessTooLarge _ _).mono fun _ => .inl
  next hname hnumber =>
    refine .error (.inr ⟨rfl, ?_⟩)
    rintro ⟨a, b, ⟨name, rfl⟩ | ⟨v, rfl⟩⟩
    · exact hname _ _ name [] rfl
    · exact hnumber _ _ v [] rfl

theorem nameOperand_ends :
    Ends (Refusal (OperandLayout.enter.Takes operands)) (nameOperand mnemonic operands) fun _ =>
      True := by
  unfold nameOperand
  split
  · exact .ok trivial
  · exact .ok trivial
  next x y z rest htext hname =>
    refine .error (.inr ⟨rfl, ?_⟩)
    rintro ⟨a, b, h | ⟨name, h⟩ | ⟨name, h⟩⟩
    · cases h
    · cases h
      exact hname name rfl
    · cases h
      exact htext name rfl
  · exact .ok trivial

/-- The cases of a switch refer to their labels. -/
theorem cases_ends {known : String → Prop} {key : String → String}
    (hknown : ∀ v label, .case v label ∈ operands → known (key label)) (index : Nat) :
    Ends (Refusal (OperandLayout.switch.Takes operands)) (cases mnemonic key index operands)
      (RefersTo known) := by
  induction operands generalizing index with
  | nil => exact .ok refersTo_nil
  | cons x operands ih =>
      cases x with
      | case v label =>
          have hrest :=
            ih (fun v label hmem => hknown v label (List.mem_cons_of_mem _ hmem)) (index + 1)
          refine ((wordOf_unlessTooLarge mnemonic v).mono fun _ => .inl).bind fun word _ => ?_
          refine (hrest.mono fun e he => he.mono fun h => ?_).bind fun more hmore => .ok ?_
          · exact (List.forall_mem_cons.mp h).2
          · exact (hmore.cons_address (hknown v label List.mem_cons_self) label).cons_bytes word
      | _ =>
          refine .error (.inr ⟨rfl, fun h => ?_⟩)
          obtain ⟨v, label, hcase⟩ := h _ List.mem_cons_self
          cases hcase

end

/-! ## Instructions -/

section
variable {known : String → Prop} {key : String → String} {mnemonic : String}
  {operands : List Operand}

/-- One number in a field of its own. -/
theorem singleNumber_ends {field : Int → Except EncodingError Bytes}
    (hfield : ∀ v, UnlessTooLarge (field v) fun _ => True) (first : UInt8) :
    Ends (Refusal (∃ v, operands = [.int v]))
      (do expectCount mnemonic operands 1
          let v ← field (← intOperand mnemonic operands 0)
          return [.bytes (first :: v)]) (RefersTo known) := by
  refine (expectCount_ends ?_).bind fun _ _ => number_ends ?_ hfield fun _ => .ok (refersTo_bytes _)
  · rintro ⟨v, rfl⟩
    rfl
  · rintro ⟨v, rfl⟩
    exact ⟨v, rfl⟩

/-- One label, of the kind that `target` gives the key of. -/
theorem singleLabel_ends {target : String → String}
    (hknown : ∀ name, .ident name ∈ operands → known (target name)) (first : UInt8) :
    Ends (Refusal (∃ name, operands = [.ident name]))
      (do expectCount mnemonic operands 1
          let name ← identOperand mnemonic operands 0
          return [.bytes [first], .address (target name) name]) (RefersTo known) := by
  refine (expectCount_ends ?_).bind fun _ _ => (identOperand_ends ?_).bind fun name hname => ?_
  · rintro ⟨name, rfl⟩
    rfl
  · rintro ⟨name, rfl⟩
    exact ⟨name, rfl⟩
  · exact .ok ((refersTo_nil.cons_address (hknown name hname) name).cons_bytes _)

theorem named_ends {o : Opcode}
    (hknown : ∀ x ∈ operands, ∀ k ∈ o.layout.reference? key x, known k) :
    Ends (Refusal (o.layout.Takes operands)) (named key mnemonic o operands) (RefersTo known) := by
  have hbyte := byteOf_unlessTooLarge mnemonic
  unfold named
  cases hlayout : o.layout with
  | none =>
      refine (expectCount_ends ?_).bind fun _ _ => .ok (refersTo_bytes _)
      rintro rfl
      rfl
  | u8 => exact singleNumber_ends hbyte _
  | u16 => exact singleNumber_ends (halfOf_unlessTooLarge mnemonic) _
  | u32 => exact singleNumber_ends (wordOf_unlessTooLarge mnemonic) _
  | f32 =>
      refine (expectCount_ends ?_).bind fun _ _ => floatOperand_ends.bind fun _ _ =>
        .ok (refersTo_bytes _)
      rintro (⟨v, rfl⟩ | ⟨v, rfl⟩) <;> rfl
  | label =>
      rw [hlayout] at hknown
      exact singleLabel_ends (fun name hname => hknown _ hname _ rfl) _
  | function =>
      rw [hlayout] at hknown
      exact singleLabel_ends (fun name hname => hknown _ hname _ rfl) _
  | native =>
      refine (expectCount_ends ?_).bind fun _ _ => number_ends ?_ hbyte fun _ =>
          number_ends ?_ hbyte fun _ =>
        commandOperand_ends.bind fun _ _ => .ok (refersTo_bytes _)
      · rintro ⟨a, b, ⟨name, rfl⟩ | ⟨v, rfl⟩⟩ <;> rfl
      · rintro ⟨a, b, ⟨name, rfl⟩ | ⟨v, rfl⟩⟩ <;> exact ⟨a, rfl⟩
      · rintro ⟨a, b, ⟨name, rfl⟩ | ⟨v, rfl⟩⟩ <;> exact ⟨b, rfl⟩
  | enter =>
      dsimp only
      split
      next hcount =>
        refine .error (.inr ⟨rfl, ?_⟩)
        rintro ⟨a, b, rfl | ⟨name, rfl⟩ | ⟨name, rfl⟩⟩ <;> simp at hcount
      · refine number_ends ?_ hbyte fun _ =>
          number_ends ?_ (halfOf_unlessTooLarge mnemonic) fun _ =>
          nameOperand_ends.bind fun _ _ => .ok (refersTo_bytes _)
        · rintro ⟨a, b, rfl | ⟨name, rfl⟩ | ⟨name, rfl⟩⟩ <;> exact ⟨a, rfl⟩
        · rintro ⟨a, b, rfl | ⟨name, rfl⟩ | ⟨name, rfl⟩⟩ <;> exact ⟨b, rfl⟩
  | leave =>
      refine (expectCount_ends ?_).bind fun _ _ => number_ends ?_ hbyte fun _ =>
          number_ends ?_ hbyte fun _ =>
        .ok (refersTo_bytes _)
      · rintro ⟨a, b, rfl⟩
        rfl
      · rintro ⟨a, b, rfl⟩
        exact ⟨a, rfl⟩
      · rintro ⟨a, b, rfl⟩
        exact ⟨b, rfl⟩
  | switch =>
      rw [hlayout] at hknown
      refine ((hbyte operands.length).mono fun _ => .inl).bind fun count _ => ?_
      refine (cases_ends (fun v label hmem => ?_) 0).bind fun more hmore => .ok (hmore.cons_bytes _)
      exact hknown _ hmem _ rfl
  | string =>
      refine (expectCount_ends ?_).bind fun _ _ => ?_
      · rintro ⟨s, rfl⟩
        rfl
      · split
        next s rest =>
          exact ((string_unlessTooLarge mnemonic s).mono fun _ => .inl).bind fun _ _ =>
            .ok (refersTo_bytes _)
        next hother =>
          refine .error (.inr ⟨rfl, ?_⟩)
          rintro ⟨s, rfl⟩
          exact hother s [] rfl

/-- The shortest push takes a number, like the push of a float. -/
theorem push_ends (hm : sameName mnemonic Statement.pushMnemonic = true) :
    Ends (Refusal (OperandLayout.f32.Takes operands)) (instruction key mnemonic operands)
      (RefersTo known) := by
  unfold instruction
  rw [if_pos hm]
  refine (expectCount_ends ?_).bind fun _ _ => ?_
  · rintro (⟨v, rfl⟩ | ⟨v, rfl⟩) <;> rfl
  · split
    next v rest =>
      exact ((pushInt_unlessTooLarge mnemonic v).mono fun _ => .inl).bind fun bs _ =>
        .ok (refersTo_bytes bs)
    · exact .ok (refersTo_bytes _)
    next hint hfloat =>
      refine .error (.inr ⟨rfl, ?_⟩)
      rintro (⟨v, rfl⟩ | ⟨v, rfl⟩)
      · exact hint v [] rfl
      · exact hfloat v [] rfl

theorem instruction_op (key : String → String) (o : Opcode) (operands : List Operand) :
    instruction key o.mnemonic operands = named key o.mnemonic o operands := by
  unfold instruction
  rw [o.mnemonic_spec.1, o.mnemonic_spec.2]
  rfl

theorem instruction_notDuplicate (key : String → String) (mnemonic : String)
    (operands : List Operand) :
    Ends (fun e => e.isDuplicateLabel = false) (instruction key mnemonic operands)
      (RefersTo fun _ => True) := by
  have hrefused {takes : Prop} {x : Except EncodingError (List Piece)}
      (h : Ends (Refusal takes) x (RefersTo fun _ => True)) :
      Ends (fun e => e.isDuplicateLabel = false) x (RefersTo fun _ => True) :=
    h.mono fun _ he => he.not_isDuplicateLabel
  cases hm : sameName mnemonic Statement.pushMnemonic with
  | true => exact hrefused (push_ends hm)
  | false =>
      unfold instruction
      rw [if_neg (Bool.eq_false_iff.mp hm)]
      split
      · exact .error rfl
      · exact hrefused (named_ends fun _ _ _ _ => trivial)
      · have hcount : Ends (Refusal False) (expectCount mnemonic operands 0) fun _ => True :=
          expectCount_ends False.elim
        exact hrefused (hcount.bind fun _ _ => .ok (refersTo_bytes _))

end

end Encode
end GameScript
