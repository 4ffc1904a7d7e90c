import GameScript.Proofs.LabelTable

/-!
# Addresses in instructions

Jumps, switches and calls carry the addresses of what they refer to. Here it is said which operands
those are and at which offset of the instruction each address stands, and shown that the four bytes
there are the address that the label table gives. Which line that is depends on the meaning of the
operand and is not settled here.
-/
namespace GameScript

/-- Four bytes behind a front of known length are read as the number they were written for. -/
theorem addressAt_append {front : Bytes} {offset ip : Nat} (hfront : front.length = offset)
    (hip : ip < 0x100000000) (rest : Bytes) :
    addressAt (front ++ (leBytes 4 ip ++ rest)) offset = ip := by
  rw [addressAt, ← hfront, List.drop_left, List.take_left' (length_leBytes 4 ip)]
  exact leValue_leBytes_of_lt hip

/-- A label operand of a jump or a switch, and the offset of its address in the instruction: behind
the opcode of a jump, and behind the value of each case of a switch. -/
inductive JumpOperand (mnemonic : String) (operands : List Operand) : Nat → String → Prop where
  | jump {o : Opcode} {name : String} : Op.ofMnemonic? mnemonic = some (.named o) →
      o.isJump = true → operands = [.ident name] → JumpOperand mnemonic operands 1 name
  | case {i : Nat} {value : Int} {name : String} :
      Op.ofMnemonic? mnemonic = some (.named .switch) → operands[i]? = some (.case value name) →
      JumpOperand mnemonic operands (2 + 8 * i + 4) name

/-- The function that a call names. Its address stands behind the opcode. -/
def CallOperand (mnemonic : String) (operands : List Operand) (name : String) : Prop :=
  Op.ofMnemonic? mnemonic = some (.named .call) ∧ operands = [.ident name]

theorem Opcode.layout_of_isJump {o : Opcode} (h : o.isJump = true) : o.layout = .label := by
  cases o <;> first | rfl | cases h

theorem Opcode.ofMnemonic?_of_named {mnemonic : String} {o : Opcode}
    (h : Op.ofMnemonic? mnemonic = some (.named o)) : Opcode.ofMnemonic? mnemonic = some o := by
  have hpush {v : Int} : Op.push? v ≠ some (.named o) := by
    unfold Op.push?
    split
    · exact fun h => nomatch Option.some.inj h
    · exact fun h => nomatch h
  unfold Op.ofMnemonic? at h
  split at h
  · next o' ho =>
      obtain rfl := Op.named.inj (Option.some.inj h)
      exact ho
  · dsimp only at h
    split at h
    · split at h
      · obtain ⟨v, _, hv⟩ := Option.bind_eq_some_iff.mp h
        exact absurd hv hpush
      · obtain ⟨v, _, hv⟩ := Option.bind_eq_some_iff.mp h
        exact absurd hv hpush
    · cases h

/-- The mnemonic of an opcode never stands for the shortest push. -/
theorem Encode.instruction_of_named {mnemonic : String} {o : Opcode}
    (h : Op.ofMnemonic? mnemonic = some (.named o)) (key : String → String)
    (operands : List Operand) :
    Encode.instruction key mnemonic operands = Encode.named key mnemonic o operands := by
  have hsame : foldName o.mnemonic = foldName mnemonic := by
    have hfind := List.find?_some (Opcode.ofMnemonic?_of_named h)
    exact beq_iff_eq.mp hfind
  have hpush : sameName mnemonic Statement.pushMnemonic = false := by
    rw [sameName, ← hsame]
    exact o.mnemonic_spec.2
  unfold Encode.instruction
  rw [h, hpush]
  rfl

section
variable {address? : String → Option Nat} {key : String → String} {mnemonic : String}
  {operands : List Operand} {pieces : List Piece}

/-- The address of each case stands behind its value. The induction follows the cases in front of
the one in question, eight bytes each. -/
theorem Encode.cases_address {index i : Nat} {value : Int} {name : String}
    (h : Encode.cases mnemonic key index operands = .ok pieces)
    (hplaced : ∀ p ∈ pieces, p.Placed address?) (hcase : operands[i]? = some (.case value name)) :
    ∃ ip front rest, address? (key name) = some ip ∧ ip < 0x100000000 ∧
      front.length = 8 * i + 4 ∧
      filledAll (fun key => (address? key).getD 0) pieces = front ++ (leBytes 4 ip ++ rest) := by
  induction operands generalizing index i pieces with
  | nil => cases hcase
  | cons operand operands ih =>
      cases operand with
      | case v label =>
          simp only [Encode.cases, bind_eq_ok] at h
          obtain ⟨word, hword, more, hmore, h⟩ := h
          obtain rfl := Except.ok.inj h
          obtain ⟨n, _, _, rfl⟩ := Encode.wordOf_ok hword
          rw [List.forall_mem_cons, List.forall_mem_cons] at hplaced
          obtain ⟨_, ⟨target, htarget, hlt⟩, hplaced⟩ := hplaced
          cases i with
          | zero =>
              rw [List.getElem?_cons_zero, Option.some.injEq, Operand.case.injEq] at hcase
              obtain ⟨_, rfl⟩ := hcase
              refine ⟨target, leBytes 4 n, filledAll (fun key => (address? key).getD 0) more,
                htarget, hlt, length_leBytes 4 n, ?_⟩
              rw [filledAll_cons, filledAll_cons, Piece.filled, Piece.filled, htarget]
              rfl
          | succ i =>
              rw [List.getElem?_cons_succ] at hcase
              obtain ⟨ip, front, rest, hip, hbound, hlen, hbytes⟩ := ih hmore hplaced hcase
              refine ⟨ip, leBytes 4 n ++ (leBytes 4 target ++ front), rest, hip, hbound, ?_, ?_⟩
              · simp only [List.length_append, length_leBytes, hlen]
                omega
              · rw [filledAll_cons, filledAll_cons, hbytes, Piece.filled, Piece.filled, htarget]
                simp only [Option.getD_some, List.append_assoc]
      | int v => cases h
      | float x => cases h
      | text s => cases h
      | ident name => cases h

/-- The address of a label operand is the one that the label table has for its meaning. -/
theorem Encode.address_of_jumpOperand {offset : Nat} {name : String}
    (h : Encode.instruction key mnemonic operands = .ok pieces)
    (hplaced : ∀ p ∈ pieces, p.Placed address?)
    (hoperand : JumpOperand mnemonic operands offset name) (rest : Bytes) :
    address? (key name) = some (addressAt
      (filledAll (fun key => (address? key).getD 0) pieces ++ rest) offset) := by
  cases hoperand with
  | @jump o _ hop hjump hoperands =>
      rw [Encode.instruction_of_named hop, hoperands] at h
      simp only [Encode.named, o.layout_of_isJump hjump] at h
      obtain rfl := Except.ok.inj h
      rw [List.forall_mem_cons, List.forall_mem_singleton] at hplaced
      obtain ⟨_, ip, hip, hlt⟩ := hplaced
      have hread : addressAt ([o.toByte] ++ (leBytes 4 ip ++ rest)) 1 = ip :=
        addressAt_append rfl hlt rest
      simp only [filledAll_cons, filledAll_nil, Piece.filled, hip, Option.getD_some,
        List.append_nil, List.append_assoc, hread]
  | @case i value _ hop hcase =>
      rw [Encode.instruction_of_named hop] at h
      simp only [Encode.named, Opcode.layout, bind_eq_ok] at h
      obtain ⟨count, hcount, more, hmore, h⟩ := h
      obtain rfl := Except.ok.inj h
      obtain ⟨n, _, _, rfl⟩ := Encode.byteOf_ok hcount
      rw [List.forall_mem_cons] at hplaced
      obtain ⟨ip, front, after, hip, hlt, hlen, hbytes⟩ :=
        Encode.cases_address hmore hplaced.2 hcase
      have hfront : (Opcode.switch.toByte :: leBytes 1 n ++ front).length = 2 + 8 * i + 4 := by
        simp only [List.length_cons, List.length_append, length_leBytes, hlen]
        omega
      have hread := addressAt_append hfront hlt (after ++ rest)
      simp only [filledAll_cons, Piece.filled, hbytes, hip, List.append_assoc] at hread ⊢
      rw [hread]

/-- The address of a call is the one that the label table has for the function. -/
theorem Encode.address_of_callOperand {name : String}
    (h : Encode.instruction key mnemonic operands = .ok pieces)
    (hplaced : ∀ p ∈ pieces, p.Placed address?) (hoperand : CallOperand mnemonic operands name)
    (rest : Bytes) :
    address? (functionKey name) = some (addressAt
      (filledAll (fun key => (address? key).getD 0) pieces ++ rest) 1) := by
  obtain ⟨hop, rfl⟩ := hoperand
  rw [Encode.instruction_of_named hop] at h
  simp only [Encode.named, Opcode.layout] at h
  obtain rfl := Except.ok.inj h
  rw [List.forall_mem_cons, List.forall_mem_singleton] at hplaced
  obtain ⟨_, ip, hip, hlt⟩ := hplaced
  have hread : addressAt ([Opcode.call.toByte] ++ (leBytes 4 ip ++ rest)) 1 = ip :=
    addressAt_append rfl hlt rest
  simp only [filledAll_cons, filledAll_nil, Piece.filled, hip, Option.getD_some, List.append_nil,
    List.append_assoc, hread]

end

end GameScript
