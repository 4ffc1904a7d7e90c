import GameScript.Proofs.InstructionBytes
import GameScript.Proofs.Outcomes
import Mathlib.Data.List.Forall2

/-!
# One instruction, written and read

Whatever the encoder accepts is read back by the size rule and the operand decoder. What "read back"
means for operands is a relation stated here, without reference to the bytes: integers of eight and
sixteen bits come back as they were written, those of 32 bits modulo `2 ^ 32`, texts up to their
first U+0000, and labels as whatever the disassembly calls the address at which they stand.
-/
namespace GameScript

def SameWord (a b : Int) : Prop := a % 0x100000000 = b % 0x100000000

theorem sameWord_toSigned (w : Word) : SameWord w.toSigned w.toNat :=
  Int.bmod_emod (x := w.toNat) (m := 0x100000000)

/-- What a disassembly knows when it reads code: its names for addresses and for native commands.
The addresses of labels are those that assembly gave them. -/
structure Reading where
  labels : AddressLabels
  natives : NativeNames
  address? : String → Option Nat

namespace Reading

/-- A native command is read back as the name that is known for its hash, or as the hash. -/
def Command (r : Reading) (written read : Operand) : Prop :=
  ∃ hash : UInt32,
    (match written with
      | .ident name => (Identity.ofName name).value = hash
      | .int v => SameWord hash.toNat v
      | _ => False) ∧
    read = match r.natives.find? hash with
      | some name => .ident name
      | none => .int hash.toNat

/-- A case of a switch keeps its value modulo `2 ^ 32` and leads to the address of its label. -/
def Case (r : Reading) (key : String → String) (written read : Operand) : Prop :=
  ∃ value label value' ip, written = .case value label ∧ r.address? (key label) = some ip ∧
    read = .case value' ((r.labels.lookup ip).getD (toString ip)) ∧ SameWord value' value

/-- A reference is read back as the disassembly's operand for the address of its label. -/
def Target (r : Reading) (key : String → String) (written read : List Operand) : Prop :=
  ∃ name ip, written = [.ident name] ∧ r.address? (key name) = some ip ∧
    read = [targetOperand r.labels ip]

/-- How operands that are read back relate to those that were written, by their layout. `key` gives
the meaning of a label operand. -/
def Operands (r : Reading) (key : String → String) (layout : OperandLayout)
    (written read : List Operand) : Prop :=
  match layout with
  | .none => written = [] ∧ read = []
  | .u8 | .u16 => ∃ v, written = [.int v] ∧ read = [.int v]
  | .u32 => ∃ v n, written = [.int v] ∧ read = [.int n] ∧ SameWord n v
  | .f32 => ∃ x, read = [.float x] ∧
      (written = [.float x] ∨ ∃ v, written = [.int v] ∧ x = Binary32.ofInt v)
  | .label => r.Target key written read
  | .function => r.Target functionKey written read
  | .native => ∃ params results command command', written = [.int params, .int results, command] ∧
      read = [.int params, .int results, command'] ∧ r.Command command command'
  | .enter => ∃ params frame name, read = [.int params, .int frame] ++ nameOperands name ∧
      (written = [.int params, .int frame] ∧ name = none ∨
        ∃ s, name = some s ∧ (written = [.int params, .int frame, .text s] ∨
          written = [.int params, .int frame, .ident s]))
  | .leave => ∃ params results, written = [.int params, .int results] ∧
      read = [.int params, .int results]
  | .switch => List.Forall₂ (r.Case key) written read
  | .string => ∃ s, written = [.text s] ∧ read = [.text (beforeNulChar s)]

end Reading

/-- How the shortest push of a constant is read back: a small push or one of sixteen bits denotes
the constant itself, one of 32 bits the constant modulo `2 ^ 32`. -/
inductive PushReadsBack : List Operand → Op → List Operand → Prop
  | small (n : Fin 176) : PushReadsBack [.int ((n.val : Int) - 16)] (.push n) []
  | half (n : Nat) : n < 0x10000 → PushReadsBack [.int n] (.named .pushU16) [.int n]
  | word (v : Int) (n : Nat) : n < 0x100000000 → SameWord n v →
      PushReadsBack [.int v] (.named .pushU32) [.int n]
  | float (x : Binary32) : PushReadsBack [.float x] (.named .pushFloat) [.float x]

def Reading.Instruction (r : Reading) (key : String → String) (mnemonic : String)
    (written : List Operand) (op : Op) (read : List Operand) : Prop :=
  if sameName mnemonic Statement.pushMnemonic then PushReadsBack written op read
  else Op.ofMnemonic? mnemonic = some op ∧
    match op with
    | .named o => r.Operands key o.layout written read
    | _ => written = [] ∧ read = []

namespace Encode

theorem expectCount_ok {mnemonic : String} {operands : List Operand} {n : Nat} {u : Unit}
    (h : expectCount mnemonic operands n = .ok u) : operands.length = n := by
  unfold expectCount at h
  split at h
  · assumption
  · contradiction

theorem intOperand_ok {mnemonic : String} {operands : List Operand} {i : Nat} {v : Int}
    (h : intOperand mnemonic operands i = .ok v) : operands[i]? = some (.int v) := by
  unfold intOperand at h
  split at h
  · next heq =>
      obtain rfl := Except.ok.inj h
      exact heq
  · contradiction

theorem identOperand_ok {mnemonic : String} {operands : List Operand} {i : Nat} {name : String}
    (h : identOperand mnemonic operands i = .ok name) : operands[i]? = some (.ident name) := by
  unfold identOperand at h
  split at h
  · next heq =>
      obtain rfl := Except.ok.inj h
      exact heq
  · contradiction

theorem byteOf_ok {mnemonic : String} {v : Int} {bs : Bytes} (h : byteOf mnemonic v = .ok bs) :
    ∃ n : Nat, n < 0x100 ∧ v = n ∧ bs = leBytes 1 n := by
  unfold byteOf at h
  split at h
  · exact ⟨v.toNat, by omega, by omega, (Except.ok.inj h).symm⟩
  · contradiction

theorem halfOf_ok {mnemonic : String} {v : Int} {bs : Bytes} (h : halfOf mnemonic v = .ok bs) :
    ∃ n : Nat, n < 0x10000 ∧ v = n ∧ bs = leBytes 2 n := by
  unfold halfOf at h
  split at h
  · exact ⟨v.toNat, by omega, by omega, (Except.ok.inj h).symm⟩
  · contradiction

theorem wordOf_ok {mnemonic : String} {v : Int} {bs : Bytes} (h : wordOf mnemonic v = .ok bs) :
    ∃ n : Nat, n < 0x100000000 ∧ SameWord n v ∧ bs = leBytes 4 n := by
  unfold wordOf at h
  split at h
  · refine ⟨(v % 0x100000000).toNat, by omega, ?_, (Except.ok.inj h).symm⟩
    unfold SameWord
    omega
  · contradiction

end Encode

theorem singleton_of_get {α : Type} {xs : List α} {x : α} (hlen : xs.length = 1)
    (h : xs[0]? = some x) : xs = [x] := by
  obtain ⟨y, rfl⟩ := List.length_eq_one_iff.mp hlen
  rw [Option.some.inj h]

theorem pair_of_get {α : Type} {xs : List α} {x y : α} (hlen : xs.length = 2)
    (hx : xs[0]? = some x) (hy : xs[1]? = some y) : xs = [x, y] := by
  obtain ⟨a, b, rfl⟩ := List.length_eq_two.mp hlen
  rw [Option.some.inj hx, Option.some.inj hy]

section Encoder

variable {r : Reading} {key : String → String} {mnemonic : String} {o : Opcode}
  {operands : List Operand} {pieces : List Piece}

/-- Where the labels stand as far as the encoder's output is concerned. -/
def Reading.place (r : Reading) (key : String) : Nat := (r.address? key).getD 0

/-- The pieces of an instruction with a named opcode are read back as its operands. -/
def Reading.Named (r : Reading) (key : String → String) (o : Opcode) (operands : List Operand)
    (pieces : List Piece) : Prop :=
  ∃ read, IsInstruction r.labels r.natives (.named o) read (filledAll r.place pieces) ∧
    r.Operands key o.layout operands read

theorem named_none (hl : o.layout = .none) (h : Encode.named key mnemonic o operands = .ok pieces) :
    r.Named key o operands pieces := by
  simp only [Encode.named, hl, bind_eq_ok] at h
  obtain ⟨_, hcount, h⟩ := h
  obtain rfl := Except.ok.inj h
  refine ⟨[], ?_, ?_⟩
  · exact isInstruction_byte fun o' ho => by cases ho; exact hl
  · rw [hl]
    exact ⟨List.eq_nil_of_length_eq_zero (Encode.expectCount_ok hcount), rfl⟩

theorem named_u8 (hl : o.layout = .u8) (h : Encode.named key mnemonic o operands = .ok pieces) :
    r.Named key o operands pieces := by
  simp only [Encode.named, hl, bind_eq_ok] at h
  obtain ⟨_, hcount, v, hint, bs, hbyte, h⟩ := h
  obtain rfl := Except.ok.inj h
  obtain ⟨n, hn, rfl, rfl⟩ := Encode.byteOf_ok hbyte
  refine ⟨[.int n], ?_, ?_⟩
  · exact isInstruction_u8 hl hn
  · rw [hl]
    exact ⟨n, singleton_of_get (Encode.expectCount_ok hcount) (Encode.intOperand_ok hint), rfl⟩

theorem named_u16 (hl : o.layout = .u16) (h : Encode.named key mnemonic o operands = .ok pieces) :
    r.Named key o operands pieces := by
  simp only [Encode.named, hl, bind_eq_ok] at h
  obtain ⟨_, hcount, v, hint, bs, hhalf, h⟩ := h
  obtain rfl := Except.ok.inj h
  obtain ⟨n, hn, rfl, rfl⟩ := Encode.halfOf_ok hhalf
  refine ⟨[.int n], ?_, ?_⟩
  · exact isInstruction_u16 hl hn
  · rw [hl]
    exact ⟨n, singleton_of_get (Encode.expectCount_ok hcount) (Encode.intOperand_ok hint), rfl⟩

theorem named_u32 (hl : o.layout = .u32) (h : Encode.named key mnemonic o operands = .ok pieces) :
    r.Named key o operands pieces := by
  simp only [Encode.named, hl, bind_eq_ok] at h
  obtain ⟨_, hcount, v, hint, bs, hword, h⟩ := h
  obtain rfl := Except.ok.inj h
  obtain ⟨n, hn, hsame, rfl⟩ := Encode.wordOf_ok hword
  refine ⟨[.int n], ?_, ?_⟩
  · exact isInstruction_u32 hl hn
  · rw [hl]
    exact ⟨v, n, singleton_of_get (Encode.expectCount_ok hcount) (Encode.intOperand_ok hint), rfl,
      hsame⟩

theorem named_f32 (hl : o.layout = .f32) (h : Encode.named key mnemonic o operands = .ok pieces) :
    r.Named key o operands pieces := by
  simp only [Encode.named, hl, bind_eq_ok] at h
  obtain ⟨_, hcount, x, hfloat, h⟩ := h
  obtain rfl := Except.ok.inj h
  obtain ⟨operand, rfl⟩ := List.length_eq_one_iff.mp (Encode.expectCount_ok hcount)
  refine ⟨[.float x], ?_, ?_⟩
  · exact isInstruction_f32 hl x
  · rw [hl]
    refine ⟨x, rfl, ?_⟩
    cases operand with
    | float v =>
        obtain rfl := Except.ok.inj hfloat
        exact .inl rfl
    | int v => exact .inr ⟨v, rfl, (Except.ok.inj hfloat).symm⟩
    | text s => cases hfloat
    | ident name => cases hfloat
    | case v label => cases hfloat

/-- A reference to a placed label is read back as its address. -/
theorem target_readsBack {target : String → String} {name : String}
    (hl : o.layout = .label ∨ o.layout = .function)
    (hcount : operands.length = 1) (hident : operands[0]? = some (.ident name))
    (hplaced : (Piece.address (target name) name).Placed r.address?) :
    ∃ read, IsInstruction r.labels r.natives (.named o) read
        (filledAll r.place [.bytes [o.toByte], .address (target name) name]) ∧
      r.Target target operands read := by
  obtain ⟨ip, hip, hlt⟩ := hplaced
  have hplace : r.place (target name) = ip := by rw [Reading.place, hip]; rfl
  refine ⟨[targetOperand r.labels ip], ?_, ?_⟩
  · simp only [filledAll_cons, filledAll_nil, Piece.filled, hplace, List.append_nil,
      List.singleton_append]
    exact isInstruction_target hl hlt
  · exact ⟨name, ip, singleton_of_get hcount hident, hip, rfl⟩

theorem named_label (hl : o.layout = .label)
    (h : Encode.named key mnemonic o operands = .ok pieces)
    (hplaced : ∀ p ∈ pieces, p.Placed r.address?) : r.Named key o operands pieces := by
  simp only [Encode.named, hl, bind_eq_ok] at h
  obtain ⟨_, hcount, name, hident, h⟩ := h
  obtain rfl := Except.ok.inj h
  simp only [Reading.Named, hl, Reading.Operands]
  exact target_readsBack (.inl hl) (Encode.expectCount_ok hcount) (Encode.identOperand_ok hident)
    (hplaced _ (by simp))

theorem named_function (hl : o.layout = .function)
    (h : Encode.named key mnemonic o operands = .ok pieces)
    (hplaced : ∀ p ∈ pieces, p.Placed r.address?) : r.Named key o operands pieces := by
  simp only [Encode.named, hl, bind_eq_ok] at h
  obtain ⟨_, hcount, name, hident, h⟩ := h
  obtain rfl := Except.ok.inj h
  simp only [Reading.Named, hl, Reading.Operands]
  exact target_readsBack (.inr hl) (Encode.expectCount_ok hcount) (Encode.identOperand_ok hident)
    (hplaced _ (by simp))

theorem named_leave (hl : o.layout = .leave)
    (h : Encode.named key mnemonic o operands = .ok pieces) : r.Named key o operands pieces := by
  simp only [Encode.named, hl, bind_eq_ok] at h
  obtain ⟨_, hcount, p, hp, params, hparams, q, hq, results, hresults, h⟩ := h
  obtain rfl := Except.ok.inj h
  obtain ⟨n, hn, rfl, rfl⟩ := Encode.byteOf_ok hparams
  obtain ⟨m, hm, rfl, rfl⟩ := Encode.byteOf_ok hresults
  refine ⟨[.int n, .int m], ?_, ?_⟩
  · simp only [filledAll_cons, filledAll_nil, Piece.filled, List.append_nil, List.cons_append]
    exact isInstruction_leave hl hn hm
  · rw [hl]
    exact ⟨n, m, pair_of_get (Encode.expectCount_ok hcount) (Encode.intOperand_ok hp)
      (Encode.intOperand_ok hq), rfl⟩

theorem commandOperand_ok {a b c : Operand} {bs : Bytes}
    (h : Encode.commandOperand mnemonic [a, b, c] = .ok bs) :
    ∃ hash : UInt32, bs = Word.toBytes hash ∧ r.Command c (commandName r.natives hash) := by
  cases c with
  | ident name => exact ⟨_, (Except.ok.inj h).symm, _, rfl, rfl⟩
  | int v =>
      obtain ⟨n, hn, hsame, rfl⟩ := Encode.wordOf_ok h
      have hnat : (UInt32.ofNat n).toNat = n := UInt32.toNat_ofNat_of_lt' hn
      refine ⟨UInt32.ofNat n, by rw [Word.toBytes, hnat], UInt32.ofNat n, ?_, rfl⟩
      simpa only [hnat] using hsame
  | float x => cases h
  | text s => cases h
  | case v label => cases h

theorem named_native (hl : o.layout = .native)
    (h : Encode.named key mnemonic o operands = .ok pieces) : r.Named key o operands pieces := by
  simp only [Encode.named, hl, bind_eq_ok] at h
  obtain ⟨_, hcount, p, hp, params, hparams, q, hq, results, hresults, command, hcommand, h⟩ := h
  obtain rfl := Except.ok.inj h
  obtain ⟨n, hn, rfl, rfl⟩ := Encode.byteOf_ok hparams
  obtain ⟨m, hm, rfl, rfl⟩ := Encode.byteOf_ok hresults
  obtain ⟨a, b, c, rfl⟩ := List.length_eq_three.mp (Encode.expectCount_ok hcount)
  obtain rfl := Option.some.inj (Encode.intOperand_ok hp)
  obtain rfl := Option.some.inj (Encode.intOperand_ok hq)
  obtain ⟨hash, rfl, hread⟩ := commandOperand_ok (r := r) hcommand
  refine ⟨[.int n, .int m, commandName r.natives hash], ?_, ?_⟩
  · simp only [filledAll_cons, filledAll_nil, Piece.filled, List.append_nil, List.cons_append]
    exact isInstruction_native hl hn hm hash
  · rw [hl]
    exact ⟨n, m, c, _, rfl, rfl, hread⟩

theorem eq_enter_of_layout {o : Opcode} (h : o.layout = .enter) : o = .enter := by
  cases o <;> first | rfl | cases h

theorem eq_string_of_layout {o : Opcode} (h : o.layout = .string) : o = .string := by
  cases o <;> first | rfl | cases h

/-- A frame opening is read back with what is kept of its name. -/
theorem isInstruction_enter {labels : AddressLabels} {natives : NativeNames} {params frame : Nat}
    (hp : params < 0x100) (hf : frame < 0x10000) (name : Option String) :
    IsInstruction labels natives (.named .enter) ([.int params, .int frame] ++ nameOperands name)
      (Encode.enter (leBytes 1 params) (leBytes 2 frame) name) := by
  cases name with
  | none => exact isInstruction_enterPlain rfl hp hf
  | some s =>
      cases hs : utf8Bytes s with
      | nil =>
          have hread : Utf8.decodeLossy [] = "" := Utf8.decodeLossy_encode []
          have hkept : keptName s = none := by
            simp only [keptName, hs, List.take_nil, Bytes.beforeNul, List.takeWhile_nil, hread]
            rfl
          simp only [Encode.enter, Option.map_some, Option.getD_some, hs, nameOperands,
            Option.bind_some, hkept]
          exact isInstruction_enterPlain rfl hp hf
      | cons b bs =>
          have hne : utf8Bytes s ≠ [] := by rw [hs]; exact List.cons_ne_nil b bs
          simpa only [Encode.enter, Option.map_some, Option.getD_some, hs, List.cons_append,
            List.append_assoc] using isInstruction_enterNamed (o := .enter) rfl hp hf hne

theorem nameOperand_ok {a b : Operand} {rest : List Operand} {name : Option String}
    (hlen : (a :: b :: rest).length ≤ 3)
    (h : Encode.nameOperand mnemonic (a :: b :: rest) = .ok name) :
    rest = [] ∧ name = none ∨ ∃ s, name = some s ∧ (rest = [.text s] ∨ rest = [.ident s]) := by
  cases rest with
  | nil => exact .inl ⟨rfl, (Except.ok.inj h).symm⟩
  | cons c rest =>
      obtain rfl : rest = [] := by
        apply List.eq_nil_of_length_eq_zero
        simp only [List.length_cons] at hlen
        omega
      cases c with
      | text s => exact .inr ⟨s, (Except.ok.inj h).symm, .inl rfl⟩
      | ident s => exact .inr ⟨s, (Except.ok.inj h).symm, .inr rfl⟩
      | int v => cases h
      | float x => cases h
      | case v label => cases h

theorem named_enter (hl : o.layout = .enter)
    (h : Encode.named key mnemonic o operands = .ok pieces) : r.Named key o operands pieces := by
  obtain rfl := eq_enter_of_layout hl
  simp only [Encode.named, Opcode.layout] at h
  split at h
  · cases h
  · next hcount =>
      simp only [bind_eq_ok] at h
      obtain ⟨p, hp, params, hparams, f, hf, frame, hframe, name, hname, h⟩ := h
      obtain rfl := Except.ok.inj h
      obtain ⟨n, hn, rfl, rfl⟩ := Encode.byteOf_ok hparams
      obtain ⟨m, hm, rfl, rfl⟩ := Encode.halfOf_ok hframe
      -- At least two operands are left after the count is checked.
      obtain ⟨a, b, rest, rfl⟩ : ∃ a b rest, operands = a :: b :: rest := by
        match operands, hcount with
        | [], hcount => simp at hcount
        | [_], hcount => simp at hcount
        | a :: b :: rest, _ => exact ⟨a, b, rest, rfl⟩
      obtain rfl := Option.some.inj (Encode.intOperand_ok hp)
      obtain rfl := Option.some.inj (Encode.intOperand_ok hf)
      refine ⟨[.int n, .int m] ++ nameOperands name, ?_, n, m, name, rfl, ?_⟩
      · simp only [filledAll_cons, filledAll_nil, Piece.filled, List.append_nil]
        exact isInstruction_enter hn hm name
      · have hlen : (Operand.int n :: Operand.int m :: rest).length ≤ 3 := by omega
        rcases nameOperand_ok hlen hname with ⟨rfl, rfl⟩ | ⟨s, rfl, rfl | rfl⟩
        · exact .inl ⟨rfl, rfl⟩
        · exact .inr ⟨s, rfl, .inl rfl⟩
        · exact .inr ⟨s, rfl, .inr rfl⟩

/-- The pieces of cases are the bytes of their values and addresses. -/
theorem cases_ok {index : Nat} (h : Encode.cases mnemonic key index operands = .ok pieces)
    (hplaced : ∀ p ∈ pieces, p.Placed r.address?) :
    ∃ cs : List (Nat × Nat), cs.length = operands.length ∧
      (∀ c ∈ cs, c.1 < 0x100000000 ∧ c.2 < 0x100000000) ∧
      filledAll r.place pieces = caseBytes cs ∧
      List.Forall₂ (r.Case key) operands (cs.map (caseOperand r.labels)) := by
  induction operands generalizing index pieces with
  | nil =>
      obtain rfl := Except.ok.inj h
      exact ⟨[], rfl, fun c hc => absurd hc List.not_mem_nil, rfl, .nil⟩
  | cons operand operands ih =>
      cases operand with
      | case value label =>
          simp only [Encode.cases, bind_eq_ok] at h
          obtain ⟨word, hword, more, hmore, h⟩ := h
          obtain rfl := Except.ok.inj h
          obtain ⟨n, hn, hsame, rfl⟩ := Encode.wordOf_ok hword
          rw [List.forall_mem_cons, List.forall_mem_cons] at hplaced
          obtain ⟨_, ⟨ip, hip, hlt⟩, hplaced⟩ := hplaced
          obtain ⟨cs, hlen, hbound, hbytes, hcases⟩ := ih hmore hplaced
          have hplace : r.place (key label) = ip := by rw [Reading.place, hip]; rfl
          have hnat : (UInt32.ofNat n).toNat = n := UInt32.toNat_ofNat_of_lt' hn
          refine ⟨(n, ip) :: cs, by rw [List.length_cons, hlen, List.length_cons], ?_, ?_, ?_⟩
          · rw [List.forall_mem_cons]
            exact ⟨⟨hn, hlt⟩, hbound⟩
          · rw [filledAll_cons, filledAll_cons, hbytes, Piece.filled, Piece.filled, hplace,
              caseBytes, caseBytes, List.flatMap_cons, List.append_assoc]
          · have hvalue : SameWord (Word.toSigned (UInt32.ofNat n)) value := by
              have hsigned := sameWord_toSigned (UInt32.ofNat n)
              rw [hnat] at hsigned
              exact Eq.trans hsigned hsame
            exact .cons ⟨value, label, _, ip, rfl, hip, rfl, hvalue⟩ hcases
      | int v => cases h
      | float x => cases h
      | text s => cases h
      | ident name => cases h

theorem named_switch (hl : o.layout = .switch)
    (h : Encode.named key mnemonic o operands = .ok pieces)
    (hplaced : ∀ p ∈ pieces, p.Placed r.address?) : r.Named key o operands pieces := by
  simp only [Encode.named, hl, bind_eq_ok] at h
  obtain ⟨count, hcount, more, hmore, h⟩ := h
  obtain rfl := Except.ok.inj h
  obtain ⟨n, hn, hlen, rfl⟩ := Encode.byteOf_ok hcount
  rw [List.forall_mem_cons] at hplaced
  obtain ⟨cs, hcs, hbound, hbytes, hcases⟩ := cases_ok hmore hplaced.2
  obtain rfl : cs.length = n := by omega
  refine ⟨cs.map (caseOperand r.labels), ?_, ?_⟩
  · rw [filledAll_cons, hbytes]
    exact isInstruction_switch hl hn hbound
  · rw [hl]
    exact hcases

theorem named_string (hl : o.layout = .string)
    (h : Encode.named key mnemonic o operands = .ok pieces) : r.Named key o operands pieces := by
  obtain rfl := eq_string_of_layout hl
  simp only [Encode.named, Opcode.layout, bind_eq_ok] at h
  obtain ⟨_, hcount, h⟩ := h
  obtain ⟨operand, rfl⟩ := List.length_eq_one_iff.mp (Encode.expectCount_ok hcount)
  cases operand with
  | text s =>
      simp only [bind_eq_ok] at h
      obtain ⟨bs, hstring, h⟩ := h
      obtain rfl := Except.ok.inj h
      refine ⟨[.text (beforeNulChar s)], ?_, s, rfl, rfl⟩
      simp only [Encode.string] at hstring
      split at hstring
      · next hshort =>
          obtain rfl := Except.ok.inj hstring
          simp only [filledAll_cons, filledAll_nil, Piece.filled, List.append_nil, List.cons_append]
          exact isInstruction_shortString rfl s hshort
      · cases hhalf : Encode.halfOf mnemonic (utf8Bytes s ++ [0]).length with
        | error e => rw [hhalf] at hstring; cases hstring
        | ok half =>
            rw [hhalf] at hstring
            obtain rfl := Except.ok.inj hstring
            obtain ⟨n, hn, hlen, rfl⟩ := Encode.halfOf_ok hhalf
            obtain rfl := Int.ofNat.inj hlen
            simp only [filledAll_cons, filledAll_nil, Piece.filled, List.append_nil,
              List.cons_append]
            exact isInstruction_longString rfl s hn
  | int v => cases h
  | float x => cases h
  | ident name => cases h
  | case v label => cases h

theorem named_readsBack (h : Encode.named key mnemonic o operands = .ok pieces)
    (hplaced : ∀ p ∈ pieces, p.Placed r.address?) : r.Named key o operands pieces := by
  cases hl : o.layout with
  | none => exact named_none hl h
  | u8 => exact named_u8 hl h
  | u16 => exact named_u16 hl h
  | u32 => exact named_u32 hl h
  | f32 => exact named_f32 hl h
  | label => exact named_label hl h hplaced
  | function => exact named_function hl h hplaced
  | native => exact named_native hl h
  | enter => exact named_enter hl h
  | leave => exact named_leave hl h
  | switch => exact named_switch hl h hplaced
  | string => exact named_string hl h

theorem pushInt_readsBack {labels : AddressLabels} {natives : NativeNames} {v : Int} {bs : Bytes}
    (h : Encode.pushInt mnemonic v = .ok bs) :
    ∃ op read, IsInstruction labels natives op read bs ∧ PushReadsBack [.int v] op read := by
  unfold Encode.pushInt at h
  split at h
  · next op hop =>
      obtain rfl := Except.ok.inj h
      unfold Op.push? at hop
      split at hop
      · next hv =>
          obtain rfl := Option.some.inj hop
          refine ⟨.push _, [], isInstruction_byte (fun _ ho => nomatch ho), ?_⟩
          have hsmall : v = ((Fin.ofNat 176 (v + 16).toNat).val : Int) - 16 := by
            simp only [Fin.ofNat]
            omega
          have hpush := PushReadsBack.small (Fin.ofNat 176 (v + 16).toNat)
          rwa [← hsmall] at hpush
      · contradiction
  · split at h
    · next hv =>
        obtain rfl := Except.ok.inj h
        have hn : v.toNat < 0x10000 := by omega
        have hhalf := PushReadsBack.half v.toNat hn
        rw [Int.toNat_of_nonneg hv.1] at hhalf
        refine ⟨_, _, ?_, hhalf⟩
        simpa only [Int.toNat_of_nonneg hv.1] using isInstruction_u16 (o := .pushU16) rfl hn
    · cases hword : Encode.wordOf mnemonic v with
      | error e => rw [hword] at h; cases h
      | ok word =>
          rw [hword] at h
          obtain rfl := Except.ok.inj h
          obtain ⟨n, hn, hsame, rfl⟩ := Encode.wordOf_ok hword
          exact ⟨_, _, isInstruction_u32 (o := .pushU32) rfl hn, .word v n hn hsame⟩

/-- Whatever is encoded is one whole instruction, and it is read back as it was written. -/
theorem instruction_readsBack (h : Encode.instruction key mnemonic operands = .ok pieces)
    (hplaced : ∀ p ∈ pieces, p.Placed r.address?) :
    ∃ op read, IsInstruction r.labels r.natives op read (filledAll r.place pieces) ∧
      r.Instruction key mnemonic operands op read := by
  unfold Encode.instruction at h
  unfold Reading.Instruction
  split at h
  · next hpush =>
      simp only [hpush, if_true]
      simp only [bind_eq_ok] at h
      obtain ⟨_, hcount, h⟩ := h
      obtain ⟨operand, rfl⟩ := List.length_eq_one_iff.mp (Encode.expectCount_ok hcount)
      cases operand with
      | int v =>
          simp only [bind_eq_ok] at h
          obtain ⟨bs, hbytes, h⟩ := h
          obtain rfl := Except.ok.inj h
          rw [filledAll_cons, filledAll_nil, List.append_nil]
          exact pushInt_readsBack hbytes
      | float x =>
          obtain rfl := Except.ok.inj h
          rw [filledAll_cons, filledAll_nil, List.append_nil]
          exact ⟨_, _, isInstruction_f32 (o := .pushFloat) rfl x, .float x⟩
      | text s => cases h
      | ident name => cases h
      | case v label => cases h
  · next hpush =>
      simp only [hpush]
      cases hop : Op.ofMnemonic? mnemonic with
      | none => rw [hop] at h; cases h
      | some op =>
          rw [hop] at h
          cases op with
          | named o =>
              obtain ⟨read, hbytes, hread⟩ := named_readsBack h hplaced
              exact ⟨.named o, read, hbytes, rfl, hread⟩
          | push n =>
              simp only [bind_eq_ok] at h
              obtain ⟨_, hcount, h⟩ := h
              obtain rfl := Except.ok.inj h
              exact ⟨.push n, [], isInstruction_byte (fun _ ho => nomatch ho), rfl,
                List.eq_nil_of_length_eq_zero (Encode.expectCount_ok hcount), rfl⟩
          | unassigned n =>
              simp only [bind_eq_ok] at h
              obtain ⟨_, hcount, h⟩ := h
              obtain rfl := Except.ok.inj h
              exact ⟨.unassigned n, [], isInstruction_byte (fun _ ho => nomatch ho), rfl,
                List.eq_nil_of_length_eq_zero (Encode.expectCount_ok hcount), rfl⟩

end Encoder
end GameScript
