import GameScript.Proofs.PieceLayout
import GameScript.Proofs.TextEncoding

/-!
# Instructions as byte strings

A byte string is an instruction when the size rule gives it its own length and the decoder reads its
operands from it, whatever bytes follow. There is one lemma for each operand layout; the three
layouts of variable size each carry their length in their first bytes, so the lemmas differ only in
how the length is found. Which instruction a statement of assembly asks for is not said here.
-/
namespace GameScript

theorem Opcode.ofByte?_toByte (o : Opcode) : Opcode.ofByte? o.toByte = some o := by
  cases o <;> rfl

namespace Op

theorem ofByte_named (o : Opcode) : ofByte o.toByte = .named o := by
  rw [ofByte, Opcode.ofByte?_toByte]

theorem ofByte_push (n : Fin 176) : ofByte (push n).toByte = push n := by
  have hbyte : (push n).toByte.toNat = firstPush + n.val := by
    rw [toByte, Utf8.toNat_ofNat_of_lt]
    have := n.isLt
    simp only [firstPush]
    omega
  have hnone : Opcode.ofByte? (push n).toByte = none := by
    rw [Opcode.ofByte?, hbyte]
    exact List.getElem?_eq_none (Nat.le_add_right_of_le (by decide))
  rw [ofByte, hnone, hbyte]
  simp only [Nat.le_add_right, if_true, Nat.add_sub_cancel_left]
  exact congrArg push (Fin.ext (Nat.mod_eq_of_lt n.isLt))

theorem ofByte_unassigned : ∀ n : Fin 3, ofByte (unassigned n).toByte = unassigned n := by decide

theorem ofByte_toByte (op : Op) : ofByte op.toByte = op := by
  cases op with
  | named o => exact ofByte_named o
  | push n => exact ofByte_push n
  | unassigned n => exact ofByte_unassigned n

end Op

/-- The name that a frame opening keeps of `s`: what can be read of its first bytes, up to the first
zero byte. Nothing is kept of an empty name. -/
def keptName (s : String) : Option String :=
  let name := Utf8.decodeLossy (Bytes.beforeNul ((utf8Bytes s).take Encode.maxNameLength))
  if name.isEmpty then none else some name

def nameOperands (name : Option String) : List Operand := (name.bind keptName).toList.map .text

/-- The operands at the front of code that starts with `op`, and the number of bytes they take. -/
def decodeFront (labels : AddressLabels) (natives : NativeNames) (op : Op) (code : Bytes) :
    Option (List Operand × Nat) :=
  match op with
  | .named o => decodeOperands? labels natives o code (code.drop 1)
  | _ => some ([], 0)

/-- The bytes are one whole instruction, whatever follows them. -/
structure IsInstruction (labels : AddressLabels) (natives : NativeNames) (op : Op)
    (operands : List Operand) (bs : Bytes) : Prop where
  first : bs.head? = some op.toByte
  size : ∀ rest, Op.instructionSize? (bs ++ rest) = some bs.length
  decode : ∀ rest, decodeFront labels natives op (bs ++ rest) = some (operands, bs.length - 1)

section Layouts

variable {labels : AddressLabels} {natives : NativeNames}

theorem instructionSize?_named {o : Opcode} {n : Nat} (h : o.layout.constantSize? = some n)
    (rest : Bytes) : Op.instructionSize? (o.toByte :: rest) = some n := by
  simp only [Op.instructionSize?, Op.ofByte_named]
  cases hl : o.layout <;> rw [hl] at h <;> first | exact h | cases h

/-- Instructions whose size the opcode decides: it is enough to decode the operands. -/
theorem isInstruction_of_constantSize {o : Opcode} {tail : Bytes} {operands : List Operand}
    (hsize : o.layout.constantSize? = some (tail.length + 1))
    (hdecode : ∀ code rest, decodeOperands? labels natives o code (tail ++ rest) =
      some (operands, tail.length)) :
    IsInstruction labels natives (.named o) operands (o.toByte :: tail) where
  first := rfl
  size rest := instructionSize?_named hsize (tail ++ rest)
  decode rest := hdecode _ rest

/-- Instructions of a single byte. -/
theorem isInstruction_byte {op : Op} (h : ∀ o, op = .named o → o.layout = .none) :
    IsInstruction labels natives op [] [op.toByte] := by
  cases op with
  | named o =>
      have hl := h o rfl
      apply isInstruction_of_constantSize
      · rw [hl]; rfl
      · intro code rest
        rw [decodeOperands?, hl]
        rfl
  | push n =>
      refine ⟨rfl, fun rest => ?_, fun rest => rfl⟩
      simp only [List.singleton_append, Op.instructionSize?, Op.ofByte_toByte,
        List.length_singleton]
  | unassigned n =>
      refine ⟨rfl, fun rest => ?_, fun rest => rfl⟩
      simp only [List.singleton_append, Op.instructionSize?, Op.ofByte_toByte,
        List.length_singleton]

theorem isInstruction_u8 {o : Opcode} (hl : o.layout = .u8) {n : Nat} (hn : n < 0x100) :
    IsInstruction labels natives (.named o) [.int n] (o.toByte :: leBytes 1 n) := by
  apply isInstruction_of_constantSize
  · rw [hl]; rfl
  · intro code rest
    simp only [decodeOperands?, hl, Bytes.read?_leBytes (k := 1) hn]
    rfl

theorem isInstruction_u16 {o : Opcode} (hl : o.layout = .u16) {n : Nat} (hn : n < 0x10000) :
    IsInstruction labels natives (.named o) [.int n] (o.toByte :: leBytes 2 n) := by
  apply isInstruction_of_constantSize
  · rw [hl]; rfl
  · intro code rest
    simp only [decodeOperands?, hl, Bytes.read?_leBytes (k := 2) hn]
    rfl

theorem isInstruction_u32 {o : Opcode} (hl : o.layout = .u32) {n : Nat} (hn : n < 0x100000000) :
    IsInstruction labels natives (.named o) [.int n] (o.toByte :: leBytes 4 n) := by
  apply isInstruction_of_constantSize
  · rw [hl]; rfl
  · intro code rest
    simp only [decodeOperands?, hl, Bytes.read?_leBytes (k := 4) hn]
    rfl

theorem isInstruction_f32 {o : Opcode} (hl : o.layout = .f32) (x : Binary32) :
    IsInstruction labels natives (.named o) [.float x] (o.toByte :: Word.toBytes x.bits) := by
  apply isInstruction_of_constantSize
  · rw [hl]; rfl
  · intro code rest
    simp only [decodeOperands?, hl, Bytes.readWord?_toBytes]
    rfl

/-- Jumps and calls. -/
theorem isInstruction_target {o : Opcode} (hl : o.layout = .label ∨ o.layout = .function) {ip : Nat}
    (hip : ip < 0x100000000) :
    IsInstruction labels natives (.named o) [targetOperand labels ip]
      (o.toByte :: leBytes 4 ip) := by
  rcases hl with hl | hl
  all_goals
    apply isInstruction_of_constantSize
    · rw [hl]; rfl
    · intro code rest
      simp only [decodeOperands?, hl, Bytes.read?_leBytes (k := 4) hip]
      rfl

theorem isInstruction_leave {o : Opcode} (hl : o.layout = .leave) {params results : Nat}
    (hp : params < 0x100) (hr : results < 0x100) :
    IsInstruction labels natives (.named o) [.int params, .int results]
      (o.toByte :: (leBytes 1 params ++ leBytes 1 results)) := by
  apply isInstruction_of_constantSize
  · rw [hl]; rfl
  · intro code rest
    simp only [decodeOperands?, hl, List.append_assoc, Bytes.read?_leBytes (k := 1) hp,
      Bytes.read?_leBytes (k := 1) hr, Option.bind_eq_bind, Option.bind_some]
    rfl

def commandName (natives : NativeNames) (hash : UInt32) : Operand :=
  match natives.find? hash with
  | some name => .ident name
  | none => .int hash.toNat

theorem isInstruction_native {o : Opcode} (hl : o.layout = .native) {params results : Nat}
    (hp : params < 0x100) (hr : results < 0x100) (hash : UInt32) :
    IsInstruction labels natives (.named o)
      [.int params, .int results, commandName natives hash]
      (o.toByte :: (leBytes 1 params ++ leBytes 1 results ++ Word.toBytes hash)) := by
  apply isInstruction_of_constantSize
  · rw [hl]; rfl
  · intro code rest
    simp only [decodeOperands?, hl, List.append_assoc, Bytes.read?_leBytes (k := 1) hp,
      Bytes.read?_leBytes (k := 1) hr, Bytes.readWord?_toBytes, Option.bind_eq_bind,
      Option.bind_some]
    rfl

/-- A text after a length of one byte. -/
theorem isInstruction_shortString {o : Opcode} (hl : o.layout = .string) (s : String)
    (hn : (utf8Bytes s ++ [0]).length < 0x100) :
    IsInstruction labels natives (.named o) [.text (beforeNulChar s)]
      (o.toByte :: (leBytes 1 (utf8Bytes s ++ [0]).length ++ (utf8Bytes s ++ [0]))) := by
  have hpos : (utf8Bytes s ++ [0]).length ≠ 0 := by simp
  rw [← Bytes.decodeLossy_beforeNul, ← Bytes.beforeNul_append_zero]
  generalize utf8Bytes s ++ [0] = body at hn hpos ⊢
  have hbyte : (UInt8.ofNat body.length).toNat = body.length := Utf8.toNat_ofNat_of_lt hn
  have hnonzero : (UInt8.ofNat body.length == 0) = false := by
    rw [beq_eq_false_iff_ne, ne_eq, ← UInt8.toNat_inj, hbyte]
    exact hpos
  refine ⟨rfl, fun rest => ?_, fun rest => ?_⟩
  · simp only [List.cons_append, leBytes, List.nil_append, Op.instructionSize?, Op.ofByte_named, hl,
      hnonzero, hbyte, List.length_cons, Bool.false_eq_true, if_false]
    exact congrArg some (by omega)
  · simp only [decodeFront, List.cons_append, List.drop_one, List.tail_cons, List.append_assoc,
      decodeOperands?, hl, Bytes.read?_leBytes (k := 1) hn, Option.bind_eq_bind, Option.bind_some,
      if_neg hpos, Bytes.split?_append rfl, List.length_cons, List.length_append, length_leBytes]
    rfl

/-- A text after a length of two bytes, which a zero byte announces. -/
theorem isInstruction_longString {o : Opcode} (hl : o.layout = .string) (s : String)
    (hn : (utf8Bytes s ++ [0]).length < 0x10000) :
    IsInstruction labels natives (.named o) [.text (beforeNulChar s)]
      (o.toByte :: 0 :: (leBytes 2 (utf8Bytes s ++ [0]).length ++ (utf8Bytes s ++ [0]))) := by
  rw [← Bytes.decodeLossy_beforeNul, ← Bytes.beforeNul_append_zero]
  generalize utf8Bytes s ++ [0] = body at hn ⊢
  have hvalue := leValue_leBytes_of_lt (k := 2) hn
  refine ⟨rfl, fun rest => ?_, fun rest => ?_⟩
  · simp only [leBytes] at hvalue
    simp only [List.cons_append, leBytes, List.nil_append, Op.instructionSize?, Op.ofByte_named, hl,
      beq_self_eq_true, if_true, hvalue, List.length_cons]
    exact congrArg some (by omega)
  · have hzero : Bytes.read? 1 (0 :: (leBytes 2 body.length ++ (body ++ rest))) =
        some (0, leBytes 2 body.length ++ (body ++ rest)) := rfl
    simp only [decodeFront, List.cons_append, List.drop_one, List.tail_cons, List.append_assoc,
      decodeOperands?, hl, hzero, Bytes.read?_leBytes (k := 2) hn, Option.bind_eq_bind,
      Option.bind_some, if_true, Option.map_some, Bytes.split?_append rfl, List.length_cons,
      List.length_append, length_leBytes]
    congr 2
    omega

def caseBytes (cs : List (Nat × Nat)) : Bytes := cs.flatMap fun c => leBytes 4 c.1 ++ leBytes 4 c.2

def caseOperand (labels : AddressLabels) (c : Nat × Nat) : Operand :=
  .case (Word.toSigned (UInt32.ofNat c.1)) ((labels.lookup c.2).getD (toString c.2))

theorem length_caseBytes (cs : List (Nat × Nat)) : (caseBytes cs).length = 8 * cs.length := by
  induction cs with
  | nil => rfl
  | cons c cs ih =>
      simp only [caseBytes, List.flatMap_cons, List.length_append, length_leBytes,
        List.length_cons] at ih ⊢
      omega

theorem decodeCases_caseBytes {cs : List (Nat × Nat)}
    (h : ∀ c ∈ cs, c.1 < 0x100000000 ∧ c.2 < 0x100000000) (rest : Bytes) :
    decodeCases labels cs.length (caseBytes cs ++ rest) =
      some (cs.map (caseOperand labels), 8 * cs.length) := by
  induction cs with
  | nil => rfl
  | cons c cs ih =>
      rw [List.forall_mem_cons] at h
      obtain ⟨⟨hvalue, hip⟩, h⟩ := h
      have hword {n : Nat} (hn : n < 0x100000000) (bs : Bytes) :
          Bytes.readWord? (leBytes 4 n ++ bs) = some (UInt32.ofNat n, bs) := by
        rw [Bytes.readWord?_append (length_leBytes 4 n), leValue_leBytes_of_lt (k := 4) hn]
      have htarget : (UInt32.ofNat c.2).toNat = c.2 := UInt32.toNat_ofNat_of_lt' hip
      have hmore := ih h
      rw [caseBytes] at hmore
      simp only [List.length_cons, decodeCases, caseBytes, List.flatMap_cons, List.append_assoc,
        hword hvalue, hword hip, hmore, Option.bind_eq_bind, Option.bind_some, htarget,
        List.map_cons]
      rfl

theorem isInstruction_switch {o : Opcode} (hl : o.layout = .switch) {cs : List (Nat × Nat)}
    (hcount : cs.length < 0x100) (h : ∀ c ∈ cs, c.1 < 0x100000000 ∧ c.2 < 0x100000000) :
    IsInstruction labels natives (.named o) (cs.map (caseOperand labels))
      (o.toByte :: (leBytes 1 cs.length ++ caseBytes cs)) := by
  have hbyte : (UInt8.ofNat cs.length).toNat = cs.length := Utf8.toNat_ofNat_of_lt hcount
  refine ⟨rfl, fun rest => ?_, fun rest => ?_⟩
  · simp only [List.cons_append, leBytes, List.nil_append, Op.instructionSize?, Op.ofByte_named, hl,
      List.getElem?_cons_zero, Option.map_some, hbyte, List.length_cons, length_caseBytes]
    exact congrArg some (by omega)
  · simp only [decodeFront, List.cons_append, List.drop_one, List.tail_cons, List.append_assoc,
      decodeOperands?, hl, Bytes.read?_leBytes (k := 1) hcount, Option.bind_eq_bind,
      Option.bind_some, decodeCases_caseBytes h, List.length_cons, List.length_append,
      length_leBytes, length_caseBytes]
    rfl

/-- A frame opening without a name. -/
theorem isInstruction_enterPlain {o : Opcode} (hl : o.layout = .enter) {params frame : Nat}
    (hp : params < 0x100) (hf : frame < 0x10000) :
    IsInstruction labels natives (.named o) [.int params, .int frame]
      (o.toByte :: (leBytes 1 params ++ leBytes 2 frame ++ [0])) := by
  refine ⟨rfl, fun rest => ?_, fun rest => ?_⟩
  · simp only [leBytes, List.cons_append, List.nil_append, Op.instructionSize?, Op.ofByte_named, hl]
    rfl
  · have hzero : Bytes.read? 1 ([0] ++ rest) = some (0, rest) := rfl
    have hnone : embeddedName? (o.toByte :: (leBytes 1 params ++ leBytes 2 frame ++ [0] ++ rest)) =
        none := rfl
    simp only [decodeFront, List.cons_append, List.drop_one, List.tail_cons, decodeOperands?, hl,
      hnone]
    simp only [List.append_assoc, Bytes.read?_leBytes (k := 1) hp,
      Bytes.read?_leBytes (k := 2) hf, hzero, Option.bind_eq_bind, Option.bind_some, Bytes.split?]
    rfl

/-- The closing zero of an embedded name is cut off again; its first byte is not one that readers
skip. -/
theorem embeddedName?_kept {o p a b : UInt8} {kept : Bytes} (hne : kept ≠ [])
    (hlen : kept.length + 1 < 0x100) (hff : ∀ x ∈ kept, x ≠ 0xFF) (rest : Bytes) :
    embeddedName? (o :: p :: a :: b :: UInt8.ofNat (kept.length + 1) :: (kept ++ [0] ++ rest)) =
      let name := Utf8.decodeLossy (Bytes.beforeNul kept)
      if name.isEmpty then none else some name := by
  have hbyte : (UInt8.ofNat (kept.length + 1)).toNat = kept.length + 1 :=
    Utf8.toNat_ofNat_of_lt hlen
  have hpos : ¬ kept.length + 1 < 2 := by
    have := List.length_pos_iff.mpr hne
    omega
  have hsplit : Bytes.split? (kept.length + 1) (kept ++ [0] ++ rest) = some (kept ++ [0], rest) :=
    Bytes.split?_append (by simp) rest
  have hskip : (kept ++ [0]).dropWhile (· == 0xFF) = kept ++ [0] := by
    cases kept with
    | nil => contradiction
    | cons x kept =>
        have hx : (x == 0xFF) = false := beq_eq_false_iff_ne.mpr (hff x List.mem_cons_self)
        rw [List.cons_append,
          List.dropWhile_cons_of_neg (by simp only [hx, Bool.false_eq_true, not_false_eq_true])]
  simp only [embeddedName?, hbyte, if_neg hpos, hsplit, hskip, Bytes.beforeNul_append_zero]

/-- A frame opening with a name. -/
theorem isInstruction_enterNamed {o : Opcode} (hl : o.layout = .enter) {params frame : Nat}
    (hp : params < 0x100) (hf : frame < 0x10000) {s : String} (hs : utf8Bytes s ≠ []) :
    let kept := (utf8Bytes s).take Encode.maxNameLength
    IsInstruction labels natives (.named o) ([.int params, .int frame] ++ nameOperands (some s))
      (o.toByte :: (leBytes 1 params ++ leBytes 2 frame ++
        (UInt8.ofNat (kept.length + 1) :: (kept ++ [0])))) := by
  intro kept
  have hne : kept ≠ [] := by
    simp only [kept, Encode.maxNameLength, ne_eq, List.take_eq_nil_iff, hs]
    decide
  have hlen : kept.length + 1 < 0x100 := by
    have : kept.length ≤ Encode.maxNameLength := List.length_take_le _ _
    simp only [Encode.maxNameLength] at this
    omega
  have hff : ∀ x ∈ kept, x ≠ 0xFF := fun x hx =>
    Bytes.ne_ff_of_mem_utf8Bytes (List.mem_of_mem_take hx)
  have hbyte : (UInt8.ofNat (kept.length + 1)).toNat = kept.length + 1 :=
    Utf8.toNat_ofNat_of_lt hlen
  refine ⟨rfl, fun rest => ?_, fun rest => ?_⟩
  · simp only [leBytes, List.cons_append, List.nil_append, Op.instructionSize?, Op.ofByte_named, hl,
      List.getElem?_cons_succ, List.getElem?_cons_zero, Option.map_some, hbyte, List.length_cons,
      List.length_append, List.length_nil]
    exact congrArg some (by omega)
  · have hname := embeddedName?_kept (o := o.toByte) (p := UInt8.ofNat params)
      (a := UInt8.ofNat frame) (b := UInt8.ofNat (frame / 256)) hne hlen hff rest
    have hcode : o.toByte :: (leBytes 1 params ++ leBytes 2 frame ++
          (UInt8.ofNat (kept.length + 1) :: (kept ++ [0]))) ++ rest =
        o.toByte :: UInt8.ofNat params :: UInt8.ofNat frame :: UInt8.ofNat (frame / 256) ::
          UInt8.ofNat (kept.length + 1) :: (kept ++ [0] ++ rest) := by
      simp only [leBytes, List.cons_append, List.nil_append]
    have hlength : Bytes.read? 1 (UInt8.ofNat (kept.length + 1) :: (kept ++ [0] ++ rest)) =
        some (kept.length + 1, kept ++ [0] ++ rest) := Bytes.read?_leBytes (k := 1) hlen _
    have hsplit : Bytes.split? (kept.length + 1) (kept ++ [0] ++ rest) =
        some (kept ++ [0], rest) := Bytes.split?_append (by simp) rest
    have hdrop : (o.toByte :: (leBytes 1 params ++ leBytes 2 frame ++
          (UInt8.ofNat (kept.length + 1) :: (kept ++ [0]))) ++ rest).drop 1 =
        leBytes 1 params ++ (leBytes 2 frame ++
          (UInt8.ofNat (kept.length + 1) :: (kept ++ [0] ++ rest))) := by
      simp only [List.cons_append, List.drop_one, List.tail_cons, List.append_assoc]
    rw [decodeFront, decodeOperands?, hl, hdrop, hcode, hname]
    simp only [Bytes.read?_leBytes (k := 1) hp, Bytes.read?_leBytes (k := 2) hf, hlength, hsplit,
      Option.bind_eq_bind, Option.bind_some, List.length_cons, List.length_append, length_leBytes,
      List.length_nil]
    refine congrArg some (Prod.ext rfl ?_)
    simp only []
    omega

end Layouts

end GameScript
