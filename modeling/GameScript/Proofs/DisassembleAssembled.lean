import GameScript.Proofs.AssemblyLines

/-!
# Disassembly undoes assembly

The code of an assembled script is a concatenation of whole instructions, one for each line of code.
The size rule finds exactly these instructions, and since the operand decoder agrees with the size
rule on each of them, disassembly succeeds and reads every line back. Which names the disassembly
chooses for addresses is not stated here; that an operand names the address of the label it was
written with is.
-/
namespace GameScript

def cutsOf (ip : Nat) : List Bytes → List Cut
  | [] => []
  | bs :: more => ⟨ip, bs.length, bs ++ more.flatten⟩ :: cutsOf (ip + bs.length) more

theorem cutFrom_flatten {chunks : List Bytes} (ip : Nat)
    (h : ∀ bs ∈ chunks, bs ≠ [] ∧ ∀ rest, Op.instructionSize? (bs ++ rest) = some bs.length) :
    cutFrom ip chunks.flatten = .ok (cutsOf ip chunks) := by
  induction chunks generalizing ip with
  | nil =>
      rw [List.flatten_nil, cutFrom]
      rfl
  | cons bs more ih =>
      rw [List.forall_mem_cons] at h
      obtain ⟨⟨hne, hsize⟩, hmore⟩ := h
      have hsplit : Bytes.split? bs.length (bs ++ more.flatten) = some (bs, more.flatten) :=
        Bytes.split?_append rfl more.flatten
      have hnonempty : (bs ++ more.flatten).isEmpty = false := by
        cases bs with
        | nil => contradiction
        | cons b bs => rfl
      rw [List.flatten_cons, cutFrom, hnonempty]
      simp only [Bool.false_eq_true, if_false]
      split
      · next hnone =>
          rw [hsize] at hnone
          cases hnone
      · next size hsome =>
          rw [hsize] at hsome
          obtain rfl := Option.some.inj hsome
          split
          · next hnone =>
              rw [hsplit] at hnone
              cases hnone
          · next front rest hsome =>
              rw [hsplit] at hsome
              obtain ⟨rfl, rfl⟩ := Prod.mk.inj (Option.some.inj hsome)
              rw [ih _ hmore]
              rfl

theorem decodeCut_ok {labels : AddressLabels} {natives : NativeNames} {op : Op}
    {operands : List Operand} {bs : Bytes} (h : IsInstruction labels natives op operands bs)
    (ip : Nat) (rest : Bytes) :
    decodeCut labels natives ⟨ip, bs.length, bs ++ rest⟩ =
      .ok ⟨labels.lookup ip, ip, op, operands, bs⟩ := by
  have hfirst : (bs ++ rest).headD 0 = op.toByte := by
    cases bs with
    | nil => cases h.first
    | cons b bs => exact Option.some.inj h.first
  have hlen : 1 + (bs.length - 1) = bs.length := by
    cases bs with
    | nil => cases h.first
    | cons b bs => rw [List.length_cons]; omega
  have hop : Cut.op ⟨ip, bs.length, bs ++ rest⟩ = op := by
    rw [Cut.op, hfirst, Op.ofByte_toByte]
  have hbytes : Cut.bytes ⟨ip, bs.length, bs ++ rest⟩ = bs := List.take_left
  have hdecode := h.decode rest
  unfold decodeCut
  rw [hop, hbytes]
  cases op with
  | named o =>
      simp only [decodeFront] at hdecode
      simp only [hdecode, pure_bind, hlen, if_true]
      rfl
  | push n =>
      obtain ⟨rfl, hused⟩ := Prod.mk.inj (Option.some.inj hdecode)
      simp only [pure_bind, hused, hlen, if_true]
      rfl
  | unassigned n =>
      obtain ⟨rfl, hused⟩ := Prod.mk.inj (Option.some.inj hdecode)
      simp only [pure_bind, hused, hlen, if_true]
      rfl

/-- How a line of code is read back. Frame openings keep the function's name only if asked to. -/
def Line.ReadsBack (r : Reading) (withNames : Bool) : Line → Instruction → Prop
  | .label _, _ => False
  | .opening f, i => i.op = .named .enter ∧ i.operands =
      [.int f.argSlots, .int f.frameSize] ++ nameOperands (if withNames then some f.name else none)
  | .instruction f mnemonic operands, i =>
      r.Instruction (referenceKey f.name (ownLabels f.body)) mnemonic operands i.op i.operands

def Consecutive (ip : Nat) : List Instruction → Prop
  | [] => True
  | i :: more => i.ip = ip ∧ Consecutive (ip + i.bytes.length) more

/-- The pieces of a line of code are one instruction, which is read back as that line. -/
theorem Line.Encodes.readsBack {withNames : Bool} {line : Line} {pieces : List Piece}
    (h : line.Encodes withNames pieces) {r : Reading}
    (hplaced : ∀ p ∈ pieces, p.Placed r.address?) :
    ∃ op operands, IsInstruction r.labels r.natives op operands (filledAll r.place pieces) ∧
      ∀ label ip bs, line.ReadsBack r withNames ⟨label, ip, op, operands, bs⟩ := by
  cases line with
  | label key => exact h.elim
  | opening f =>
      obtain ⟨bytes, hnaked, hbytes, rfl⟩ := h
      simp only [Assemble.prologue, hnaked, Bool.false_eq_true, if_false, bind_eq_ok] at hbytes
      obtain ⟨params, hparams, frame, hframe, hbytes⟩ := hbytes
      obtain rfl := Except.ok.inj hbytes
      obtain ⟨n, hn, hargs, rfl⟩ := Encode.byteOf_ok hparams
      obtain ⟨m, hm, hsize, rfl⟩ := Encode.halfOf_ok hframe
      refine ⟨_, _, ?_, fun label ip bs => ⟨rfl, rfl⟩⟩
      rw [filledAll_cons, filledAll_nil, List.append_nil, hargs, hsize]
      exact isInstruction_enter hn hm _
  | instruction f mnemonic operands =>
      obtain ⟨op, read, hbytes, hread⟩ := instruction_readsBack h hplaced
      exact ⟨op, read, hbytes, fun _ _ _ => hread⟩

/-- The groups of lines of code are whole instructions, whatever the addresses will be called. -/
theorem whole_of_encodes {withNames : Bool} {address? : String → Option Nat} {lines : List Line}
    {groups : List (List Piece)} (h : List.Forall₂ (Line.Encodes withNames) lines groups)
    (hplaced : ∀ pieces ∈ groups, ∀ p ∈ pieces, p.Placed address?) :
    ∀ bs ∈ groups.map (filledAll fun key => (address? key).getD 0),
      bs ≠ [] ∧ ∀ rest, Op.instructionSize? (bs ++ rest) = some bs.length := by
  induction h with
  | nil => exact fun bs hbs => absurd hbs List.not_mem_nil
  | @cons line pieces lines groups hline _ ih =>
      rw [List.forall_mem_cons] at hplaced
      rw [List.map_cons, List.forall_mem_cons]
      refine ⟨?_, ih hplaced.2⟩
      obtain ⟨op, operands, hbytes, _⟩ := hline.readsBack (r := ⟨[], {}, address?⟩) hplaced.1
      refine ⟨fun hnil => ?_, hbytes.size⟩
      have hfirst := hbytes.first
      unfold Reading.place at hfirst
      rw [hnil] at hfirst
      cases hfirst

theorem mapM_decodeCut {withNames : Bool} {r : Reading} {lines : List Line}
    {groups : List (List Piece)} (h : List.Forall₂ (Line.Encodes withNames) lines groups)
    (hplaced : ∀ pieces ∈ groups, ∀ p ∈ pieces, p.Placed r.address?) (ip : Nat) :
    ∃ instructions,
      (cutsOf ip (groups.map (filledAll r.place))).mapM (decodeCut r.labels r.natives) =
        .ok instructions ∧
      List.Forall₂ (Line.ReadsBack r withNames) lines instructions ∧ Consecutive ip instructions ∧
      instructions.map (·.bytes) = groups.map (filledAll r.place) := by
  induction h generalizing ip with
  | nil => exact ⟨[], rfl, .nil, trivial, rfl⟩
  | @cons line pieces lines groups hline _ ih =>
      rw [List.forall_mem_cons] at hplaced
      obtain ⟨op, operands, hbytes, hread⟩ := hline.readsBack hplaced.1
      obtain ⟨more, hmore, hlines, hips, hmap⟩ :=
        ih hplaced.2 (ip + (filledAll r.place pieces).length)
      refine ⟨⟨r.labels.lookup ip, ip, op, operands, filledAll r.place pieces⟩ :: more, ?_,
        .cons (hread _ _ _) hlines, ⟨rfl, hips⟩, ?_⟩
      · rw [List.map_cons, cutsOf, List.mapM_cons, decodeCut_ok hbytes, hmore]
        rfl
      · rw [List.map_cons, List.map_cons, hmap]

theorem length_filledAll (place : String → Nat) (pieces : List Piece) :
    (filledAll place pieces).length = groupSize pieces := by
  induction pieces with
  | nil => rfl
  | cons p pieces ih =>
      rw [filledAll_cons, List.length_append, ih, ← Piece.length_blank, groupSize, groupSize,
        List.flatMap_cons, List.length_append]

theorem filledAll_flatten (place : String → Nat) (groups : List (List Piece)) :
    filledAll place groups.flatten = (groups.map (filledAll place)).flatten := by
  induction groups with
  | nil => rfl
  | cons pieces groups ih =>
      rw [List.flatten_cons, filledAll_append, ih, List.map_cons, List.flatten_cons]

/-- Disassembling the code of an assembled script gives back its lines of code, one instruction for
each and nothing besides. Operands that are labels are read back at the addresses of the lines that
define them. -/
theorem disassemble_assemble {functions : List FunctionDef} {statics globals : List DataField}
    {withNames : Bool} {script : AssembledScript}
    (h : assemble functions statics globals withNames = .ok script) (natives : NativeNames) :
    let lines := (orderFunctions functions).flatMap FunctionDef.lines
    ∃ d, disassemble script.code natives = .ok d ∧
      (d.instructions.map (·.bytes)).flatten = script.code ∧ Consecutive 0 d.instructions ∧
      let addresses := labelAddresses 0 lines (d.instructions.map (·.bytes.length))
      List.Forall₂ (Line.ReadsBack ⟨d.labels, natives, fun key => addresses.lookup key⟩ withNames)
        (lines.filter Line.isCode) d.instructions := by
  intro lines
  obtain ⟨⟨buffer, entries⟩, hfunctions, h⟩ := bind_eq_ok.mp h
  obtain ⟨code, hresolve, h⟩ := bind_eq_ok.mp h
  obtain ⟨staticSegment, _, h⟩ := bind_eq_ok.mp h
  obtain ⟨globalSegment, _, h⟩ := bind_eq_ok.mp h
  obtain rfl := Except.ok.inj h
  obtain ⟨groups, hwritten⟩ := Assemble.functions_written Written.empty hfunctions
  simp only [List.nil_append] at hwritten
  obtain ⟨hcode, hplaced⟩ := hwritten.holds.resolve hresolve
  rw [filledAll_flatten] at hcode
  have hgroups : ∀ pieces ∈ groups, ∀ p ∈ pieces, p.Placed buffer.address? := fun pieces hp p hq =>
    hplaced p (List.mem_flatten_of_mem hp hq)
  let place := fun key => (buffer.address? key).getD 0
  let chunks := groups.map (filledAll place)
  -- The cuts do not depend on names, so they can be found before any address has one.
  have hcuts : cutFrom 0 code.toList = .ok (cutsOf 0 chunks) := by
    rw [hcode]
    exact cutFrom_flatten 0 (whole_of_encodes hwritten.groups hgroups)
  let r : Reading := ⟨collectLabels (cutsOf 0 chunks), natives, buffer.address?⟩
  obtain ⟨instructions, hdecode, hread, hips, hbytes⟩ :=
    mapM_decodeCut (r := r) hwritten.groups hgroups 0
  refine ⟨⟨instructions, collectLabels (cutsOf 0 chunks), code.toList.length⟩, ?_, ?_, hips, ?_⟩
  · rw [disassemble, hcuts]
    exact bind_eq_ok.mpr ⟨_, rfl, bind_eq_ok.mpr ⟨_, hdecode, rfl⟩⟩
  · exact (congrArg List.flatten hbytes).trans hcode.symm
  · have hsizes : instructions.map (·.bytes.length) = groups.map groupSize := by
      have hlengths := congrArg (List.map List.length) hbytes
      simpa only [List.map_map, Function.comp_def, length_filledAll] using hlengths
    have haddress : buffer.address? = fun key =>
        (labelAddresses 0 lines (instructions.map (·.bytes.length))).lookup key := by
      rw [hsizes, ← hwritten.labels]
      rfl
    simpa only [← haddress] using hread

def loopFunction : FunctionDef where
  name := "main"
  body := [
    { label := some "top", mnemonic := some "push_const", operands := [.int 300] },
    { mnemonic := some "JNZ", operands := [.ident "TOP"] },
    { mnemonic := some "string", operands := [.text "a"] },
    .op .leave [.int 0, .int 0]]

theorem disassemble_assemble_loopFunction :
    ∃ script d, assemble [loopFunction] [] [] true = .ok script ∧
      disassemble script.code {} = .ok d ∧
      (d.instructions.map (·.bytes)).flatten = script.code ∧ d.instructions.length = 5 := by
  have hok : (assemble [loopFunction] [] [] true).isOk = true := by decide +kernel
  cases h : assemble [loopFunction] [] [] true with
  | error e =>
      rw [h] at hok
      cases hok
  | ok script =>
      obtain ⟨d, hd, hbytes, _, hread⟩ := disassemble_assemble h {}
      exact ⟨script, d, rfl, hd, hbytes, hread.length_eq.symm.trans (by decide +kernel)⟩

end GameScript
