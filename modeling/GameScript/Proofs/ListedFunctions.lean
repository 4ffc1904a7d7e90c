import Mathlib.Data.List.SplitBy
import GameScript.Proofs.AddressNames
import GameScript.Proofs.AssemblySucceeds

/-!
# Assembling a listing

A listing is cut before every frame opening, and each part is taken as a function that opens its
frame itself. The names in the listing are those that disassembly made up, so all references have to
be followed again: a reference to the beginning of a function leads there by the function's name,
and one inside a function by a label of that function. The listing is assembled to the code it was
made from if references do not lead into the middle of another function. For which code this is so
is not discussed here.
-/
namespace GameScript

/-! ## Functions of a listing -/

def Instruction.statement (i : Instruction) : Statement where
  label := i.label
  mnemonic := some i.op.mnemonic
  operands := i.operands

/-- The function that a part of a listing stands for. The label of its first line becomes its name,
and `endLabel` stands behind its last line. -/
def listedFunction (part : List Instruction) (endLabel : Option String) : FunctionDef where
  name := (part.head?.bind Instruction.label).getD ""
  naked := true
  body :=
    (part.head?.map fun first => { first.statement with label := none }).toList ++
      part.tail.map Instruction.statement ++ (endLabel.map Statement.mark).toList

def listedFunctions (endLabel : Option String) : List (List Instruction) → List FunctionDef
  | [] => []
  | part :: more =>
    listedFunction part (if more.isEmpty then endLabel else none) :: listedFunctions endLabel more

/-- The functions of a listing. It is cut before every frame opening. -/
def Disassembly.functions (d : Disassembly) : List FunctionDef :=
  listedFunctions d.endLabel? (d.instructions.splitBy fun _ i => i.op != .named .enter)

theorem orderFunctions_cons {f : FunctionDef} (h : f.isEntry = true) (fs : List FunctionDef) :
    orderFunctions (f :: fs) = f :: fs := by
  unfold orderFunctions
  rw [List.findIdx?_cons, h]
  rfl

theorem listedFunctions_append (endLabel : Option String) (before : List (List Instruction))
    (part : List Instruction) (after : List (List Instruction)) :
    listedFunctions endLabel (before ++ part :: after) =
      before.map (listedFunction · none) ++ listedFunctions endLabel (part :: after) := by
  induction before with
  | nil => rfl
  | cons first before ih =>
      have hmore : (before ++ part :: after).isEmpty = false := by
        rw [List.isEmpty_eq_false_iff]
        exact List.append_ne_nil_of_right_ne_nil _ (List.cons_ne_nil _ _)
      rw [List.cons_append, listedFunctions, ih, hmore]
      rfl

/-! ## Lines of a listing -/

theorem lines_statement (f : FunctionDef) (i : Instruction) : i.statement.lines f =
    (i.label.map fun label => Line.label (labelKey f.name label)).toList ++
      [.instruction f i.op.mnemonic i.operands] := rfl

theorem lines_listedFunction (first : Instruction) (rest : List Instruction)
    (endLabel : Option String) :
    let f := listedFunction (first :: rest) endLabel
    f.lines = .label (functionKey f.name) :: .instruction f first.op.mnemonic first.operands ::
      (rest.flatMap (fun i => i.statement.lines f) ++
        (endLabel.map fun label => Line.label (labelKey f.name label)).toList) := by
  intro f
  have hend : (endLabel.map Statement.mark).toList.flatMap (Statement.lines f) =
      (endLabel.map fun label => Line.label (labelKey f.name label)).toList := by
    cases endLabel <;> rfl
  have hbody : f.body = { first.statement with label := none } ::
      (rest.map Instruction.statement ++ (endLabel.map Statement.mark).toList) := rfl
  rw [FunctionDef.lines, hbody, List.flatMap_cons, List.flatMap_append, List.flatMap_map, hend]
  rfl

/-- Each instruction of the part is one line of code. -/
theorem codeLines_listedFunction (first : Instruction) (rest : List Instruction)
    (endLabel : Option String) :
    let f := listedFunction (first :: rest) endLabel
    f.lines.filter Line.isCode =
      (first :: rest).map fun i => .instruction f i.op.mnemonic i.operands := by
  intro f
  have hlabel (label : Option String) :
      (label.map fun label => Line.label (labelKey f.name label)).toList.filter
        Line.isCode = [] := by
    cases label <;> rfl
  have hrest (is : List Instruction) :
      (is.flatMap fun i => i.statement.lines f).filter Line.isCode =
        is.map fun i => .instruction f i.op.mnemonic i.operands := by
    induction is with
    | nil => rfl
    | cons i is ih =>
        rw [List.flatMap_cons, List.filter_append, ih, lines_statement, List.filter_append, hlabel]
        rfl
  rw [lines_listedFunction, List.filter_cons_of_neg (by simp [Line.isCode]),
    List.filter_cons_of_pos rfl, List.filter_append, hrest, hlabel, List.append_nil]
  rfl

theorem labelAddresses_statements (f : FunctionDef) {is : List Instruction} {ip : Nat}
    (hips : Consecutive ip is) (more : List Line) :
    labelAddresses ip (is.flatMap (fun i => i.statement.lines f) ++ more)
      (is.map (·.bytes.length)) =
      (is.filterMap fun i => i.label.map fun label => (labelKey f.name label, i.ip)) ++
        labelAddresses (ip + (is.map (·.bytes.length)).sum) more [] := by
  induction is generalizing ip with
  | nil => rfl
  | cons i is ih =>
      obtain ⟨rfl, hips⟩ := hips
      rw [List.flatMap_cons, List.append_assoc, lines_statement, List.map_cons, List.sum_cons,
        ← Nat.add_assoc, List.filterMap_cons]
      cases i.label with
      | none => exact ih hips
      | some label => exact congrArg ((labelKey f.name label, i.ip) :: ·) (ih hips)

/-- The labels of a listed function stand where the listing shows them. -/
theorem labelAddresses_listedFunction {first : Instruction} {rest : List Instruction} {ip : Nat}
    (hips : Consecutive ip (first :: rest)) (endLabel : Option String) :
    let f := listedFunction (first :: rest) endLabel
    labelAddresses ip f.lines ((first :: rest).map (·.bytes.length)) =
      (functionKey f.name, ip) ::
        ((rest.filterMap fun i => i.label.map fun label => (labelKey f.name label, i.ip)) ++
          (endLabel.map fun label =>
            (labelKey f.name label, ip + ((first :: rest).map (·.bytes.length)).sum)).toList) := by
  intro f
  rw [lines_listedFunction, labelAddresses, List.map_cons, labelAddresses_code rfl,
    labelAddresses_statements f hips.2, List.sum_cons, Nat.add_assoc]
  cases endLabel <;> rfl

theorem codeLabels_listedFunction (first : Instruction) (rest : List Instruction)
    (endLabel : Option String) :
    Lowering.codeLabels (listedFunction (first :: rest) endLabel).body =
      rest.filterMap Instruction.label ++ endLabel.toList := by
  have hbody : (listedFunction (first :: rest) endLabel).body =
      { first.statement with label := none } ::
      (rest.map Instruction.statement ++ (endLabel.map Statement.mark).toList) := rfl
  rw [hbody, Lowering.codeLabels, List.filterMap_cons_none rfl, List.filterMap_append,
    List.filterMap_map]
  cases endLabel <;> rfl

theorem mem_listedFunctions {endLabel : Option String} {parts : List (List Instruction)}
    {f : FunctionDef} (h : f ∈ listedFunctions endLabel parts) :
    ∃ part ∈ parts, ∃ last : Option String,
      f = listedFunction part last ∧ ∀ label ∈ last, endLabel = some label := by
  induction parts with
  | nil => cases h
  | cons part more ih =>
      rcases List.mem_cons.mp h with rfl | h
      · refine ⟨part, List.mem_cons_self, _, rfl, fun label hlabel => ?_⟩
        split at hlabel
        · exact hlabel
        · cases hlabel
      · obtain ⟨part', hpart, hrest⟩ := ih h
        exact ⟨part', List.mem_cons_of_mem _ hpart, hrest⟩

/-- Functions have as many lines of code as their parts have instructions. -/
theorem length_codeLines {fs : List FunctionDef} {parts : List (List Instruction)}
    (h : List.Forall₂ (fun f part => (f.lines.filter Line.isCode).length = part.length) fs parts) :
    ((fs.flatMap FunctionDef.lines).filter Line.isCode).length = parts.flatten.length := by
  induction h with
  | nil => rfl
  | cons hpart _ ih =>
      rw [List.flatMap_cons, List.filter_append, List.length_append, ih, hpart, List.flatten_cons,
        List.length_append]

theorem length_codeLines_listedFunction {part : List Instruction} (hpart : part ≠ [])
    (endLabel : Option String) :
    ((listedFunction part endLabel).lines.filter Line.isCode).length = part.length := by
  cases part with
  | nil => contradiction
  | cons first rest => rw [codeLines_listedFunction, List.length_map]

theorem length_codeLines_listedFunctions {parts : List (List Instruction)}
    (hparts : ∀ part ∈ parts, part ≠ []) (endLabel : Option String) :
    (((listedFunctions endLabel parts).flatMap FunctionDef.lines).filter Line.isCode).length =
      parts.flatten.length := by
  apply length_codeLines
  induction parts with
  | nil => exact .nil
  | cons part more ih =>
      rw [List.forall_mem_cons] at hparts
      exact .cons (length_codeLines_listedFunction hparts.1 _) (ih hparts.2)

/-- The labels of a part keep their places in the whole listing. -/
theorem labelAddresses_part {before : List (List Instruction)} {part : List Instruction}
    {after : List (List Instruction)} (hbefore : ∀ p ∈ before, p ≠ []) (hpart : part ≠ [])
    (endLabel : Option String) {entry : String × Nat}
    (h : entry ∈ labelAddresses (before.flatten.map (·.bytes.length)).sum
      (listedFunction part (if after.isEmpty then endLabel else none)).lines
      (part.map (·.bytes.length))) :
    entry ∈ labelAddresses 0
      ((listedFunctions endLabel (before ++ part :: after)).flatMap FunctionDef.lines)
      ((before ++ part :: after).flatten.map (·.bytes.length)) := by
  have hfront :
      (((before.map (listedFunction · none)).flatMap FunctionDef.lines).filter Line.isCode).length =
      (before.flatten.map (·.bytes.length)).length := by
    rw [List.length_map]
    apply length_codeLines
    rw [List.forall₂_map_left_iff, List.forall₂_same]
    exact fun p hp => length_codeLines_listedFunction (hbefore p hp) none
  have hown := length_codeLines_listedFunction hpart (if after.isEmpty then endLabel else none)
  rw [← List.length_map (f := fun i : Instruction => i.bytes.length)] at hown
  rw [listedFunctions_append, List.flatMap_append, List.flatten_append, List.map_append,
    labelAddresses_append hfront, listedFunctions, List.flatMap_cons, List.flatten_cons,
    List.map_append, labelAddresses_append hown, Nat.zero_add]
  exact List.mem_append_right _ (List.mem_append_left _ h)

/-! ## Places of instructions -/

theorem Consecutive.le_ip {is : List Instruction} {ip : Nat} (h : Consecutive ip is) :
    ∀ i ∈ is, ip ≤ i.ip ∧ i.ip + i.bytes.length ≤ ip + (is.map (·.bytes.length)).sum := by
  induction is generalizing ip with
  | nil => exact fun i hi => absurd hi List.not_mem_nil
  | cons i is ih =>
      obtain ⟨rfl, hips⟩ := h
      rw [List.map_cons, List.sum_cons, List.forall_mem_cons]
      refine ⟨by omega, fun j hj => ?_⟩
      have hj := ih hips j hj
      omega

theorem Consecutive.pairwise {is : List Instruction} {ip : Nat} (h : Consecutive ip is)
    (hpos : ∀ i ∈ is, 0 < i.bytes.length) : is.Pairwise fun i j => i.ip < j.ip := by
  induction is generalizing ip with
  | nil => exact .nil
  | cons i is ih =>
      rw [List.forall_mem_cons] at hpos
      refine .cons (fun j hj => ?_) (ih h.2 hpos.2)
      have hj := (h.2.le_ip j hj).1
      have hi := h.1
      omega

/-! ## Listings that can be assembled -/

/-- The disassembly of `code` consists of these parts, one for each frame opening. References from a
part lead to the beginning of a part, to an instruction of the same part, or from the last part to
the end of the code. -/
structure Relinkable (code : Bytes) (natives : NativeNames) (d : Disassembly)
    (parts : List (List Instruction)) : Prop where
  disassembled : disassemble code natives = .ok d
  consecutive : Consecutive 0 d.instructions
  decoded : ∀ i ∈ d.instructions, IsInstruction d.labels natives i.op i.operands i.bytes ∧
    i.Canonical
  flatten : parts.flatten = d.instructions
  enters : ∀ part ∈ parts, ∃ first rest, part = first :: rest ∧ first.op = .named .enter ∧
    ∀ i ∈ rest, i.op ≠ .named .enter
  jumps : ∀ before part after, parts = before ++ part :: after → ∀ i ∈ part, ∀ ip ∈ i.targets,
    (∃ e ∈ d.instructions, e.op = .named .enter ∧ e.ip = ip) ∨ (∃ j ∈ part, j.ip = ip) ∨
      (after = [] ∧ ip = d.codeLength)
  calls : ∀ i ∈ d.instructions, i.op = .named .call →
    ∃ e ∈ d.instructions, e.op = .named .enter ∧ e.ip = addressAt i.bytes 1

namespace Relinkable

variable {code : Bytes} {natives : NativeNames} {d : Disassembly} {parts : List (List Instruction)}

theorem bytes_pos (h : Relinkable code natives d parts) :
    ∀ i ∈ d.instructions, 0 < i.bytes.length := by
  intro i hi
  apply List.length_pos_iff.mpr
  intro hnil
  have hfirst := (h.decoded i hi).1.first
  rw [hnil] at hfirst
  cases hfirst

theorem pairwise (h : Relinkable code natives d parts) : d.instructions.Pairwise fun i j =>
    i.ip < j.ip :=
  h.consecutive.pairwise h.bytes_pos

theorem ip_lt (h : Relinkable code natives d parts) {i : Instruction} (hi : i ∈ d.instructions) :
    i.ip < d.codeLength := by
  have hbound := (h.consecutive.le_ip i hi).2
  have hpos := h.bytes_pos i hi
  rw [codeLength_of_disassemble h.disassembled]
  omega

/-- Instructions and the end of the code have different addresses. -/
theorem nodup_ips (h : Relinkable code natives d parts) :
    (d.instructions.map Instruction.ip ++ [d.codeLength]).Nodup := by
  rw [List.nodup_append]
  refine ⟨List.pairwise_map.mpr (h.pairwise.imp Nat.ne_of_lt), List.pairwise_singleton _ _, ?_⟩
  intro ip hip last hlast
  obtain ⟨i, hi, rfl⟩ := List.mem_map.mp hip
  rw [List.mem_singleton.mp hlast]
  exact Nat.ne_of_lt (h.ip_lt hi)

theorem mem_instructions (h : Relinkable code natives d parts) {part : List Instruction}
    (hpart : part ∈ parts) {i : Instruction} (hi : i ∈ part) : i ∈ d.instructions :=
  h.flatten ▸ List.mem_flatten_of_mem hpart hi

theorem label_enter (h : Relinkable code natives d parts) {e : Instruction}
    (he : e ∈ d.instructions) (hop : e.op = .named .enter) : e.label = some (entryLabel e.ip) := by
  rw [(decodeCut_of_disassemble h.disassembled he).1]
  exact lookup_labels_enter h.disassembled (fun i hi => (h.decoded i hi).2) he hop

/-- There is one instruction at an address. -/
theorem eq_of_ip (h : Relinkable code natives d parts) {i j : Instruction} (hi : i ∈ d.instructions)
    (hj : j ∈ d.instructions) (hip : i.ip = j.ip) : i = j := by
  exact List.inj_on_of_nodup_map (List.nodup_append.mp h.nodup_ips).1 hi hj hip

theorem lookup_other (h : Relinkable code natives d parts) {i : Instruction}
    (hi : i ∈ d.instructions) (hop : i.op ≠ .named .enter) :
    d.labels.lookup i.ip =
      if i.ip ∈ d.instructions.flatMap Instruction.targets then some (codeLabel i.ip)
      else none := by
  apply lookup_labels_other h.disassembled
  rintro e he heop heip
  exact hop (h.eq_of_ip he hi heip ▸ heop)

theorem lookup_end (h : Relinkable code natives d parts) : d.labels.lookup d.codeLength =
    if d.codeLength ∈ d.instructions.flatMap Instruction.targets then some (codeLabel d.codeLength)
    else none := by
  apply lookup_labels_other h.disassembled
  rintro e he heop heip
  exact absurd heip (Nat.ne_of_lt (h.ip_lt he))

/-- A label of an instruction that begins no function is made up from its address. -/
theorem label_other (h : Relinkable code natives d parts) {i : Instruction}
    (hi : i ∈ d.instructions) (hop : i.op ≠ .named .enter) {label : String}
    (hlabel : i.label = some label) : label = codeLabel i.ip := by
  rw [(decodeCut_of_disassemble h.disassembled hi).1, h.lookup_other hi hop] at hlabel
  split at hlabel
  · exact (Option.some.inj hlabel).symm
  · cases hlabel

theorem endLabel_eq (h : Relinkable code natives d parts) {label : String}
    (hlabel : d.endLabel? = some label) :
    label = codeLabel d.codeLength := by
  rw [Disassembly.endLabel?, h.lookup_end] at hlabel
  split at hlabel
  · exact (Option.some.inj hlabel).symm
  · cases hlabel

theorem splitBy_eq (h : Relinkable code natives d parts) :
    d.instructions.splitBy (fun _ i => i.op != .named .enter) = parts := by
  rw [← h.flatten]
  apply List.splitBy_flatten
  · intro hnil
    obtain ⟨first, rest, hpart, -⟩ := h.enters [] hnil
    cases hpart
  · intro part hpart
    obtain ⟨first, rest, rfl, -, hrest⟩ := h.enters part hpart
    have hother : ∀ i ∈ rest, (i.op != .named .enter) = true :=
      fun i hi => bne_iff_ne.mpr (hrest i hi)
    apply List.Pairwise.isChain
    exact .cons hother (List.pairwise_of_forall_mem_list fun _ _ j hj => hother j hj)
  · apply List.Pairwise.isChain
    apply List.pairwise_of_forall_mem_list
    intro a ha b hb
    obtain ⟨_, _, rfl, -⟩ := h.enters a ha
    obtain ⟨first, rest, rfl, hop, -⟩ := h.enters b hb
    refine ⟨List.cons_ne_nil _ _, List.cons_ne_nil _ _, ?_⟩
    rw [List.head_cons, hop]
    rfl

theorem functions_eq (h : Relinkable code natives d parts) :
    d.functions = listedFunctions d.endLabel? parts := by
  rw [Disassembly.functions, h.splitBy_eq]

/-! ### Keys -/

theorem name_eq (h : Relinkable code natives d parts) {first : Instruction}
    {rest : List Instruction} (hfirst : first ∈ d.instructions) (hop : first.op = .named .enter)
    (endLabel : Option String) :
    (listedFunction (first :: rest) endLabel).name = entryLabel first.ip := by
  have hname : (listedFunction (first :: rest) endLabel).name = first.label.getD "" := rfl
  rw [hname, h.label_enter hfirst hop]
  rfl

/-- Labels inside a part are made up from addresses, and no two of them from the same address. -/
theorem labels_part (h : Relinkable code natives d parts) {first : Instruction}
    {rest : List Instruction} (hpart : first :: rest ∈ parts) {endLabel : Option String}
    (hend : ∀ label ∈ endLabel, d.endLabel? = some label) :
    ∃ ips : List Nat, ips.Nodup ∧
      rest.filterMap Instruction.label ++ endLabel.toList = ips.map codeLabel := by
  obtain ⟨_, _, heq, -, hother⟩ := h.enters _ hpart
  obtain ⟨rfl, rfl⟩ := List.cons.inj heq
  have hsub : List.Sublist rest d.instructions := by
    rw [← h.flatten]
    exact (List.sublist_cons_self first rest).trans (List.sublist_flatten_of_mem hpart)
  have hrest : rest.filterMap Instruction.label =
      ((rest.filter (·.label.isSome)).map Instruction.ip).map codeLabel := by
    have hmem := hsub.subset
    clear hpart hsub heq
    induction rest with
    | nil => rfl
    | cons i rest ih =>
        rw [List.forall_mem_cons] at hother
        rw [List.cons_subset] at hmem
        rw [List.filterMap_cons, List.filter_cons, ih hother.2 hmem.2]
        cases hlabel : i.label with
        | none => rfl
        | some label =>
            rw [h.label_other hmem.1 hother.1 hlabel]
            rfl
  have hlast : endLabel.toList = (endLabel.map fun _ => d.codeLength).toList.map codeLabel := by
    cases endLabel with
    | none => rfl
    | some label => rw [h.endLabel_eq (hend label rfl)]; rfl
  refine ⟨(rest.filter (·.label.isSome)).map Instruction.ip ++
    (endLabel.map fun _ => d.codeLength).toList, ?_, ?_⟩
  · refine List.Nodup.sublist ?_ h.nodup_ips
    apply List.Sublist.append
    · exact (List.filter_sublist.trans hsub).map _
    · cases endLabel with
      | none => exact List.nil_sublist _
      | some label => exact List.Sublist.refl _
  · rw [List.map_append, ← hrest, ← hlast]

theorem nodup_keys (h : Relinkable code natives d parts) :
    ((listedFunctions d.endLabel? parts).flatMap FunctionDef.keys).Nodup := by
  apply nodup_flatMap_keys
  · intro f hf
    obtain ⟨part, hpart, last, rfl, -⟩ := mem_listedFunctions hf
    obtain ⟨first, rest, rfl, hop, -⟩ := h.enters part hpart
    rw [h.name_eq (h.mem_instructions hpart List.mem_cons_self) hop]
    exact noStop_entryLabel first.ip
  · intro f hf
    obtain ⟨part, hpart, last, rfl, hlast⟩ := mem_listedFunctions hf
    obtain ⟨first, rest, rfl, -⟩ := h.enters part hpart
    obtain ⟨ips, hips, hlabels⟩ := h.labels_part hpart hlast
    rw [codeLabels_listedFunction, hlabels, List.map_map]
    exact hips.map fun a b hab => foldName_numbered_inj hab
  · have hnames (endLabel : Option String) (parts : List (List Instruction)) :
        (listedFunctions endLabel parts).map (fun f => foldName f.name) =
          parts.map fun part => foldName ((part.head?.bind Instruction.label).getD "") := by
      induction parts with
      | nil => rfl
      | cons part more ih => exact congrArg (_ :: ·) ih
    have hpairs := h.pairwise
    rw [← h.flatten, List.pairwise_flatten] at hpairs
    rw [hnames]
    refine List.pairwise_map.mpr (hpairs.2.imp_of_mem fun {a b} ha hb hlt heq => ?_)
    obtain ⟨first, rest, rfl, hop, -⟩ := h.enters a ha
    obtain ⟨first', rest', rfl, hop', -⟩ := h.enters b hb
    have hlabel := h.label_enter (h.mem_instructions ha List.mem_cons_self) hop
    have hlabel' := h.label_enter (h.mem_instructions hb List.mem_cons_self) hop'
    simp only [List.head?_cons, Option.bind_some, hlabel, hlabel', Option.getD_some] at heq
    have hips := hlt first List.mem_cons_self first' List.mem_cons_self
    exact absurd (foldName_entryLabel_inj heq) (Nat.ne_of_lt hips)

/-! ### Addresses -/

abbrev address? (d : Disassembly) (parts : List (List Instruction)) : String → Option Nat :=
  labelTable (listedFunctions d.endLabel? parts) (d.instructions.map (·.bytes.length))

abbrev functionOf (d : Disassembly) (part : List Instruction) (after : List (List Instruction)) :
    FunctionDef :=
  listedFunction part (if after.isEmpty then d.endLabel? else none)

section
variable {before : List (List Instruction)} {first : Instruction} {rest : List Instruction}
  {after : List (List Instruction)}

theorem start_part (h : Relinkable code natives d parts)
    (hparts : parts = before ++ (first :: rest) :: after) :
    first.ip = (before.flatten.map (·.bytes.length)).sum ∧
      Consecutive first.ip (first :: rest) := by
  have hips := h.consecutive
  rw [← h.flatten, hparts, List.flatten_append, List.flatten_cons] at hips
  obtain ⟨hstart, hrest⟩ := hips.append.2.append.1
  rw [Nat.zero_add] at hstart hrest
  exact ⟨hstart, rfl, hstart ▸ hrest⟩

theorem address_of_mem (h : Relinkable code natives d parts)
    (hparts : parts = before ++ (first :: rest) :: after) {key : String} {ip : Nat}
    (hmem : (key, ip) ∈ labelAddresses first.ip (functionOf d (first :: rest) after).lines
      ((first :: rest).map (·.bytes.length))) : address? d parts key = some ip := by
  have hne : ∀ part ∈ parts, part ≠ [] := by
    intro part hpart
    obtain ⟨_, _, rfl, -⟩ := h.enters part hpart
    exact List.cons_ne_nil _ _
  rw [(h.start_part hparts).1] at hmem
  have hbefore : ∀ p ∈ before, p ≠ [] := fun p hp => hne p (hparts ▸ List.mem_append_left _ hp)
  have hlisted := labelAddresses_part hbefore (List.cons_ne_nil _ _) d.endLabel? hmem
  rw [← hparts, h.flatten] at hlisted
  refine lookup_of_mem ?_ hlisted
  have hlength := length_codeLines_listedFunctions hne d.endLabel?
  rw [h.flatten, ← List.length_map (f := fun i : Instruction => i.bytes.length)] at hlength
  rw [map_fst_labelAddresses_lines hlength]
  exact h.nodup_keys

/-- The name of a function leads to its frame opening. -/
theorem address_enter (h : Relinkable code natives d parts) {e : Instruction}
    (he : e ∈ d.instructions) (hop : e.op = .named .enter) :
    address? d parts (functionKey (entryLabel e.ip)) = some e.ip := by
  rw [← h.flatten] at he
  obtain ⟨part, hpart, he⟩ := List.mem_flatten.mp he
  obtain ⟨first, rest, rfl, hfirst, hrest⟩ := h.enters part hpart
  obtain rfl : e = first := by
    rcases List.mem_cons.mp he with heq | he
    · exact heq
    · exact absurd hop (hrest e he)
  obtain ⟨before, after, hparts⟩ := List.append_of_mem hpart
  apply h.address_of_mem hparts
  have hname : (functionOf d (e :: rest) after).name = entryLabel e.ip :=
    h.name_eq (h.mem_instructions hpart List.mem_cons_self) hop _
  rw [← hname]
  exact List.mem_cons_self

/-- A label of a part leads to the instruction that carries it. -/
theorem address_label (h : Relinkable code natives d parts)
    (hparts : parts = before ++ (first :: rest) :: after) {i : Instruction} (hi : i ∈ rest)
    {label : String} (hlabel : i.label = some label) :
    address? d parts (labelKey (functionOf d (first :: rest) after).name label) = some i.ip := by
  apply h.address_of_mem hparts
  rw [labelAddresses_listedFunction (h.start_part hparts).2]
  apply List.mem_cons_of_mem
  apply List.mem_append_left
  rw [List.mem_filterMap]
  exact ⟨i, hi, by rw [hlabel]; rfl⟩

theorem address_end (h : Relinkable code natives d parts)
    (hparts : parts = before ++ [first :: rest]) {label : String}
    (hlabel : d.endLabel? = some label) :
    address? d parts (labelKey (functionOf d (first :: rest) []).name label) =
      some d.codeLength := by
  apply h.address_of_mem hparts
  obtain ⟨hstart, hips⟩ := h.start_part hparts
  have hend : first.ip + ((first :: rest).map (·.bytes.length)).sum = d.codeLength := by
    rw [codeLength_of_disassemble h.disassembled, ← h.flatten, hparts, List.flatten_append,
      List.map_append, List.sum_append, hstart, List.flatten_singleton]
  rw [labelAddresses_listedFunction hips, hend]
  apply List.mem_cons_of_mem
  apply List.mem_append_right
  rw [List.isEmpty_nil, if_pos rfl, hlabel]
  exact List.mem_cons_self

/-! ### References -/

theorem mem_parts (hparts : parts = before ++ (first :: rest) :: after) : first :: rest ∈ parts :=
  hparts ▸ List.mem_append_right _ List.mem_cons_self

theorem codeLabels_functionOf (h : Relinkable code natives d parts)
    (hparts : parts = before ++ (first :: rest) :: after) : ∃ ips : List Nat,
      Lowering.codeLabels (functionOf d (first :: rest) after).body = ips.map codeLabel := by
  have hlast : ∀ label ∈ if after.isEmpty then d.endLabel? else none, d.endLabel? = some label := by
    intro label hlabel
    split at hlabel
    · exact hlabel
    · cases hlabel
  obtain ⟨ips, -, hlabels⟩ := h.labels_part (mem_parts hparts) hlast
  exact ⟨ips, by rw [codeLabels_listedFunction, hlabels]⟩

/-- No label of a part is called like a function. -/
theorem referenceKey_entryLabel (h : Relinkable code natives d parts)
    (hparts : parts = before ++ (first :: rest) :: after) (ip : Nat) :
    referenceKey (functionOf d (first :: rest) after).name
      (ownLabels (functionOf d (first :: rest) after).body)
      (entryLabel ip) = functionKey (entryLabel ip) := by
  obtain ⟨ips, hlabels⟩ := h.codeLabels_functionOf hparts
  rw [referenceKey, if_neg]
  rw [Assemble.ownLabels_eq, hlabels, List.map_map, List.contains_iff_mem]
  intro hmem
  obtain ⟨a, _, ha⟩ := List.mem_map.mp hmem
  exact foldName_codeLabel_ne_entryLabel a ip ha

theorem referenceKey_label {f : FunctionDef} {label : String}
    (hlabel : label ∈ Lowering.codeLabels f.body) :
    referenceKey f.name (ownLabels f.body) label = labelKey f.name label := by
  rw [referenceKey, if_pos]
  rw [Assemble.ownLabels_eq, List.contains_iff_mem]
  exact List.mem_map_of_mem hlabel

theorem leadsTo_enter (h : Relinkable code natives d parts) {key : String → String}
    {e : Instruction} (he : e ∈ d.instructions) (hop : e.op = .named .enter)
    (hkey : key (entryLabel e.ip) = functionKey (entryLabel e.ip)) :
    d.labels.LeadsTo (address? d parts) key e.ip := by
  refine ⟨entryLabel e.ip, ?_, ?_⟩
  · exact lookup_labels_enter h.disassembled (fun i hi => (h.decoded i hi).2) he hop
  · rw [hkey]
    exact h.address_enter he hop

/-- The names of jump targets lead to them. -/
theorem leadsTo_target (h : Relinkable code natives d parts)
    (hparts : parts = before ++ (first :: rest) :: after) {i : Instruction} (hi : i ∈ first :: rest)
    {ip : Nat} (hip : ip ∈ i.targets) :
    d.labels.LeadsTo (address? d parts) (referenceKey (functionOf d (first :: rest) after).name
      (ownLabels (functionOf d (first :: rest) after).body)) ip := by
  have hpart := mem_parts hparts
  have htarget : ip ∈ d.instructions.flatMap Instruction.targets :=
    List.mem_flatMap.mpr ⟨i, h.mem_instructions hpart hi, hip⟩
  obtain ⟨_, _, heq, hfirst, hrest⟩ := h.enters _ hpart
  obtain ⟨rfl, rfl⟩ := List.cons.inj heq
  rcases h.jumps _ _ _ hparts i hi ip hip with ⟨e, he, hop, rfl⟩ | ⟨j, hj, rfl⟩ | ⟨rfl, rfl⟩
  · exact h.leadsTo_enter he hop (h.referenceKey_entryLabel hparts e.ip)
  · have hmem := h.mem_instructions hpart hj
    rcases List.mem_cons.mp hj with rfl | hj
    · exact h.leadsTo_enter hmem hfirst (h.referenceKey_entryLabel hparts j.ip)
    · have hlookup := h.lookup_other hmem (hrest j hj)
      rw [if_pos htarget] at hlookup
      have hlabel := (decodeCut_of_disassemble h.disassembled hmem).1.trans hlookup
      refine ⟨codeLabel j.ip, hlookup, ?_⟩
      rw [referenceKey_label, h.address_label hparts hj hlabel]
      rw [codeLabels_listedFunction]
      exact List.mem_append_left _ (List.mem_filterMap.mpr ⟨j, hj, hlabel⟩)
  · have hlookup := h.lookup_end
    rw [if_pos htarget] at hlookup
    refine ⟨codeLabel d.codeLength, hlookup, ?_⟩
    rw [referenceKey_label, h.address_end hparts hlookup]
    rw [codeLabels_listedFunction, List.isEmpty_nil, if_pos rfl, Disassembly.endLabel?, hlookup]
    exact List.mem_append_right _ List.mem_cons_self

theorem encodesAs (h : Relinkable code natives d parts)
    (hnatives : natives.Consistent)
    (hparts : parts = before ++ (first :: rest) :: after) {i : Instruction}
    (hi : i ∈ first :: rest) :
    EncodesAs (address? d parts)
      (Encode.instruction (referenceKey (functionOf d (first :: rest) after).name
      (ownLabels (functionOf d (first :: rest) after).body)) i.op.mnemonic i.operands) i.bytes := by
  have hmem := h.mem_instructions (mem_parts hparts) hi
  obtain ⟨hinstruction, hcanonical⟩ := h.decoded i hmem
  refine encodesAs_of_isInstruction hinstruction hcanonical hnatives
    (fun ip hip => h.leadsTo_target hparts hi hip) fun hop => ?_
  obtain ⟨e, he, heop, hip⟩ := h.calls i hmem hop
  exact hip ▸ h.leadsTo_enter he heop rfl

end

/-! ### Code -/

/-- Every line of the listing is encoded as the bytes it was made from. The induction is on the
parts that are left. -/
theorem lines_encode (h : Relinkable code natives d parts)
    (hnatives : natives.Consistent)
    (withNames : Bool) {before after : List (List Instruction)} (hparts : parts = before ++ after) :
    ∃ groups, List.Forall₂ (Line.Encodes withNames)
        (((listedFunctions d.endLabel? after).flatMap FunctionDef.lines).filter Line.isCode)
          groups ∧
      (∀ pieces ∈ groups, ∀ p ∈ pieces, p.Placed (address? d parts)) ∧
      groups.map (filledAll fun key => (address? d parts key).getD 0) =
        after.flatten.map (·.bytes) := by
  induction after generalizing before with
  | nil => exact ⟨[], .nil, fun _ hp => absurd hp List.not_mem_nil, rfl⟩
  | cons part after ih =>
      have hnext : parts = (before ++ [part]) ++ after := by rw [hparts, List.append_cons]
      obtain ⟨groups, hgroups, hplaced, hbytes⟩ := ih hnext
      obtain ⟨first, rest, rfl, -⟩ :=
        h.enters part (hparts ▸ List.mem_append_right _ List.mem_cons_self)
      have hown : ∀ i ∈ first :: rest, ∃ pieces, Line.Encodes withNames
          (.instruction (functionOf d (first :: rest) after) i.op.mnemonic i.operands) pieces ∧
          (∀ p ∈ pieces, p.Placed (address? d parts)) ∧
          filledAll (fun key => (address? d parts key).getD 0) pieces = i.bytes :=
        fun i hi => h.encodesAs hnatives hparts hi
      choose! group hencodes hgroup hfilled using hown
      refine ⟨(first :: rest).map group ++ groups, ?_, ?_, ?_⟩
      · rw [listedFunctions, List.flatMap_cons, List.filter_append, codeLines_listedFunction]
        refine List.rel_append ?_ hgroups
        rw [List.forall₂_map_left_iff, List.forall₂_map_right_iff, List.forall₂_same]
        exact hencodes
      · intro pieces hpieces
        rcases List.mem_append.mp hpieces with hpieces | hpieces
        · obtain ⟨i, hi, rfl⟩ := List.mem_map.mp hpieces
          exact hgroup i hi
        · exact hplaced pieces hpieces
      · rw [List.map_append, hbytes, List.flatten_cons, List.map_append, List.map_map]
        congr 1
        exact List.map_congr_left hfilled

/-- The function at the beginning of the code is the entry function. -/
theorem orderFunctions_eq (h : Relinkable code natives d parts) :
    orderFunctions (listedFunctions d.endLabel? parts) = listedFunctions d.endLabel? parts := by
  cases hparts : parts with
  | nil => rfl
  | cons part more =>
      obtain ⟨first, rest, rfl, hop, -⟩ := h.enters part (hparts ▸ List.mem_cons_self)
      have hfirst : first ∈ d.instructions :=
        h.mem_instructions (hparts ▸ List.mem_cons_self) List.mem_cons_self
      have hip : first.ip = 0 := by
        have hips := h.consecutive
        rw [← h.flatten, hparts] at hips
        exact hips.1
      have hentry : (functionOf d (first :: rest) more).isEntry = true := by
        rw [FunctionDef.isEntry, FunctionDef.id, h.name_eq hfirst hop, hip]
        exact beq_self_eq_true _
      exact orderFunctions_cons hentry _

/-- The listing of relinkable code is assembled to that code. -/
theorem assemble_functions (h : Relinkable code natives d parts)
    (hnatives : natives.Consistent)
    {statics globals : List DataField} {staticSegment globalSegment : Segment}
    (hstatics : buildSegment statics = .ok staticSegment)
    (hglobals : buildSegment globals = .ok globalSegment) (withNames : Bool) :
    ∃ entries, assemble d.functions statics globals withNames = .ok {
      code := code
      statics := staticSegment.words
      globals := globalSegment.words
      argsCount := staticSegment.argsCount
      functions := entries } := by
  obtain ⟨groups, hgroups, hplaced, hbytes⟩ :=
    h.lines_encode hnatives withNames (List.nil_append parts).symm
  rw [h.flatten] at hbytes
  have hsizes : groups.map groupSize = d.instructions.map (·.bytes.length) := by
    have hlengths := congrArg (List.map List.length) hbytes
    simpa only [List.map_map, Function.comp_def, length_filledAll] using hlengths
  have hcode := bytes_of_disassemble h.disassembled
  rw [← hbytes] at hcode
  rw [← hcode, h.functions_eq]
  rw [address?, ← hsizes] at hplaced ⊢
  exact assemble_of_encodes h.orderFunctions_eq h.nodup_keys hgroups hplaced hstatics hglobals

end Relinkable
end GameScript
