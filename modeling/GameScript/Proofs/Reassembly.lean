import GameScript.Proofs.ListedFunctions

/-!
# Assembling a disassembly

The disassembly of a script can be assembled again, and the result is the same code. The functions
of the script open their frames themselves and carry no names; their statements open no frames,
their texts contain no zero character, and their references contain no full stop. Then the parts
between frame openings are the functions of the script, and since a label is known only inside its
function, a jump from one function leads to the beginning of another at most. That the names of the
script are lost does not matter.
-/
namespace GameScript

/-! ## Labels at instructions -/

/-- A label stands at an instruction or behind the last one. -/
theorem at_of_mem_labelAddresses {lines : List Line} {is : List Instruction} {ip : Nat}
    (hlen : (lines.filter Line.isCode).length = is.length) (hips : Consecutive ip is) {key : String}
    {a : Nat} (h : (key, a) ∈ labelAddresses ip lines (is.map (·.bytes.length))) :
    (∃ i ∈ is, i.ip = a) ∨ a = ip + (is.map (·.bytes.length)).sum := by
  induction lines generalizing is ip with
  | nil => cases h
  | cons line lines ih =>
      cases hline : line.isCode with
      | false =>
          obtain ⟨key', rfl⟩ := Line.eq_label hline
          rw [labelAddresses] at h
          rcases List.mem_cons.mp h with heq | h
          · obtain ⟨-, rfl⟩ := Prod.mk.inj heq
            cases is with
            | nil => exact .inr rfl
            | cons i is => exact .inl ⟨i, List.mem_cons_self, hips.1⟩
          · exact ih hlen hips h
      | true =>
          rw [List.filter_cons_of_pos hline, List.length_cons] at hlen
          cases is with
          | nil => cases hlen
          | cons i is =>
              rw [List.map_cons, labelAddresses_code hline] at h
              rw [List.map_cons, List.sum_cons, ← Nat.add_assoc]
              rcases ih (Nat.succ.inj hlen) hips.2 h with ⟨j, hj, hip⟩ | hend
              · exact .inl ⟨j, List.mem_cons_of_mem _ hj, hip⟩
              · exact .inr hend

theorem JumpOperand.noStop {mnemonic : String} {operands : List Operand} {offset : Nat}
    {name : String} (h : JumpOperand mnemonic operands offset name)
    (hoperands : ∀ x ∈ operands, x.Listable) :
    '.' ∉ name.toList := by
  cases h with
  | jump _ _ hname => exact hoperands (.ident name) (hname ▸ List.mem_cons_self)
  | @case i value _ _ hcase => exact hoperands (.case value name) (List.mem_of_getElem? hcase)

/-! ## Regions -/

namespace Region.Holds

variable {r : Reading} {f : FunctionDef} {region : Region}

/-- A region opens one frame, with its first instruction. -/
theorem enters (h : region.Holds false r f) (hnaked : f.naked = false)
    (hbody : ∀ s ∈ f.body, s.Listable) :
    ∃ first rest, region.instructions = first :: rest ∧ first.op = .named .enter ∧
      ∀ i ∈ rest, i.op ≠ .named .enter := by
  have hlines := h.lines
  have hsplit : f.lines.filter Line.isCode =
      .opening f :: (f.body.flatMap (Statement.lines f)).filter Line.isCode := by
    rw [FunctionDef.lines, hnaked]
    rfl
  rw [hsplit] at hlines
  cases hi : region.instructions with
  | nil =>
      rw [hi] at hlines
      cases hlines
  | cons first rest =>
      rw [hi] at hlines
      cases hlines with
      | cons hfirst hrest =>
          refine ⟨first, rest, rfl, hfirst.readsBack.1, fun i hi => ?_⟩
          obtain ⟨line, hmem, hline⟩ := exists_of_mem_forall₂ hrest hi
          obtain ⟨s, hs, hmem⟩ := List.mem_flatMap.mp (List.mem_filter.mp hmem).1
          rw [Statement.lines, List.mem_append, Option.mem_toList, Option.mem_toList] at hmem
          rcases hmem with hlabel | hinstruction
          · obtain ⟨label, _, rfl⟩ := Option.map_eq_some_iff.mp hlabel
            exact hline.readsBack.elim
          · obtain ⟨mnemonic, hm, rfl⟩ := Option.map_eq_some_iff.mp hinstruction
            exact hline.op_ne_enter ((hbody s hs).1 mnemonic hm)

theorem canonical (h : region.Holds false r f) (hbody : ∀ s ∈ f.body, s.Listable) :
    ∀ i ∈ region.instructions, i.Canonical := by
  intro i hi
  obtain ⟨line, hmem, hline⟩ := exists_of_mem_forall₂ h.lines hi
  rcases f.line_cases hmem with rfl | ⟨s, hs, mnemonic, hm, rfl⟩
  · exact hline.canonical_opening
  · exact hline.canonical_instruction ((hbody s hs).1 mnemonic hm) (hbody s hs).2

/-- A jump leads to a function, to an instruction of the region or behind it. -/
theorem jumps_listable (h : region.Holds false r f) (hbody : ∀ s ∈ f.body, s.Listable) :
    ∀ i ∈ region.instructions, ∀ ip ∈ i.targets,
      (∃ name, '.' ∉ name.toList ∧ r.address? (functionKey name) = some ip) ∨
        (∃ j ∈ region.instructions, j.ip = ip) ∨
          ip = region.entry + (region.instructions.map (·.bytes.length)).sum := by
  intro i hi ip hip
  obtain ⟨line, hmem, hline⟩ := exists_of_mem_forall₂ h.lines hi
  rcases f.line_cases hmem with rfl | ⟨s, hs, mnemonic, hm, rfl⟩
  · -- The opening of a frame has no targets.
    rw [Instruction.targets, hline.readsBack.1] at hip
    cases hip
  · obtain ⟨offset, name, hoperand, rfl⟩ := hline.jumpOperand hip
    obtain ⟨pieces, hencodes, hplaced, hbytes⟩ := hline.encodes
    have haddress := Encode.address_of_jumpOperand hencodes hplaced hoperand []
    rw [List.append_nil] at haddress
    have hread : filledAll (fun key => (r.address? key).getD 0) pieces = i.bytes := hbytes.symm
    rw [hread, referenceKey] at haddress
    split at haddress
    · next hown =>
        right
        have hkey : labelKey f.name name ∈ f.keys := by
          rw [Assemble.ownLabels_eq, List.contains_iff_mem] at hown
          obtain ⟨label, hlabel, hsame⟩ := List.mem_map.mp hown
          have heq : labelKey f.name label = labelKey f.name name := by
            rw [labelKey, hsame, labelKey]
          exact heq ▸ List.mem_cons_of_mem _ (List.mem_map_of_mem hlabel)
        have hlen := h.lines.length_eq
        have hlengths : (f.lines.filter Line.isCode).length =
            (region.instructions.map (·.bytes.length)).length := by rw [hlen, List.length_map]
        rw [← f.filterMap_key?_lines, ← map_fst_labelAddresses hlengths region.entry] at hkey
        obtain ⟨⟨key, a⟩, ha, hkey⟩ := List.mem_map.mp hkey
        obtain rfl : key = labelKey f.name name := hkey
        have hsame := h.labels _ _ ha
        rw [haddress] at hsame
        rw [Option.some.inj hsame]
        exact at_of_mem_labelAddresses hlen h.consecutive ha
    · exact .inl ⟨name, hoperand.noStop (hbody s hs).2, haddress⟩

theorem calls_listable (h : region.Holds false r f) (hbody : ∀ s ∈ f.body, s.Listable) :
    ∀ i ∈ region.instructions, i.op = .named .call →
      ∃ name, '.' ∉ name.toList ∧ r.address? (functionKey name) = some (addressAt i.bytes 1) := by
  intro i hi hop
  obtain ⟨line, hmem, hline⟩ := exists_of_mem_forall₂ h.lines hi
  rcases f.line_cases hmem with rfl | ⟨s, hs, mnemonic, hm, rfl⟩
  · rw [hline.readsBack.1] at hop
    cases hop
  · obtain ⟨hmnemonic, name, _, hname, -⟩ :=
      Reading.Instruction.ofMnemonic hline.readsBack hop (.inr rfl)
    obtain ⟨pieces, hencodes, hplaced, hbytes⟩ := hline.encodes
    have haddress := Encode.address_of_callOperand hencodes hplaced ⟨hmnemonic, hname⟩ []
    rw [List.append_nil] at haddress
    exact ⟨name, (hbody s hs).2 (.ident name) (hname ▸ List.mem_cons_self), hbytes ▸ haddress⟩

/-- The key of a function stands at its first instruction. -/
theorem entry_ip (h : region.Holds false r f) {first : Instruction} {rest : List Instruction}
    (hregion : region.instructions = first :: rest) :
    r.address? (functionKey f.name) = some first.ip := by
  have hips := h.consecutive
  rw [hregion] at hips
  rw [hips.1]
  exact h.labels _ _ List.mem_cons_self

end Region.Holds

/-! ## Assembled code -/

/-- A key without a full stop is that of a function. -/
theorem AssembledAs.function_of_key {withNames : Bool} {fs : List FunctionDef}
    {script : AssembledScript} {address? : String → Option Nat} {groups : List (List Piece)}
    (h : AssembledAs withNames fs script address? groups) {name : String}
    (hname : '.' ∉ name.toList) {ip : Nat} (hip : address? (functionKey name) = some ip) :
    ∃ f ∈ fs, address? (functionKey f.name) = some ip := by
  have hlen : ((fs.flatMap FunctionDef.lines).filter Line.isCode).length =
      (groups.map groupSize).length := by
    rw [h.encodes.length_eq, List.length_map]
  have hkey : functionKey name ∈ fs.flatMap FunctionDef.keys := by
    rw [← map_fst_labelAddresses_lines hlen]
    exact List.mem_map_of_mem (f := Prod.fst) ((h.address _ _).mp hip)
  obtain ⟨f, hf, hkey⟩ := List.mem_flatMap.mp hkey
  rcases List.mem_cons.mp hkey with heq | hkey
  · exact ⟨f, hf, heq ▸ hip⟩
  · obtain ⟨label, _, heq⟩ := List.mem_map.mp hkey
    have hstop : '.' ∈ (functionKey name).toList := by
      rw [← heq, toList_labelKey]
      exact List.mem_append_right _ List.mem_cons_self
    exact absurd (mem_of_mem_foldName rfl hstop) hname

/-- The disassembly consists of regions, one for each of the functions. They open their frames
themselves, and nothing else is referred to by a name without a full stop. -/
structure ListableRegions (natives : NativeNames) (d : Disassembly) (address? : String → Option Nat)
    (fs : List FunctionDef) (regions : List Region) : Prop where
  holds : List.Forall₂ (Region.Holds false ⟨d.labels, natives, address?⟩) fs regions
  flatten : (regions.map Region.instructions).flatten = d.instructions
  naked : ∀ f ∈ fs, f.naked = false
  listable : ∀ f ∈ fs, ∀ s ∈ f.body, s.Listable
  function : ∀ name ip, '.' ∉ name.toList → address? (functionKey name) = some ip →
    ∃ f ∈ fs, address? (functionKey f.name) = some ip

namespace ListableRegions

variable {code : Bytes} {natives : NativeNames} {d : Disassembly} {address? : String → Option Nat}
  {fs : List FunctionDef} {regions : List Region}

theorem mem_instructions (h : ListableRegions natives d address? fs regions) {region : Region}
    (hregion : region ∈ regions) {i : Instruction} (hi : i ∈ region.instructions) :
    i ∈ d.instructions :=
  h.flatten ▸ List.mem_flatten_of_mem (List.mem_map_of_mem hregion) hi

theorem exists_region (h : ListableRegions natives d address? fs regions) {i : Instruction}
    (hi : i ∈ d.instructions) : ∃ region ∈ regions, i ∈ region.instructions ∧
      ∃ f ∈ fs, region.Holds false ⟨d.labels, natives, address?⟩ f := by
  rw [← h.flatten] at hi
  obtain ⟨part, hpart, hi⟩ := List.mem_flatten.mp hi
  obtain ⟨region, hregion, rfl⟩ := List.mem_map.mp hpart
  exact ⟨region, hregion, hi, exists_of_mem_forall₂ h.holds hregion⟩

theorem enters (h : ListableRegions natives d address? fs regions) {region : Region}
    (hregion : region ∈ regions) : ∃ first rest, region.instructions = first :: rest ∧
      first.op = .named .enter ∧ ∀ i ∈ rest, i.op ≠ .named .enter := by
  obtain ⟨f, hf, hholds⟩ := exists_of_mem_forall₂ h.holds hregion
  exact hholds.enters (h.naked f hf) (h.listable f hf)

/-- A function is referred to by the address of its frame opening. -/
theorem enter_of_key (h : ListableRegions natives d address? fs regions) {name : String}
    (hname : '.' ∉ name.toList) {ip : Nat} (hip : address? (functionKey name) = some ip) :
    ∃ e ∈ d.instructions, e.op = .named .enter ∧ e.ip = ip := by
  obtain ⟨f, hf, hip⟩ := h.function name ip hname hip
  obtain ⟨region, hregion, hholds⟩ := exists_of_mem_forall₂ h.holds.flip hf
  obtain ⟨first, rest, heq, hop, -⟩ := h.enters hregion
  have hfirst := hholds.entry_ip heq
  exact ⟨first, h.mem_instructions hregion (heq ▸ List.mem_cons_self), hop,
    Option.some.inj (hfirst.symm.trans hip)⟩

/-- The end of a region is where the next one begins. -/
theorem end_of_region (h : ListableRegions natives d address? fs regions)
    (hd : disassemble code natives = .ok d) (hips : Consecutive 0 d.instructions) {region : Region}
    {before after : List (List Instruction)}
    (hparts : regions.map Region.instructions = before ++ region.instructions :: after)
    (hconsecutive : Consecutive region.entry region.instructions) (hne : region.instructions ≠ []) :
    let stop := region.entry + (region.instructions.map (·.bytes.length)).sum
    (∃ e ∈ d.instructions, e.op = .named .enter ∧ e.ip = stop) ∨ after = [] ∧
        stop = d.codeLength := by
  intro stop
  rw [← h.flatten, hparts, List.flatten_append, List.flatten_cons] at hips
  obtain ⟨-, hrest⟩ := hips.append
  rw [Nat.zero_add] at hrest
  have hstart : (before.flatten.map (·.bytes.length)).sum = region.entry := by
    obtain ⟨first, rest, heq⟩ := List.exists_cons_of_ne_nil hne
    rw [heq] at hrest hconsecutive
    exact hrest.1.symm.trans hconsecutive.1
  cases after with
  | nil =>
      refine .inr ⟨rfl, ?_⟩
      rw [codeLength_of_disassemble hd, ← h.flatten, hparts, List.flatten_append,
        List.flatten_singleton, List.map_append, List.sum_append, hstart]
  | cons next after =>
      have hnext : next ∈ regions.map Region.instructions :=
        hparts ▸ List.mem_append_right _ (List.mem_cons_of_mem _ List.mem_cons_self)
      obtain ⟨region', hregion', rfl⟩ := List.mem_map.mp hnext
      obtain ⟨e, rest, heq, hop, -⟩ := h.enters hregion'
      have hfollows := hrest.append.2
      rw [hstart, List.flatten_cons, heq] at hfollows
      exact .inl ⟨e, h.mem_instructions hregion' (heq ▸ List.mem_cons_self), hop, hfollows.1⟩

theorem relinkable (h : ListableRegions natives d address? fs regions)
    (hd : disassemble code natives = .ok d) (hips : Consecutive 0 d.instructions)
    (hdecoded : ∀ i ∈ d.instructions, IsInstruction d.labels natives i.op i.operands i.bytes) :
    Relinkable code natives d (regions.map Region.instructions) := by
  constructor
  case disassembled => exact hd
  case consecutive => exact hips
  case flatten => exact h.flatten
  case decoded =>
    intro i hi
    obtain ⟨region, -, hmem, f, hf, hholds⟩ := h.exists_region hi
    exact ⟨hdecoded i hi, hholds.canonical (h.listable f hf) i hmem⟩
  case enters =>
    intro part hpart
    obtain ⟨region, hregion, rfl⟩ := List.mem_map.mp hpart
    exact h.enters hregion
  case jumps =>
    intro before part after hparts i hi ip hip
    have hpart : part ∈ regions.map Region.instructions :=
      hparts ▸ List.mem_append_right _ List.mem_cons_self
    obtain ⟨region, hregion, rfl⟩ := List.mem_map.mp hpart
    obtain ⟨f, hf, hholds⟩ := exists_of_mem_forall₂ h.holds hregion
    rcases hholds.jumps_listable (h.listable f hf) i hi ip hip
      with ⟨name, hname, haddress⟩ | hinside | rfl
    · exact .inl (h.enter_of_key hname haddress)
    · exact .inr (.inl hinside)
    · rcases h.end_of_region hd hips hparts hholds.consecutive (List.ne_nil_of_mem hi)
        with hnext | hlast
      · exact .inl hnext
      · exact .inr (.inr hlast)
  case calls =>
    intro i hi hop
    obtain ⟨region, -, hmem, f, hf, hholds⟩ := h.exists_region hi
    obtain ⟨name, hname, haddress⟩ := hholds.calls_listable (h.listable f hf) i hmem hop
    exact h.enter_of_key hname haddress

end ListableRegions

theorem isInstruction_of_decoded {withNames : Bool} {code : Bytes} {natives : NativeNames}
    {d : Disassembly} (h : disassemble code natives = .ok d) {i : Instruction}
    (hi : i ∈ d.instructions) {address? : String → Option Nat} {line : Line}
    (hline : line.Decoded withNames ⟨d.labels, natives, address?⟩ i) :
    IsInstruction d.labels natives i.op i.operands i.bytes := by
  obtain ⟨pieces, hencodes, hplaced, hbytes⟩ := hline.encodes
  obtain ⟨op, operands, hinstruction, -⟩ := hencodes.readsBack hplaced
  rw [← hbytes] at hinstruction
  obtain ⟨-, rest, hdecode⟩ := decodeCut_of_disassemble h hi
  rw [decodeCut_ok hinstruction] at hdecode
  rw [← Except.ok.inj hdecode]
  exact hinstruction

section
variable {functions : List FunctionDef} {statics globals : List DataField}
  {script : AssembledScript}

/-- The disassembly of a script can be cut into its functions. -/
theorem exists_relinkable (h : assemble functions statics globals false = .ok script)
    (hframes : ∀ f ∈ functions, f.naked = false) (hbody : ∀ f ∈ functions, ∀ s ∈ f.body, s.Listable)
    (natives : NativeNames) : ∃ d parts, Relinkable script.code natives d parts := by
  obtain ⟨address?, groups, hscript⟩ := assembledAs_of_assemble h
  obtain ⟨d, hd, hips, hsizes, hlines⟩ :=
    disassemble_of_encodes hscript.encodes hscript.placed natives
  rw [← hscript.code] at hd
  have hmem : ∀ f ∈ orderFunctions functions, f ∈ functions := fun f hf =>
    (perm_orderFunctions functions).mem_iff.mp hf
  have htable : ∀ key a, (key, a) ∈
      labelAddresses 0 ((orderFunctions functions).flatMap FunctionDef.lines)
      (d.instructions.map (·.bytes.length)) → address? key = some a := by
    rw [hsizes]
    exact fun key a => (hscript.address key a).mpr
  obtain ⟨hholds, hflat, -⟩ :=
    cutRegions_holds (r := ⟨d.labels, natives, address?⟩) hscript.entries hlines hips htable
  have hregions : ListableRegions natives d address? (orderFunctions functions)
      (cutRegions script.functions d.instructions) := by
    constructor
    case holds => exact hholds
    case flatten => exact (List.flatMap_def ..).symm.trans hflat
    case naked => exact fun f hf => hframes f (hmem f hf)
    case listable => exact fun f hf => hbody f (hmem f hf)
    case function => exact fun name ip hname hip => hscript.function_of_key hname hip
  refine ⟨d, _, hregions.relinkable hd hips fun i hi => ?_⟩
  obtain ⟨line, -, hline⟩ := exists_of_mem_forall₂ hlines hi
  exact isInstruction_of_decoded hd hi hline

/-- A disassembly can be assembled again. A script without names that is taken apart and put
together is the same script, but for the names of its functions. -/
theorem assemble_disassembly {natives : NativeNames}
    (h : assemble functions statics globals false = .ok script)
    (hframes : ∀ f ∈ functions, f.naked = false) (hbody : ∀ f ∈ functions, ∀ s ∈ f.body, s.Listable)
    (hnatives : natives.Consistent) :
    ∃ d, disassemble script.code natives = .ok d ∧
      ∀ withNames, ∃ entries, assemble d.functions statics globals withNames =
        .ok { script with functions := entries } := by
  obtain ⟨d, parts, hparts⟩ := exists_relinkable h hframes hbody natives
  refine ⟨d, hparts.disassembled, fun withNames => ?_⟩
  obtain ⟨_, _, h⟩ := bind_eq_ok.mp h
  obtain ⟨_, _, h⟩ := bind_eq_ok.mp h
  obtain ⟨staticSegment, hstatics, h⟩ := bind_eq_ok.mp h
  obtain ⟨globalSegment, hglobals, h⟩ := bind_eq_ok.mp h
  obtain rfl := Except.ok.inj h
  exact hparts.assemble_functions hnatives hstatics hglobals withNames

end

/-- Two functions that jump to their own beginnings and ends. The end of the first is the beginning
of the second. -/
def readyLoop : List FunctionDef := [
  { name := "helper"
    body := [
      { mnemonic := some "jz", operands := [.ident "Done"] },
      .op .jump [.ident "helper"],
      .mark "done"] },
  { name := "Main"
    body := [
      { label := some "top", mnemonic := some "push_const", operands := [.int 300] },
      .op .switch [.case (-1) "TOP", .case 7 "out", .case 8 "helper"],
      .op .string [.text "ready"],
      .op .native [.int 1, .int 0, .ident "Wait"],
      .op .call [.ident "helper"],
      .mark "out"] }]

theorem assemble_disassembly_readyLoop :
    ∃ script d entries, assemble readyLoop [] [] false = .ok script ∧ script.code.length = 69 ∧
      disassemble script.code (.ofNames ["WAIT"]) = .ok d ∧
      assemble d.functions [] [] true = .ok { script with functions := entries } := by
  have hlength : (assemble readyLoop [] [] false).toOption.map (·.code.length) =
    some 69 := by decide +kernel
  obtain ⟨script, hscript, hlength⟩ := Option.map_eq_some_iff.mp hlength
  have hok := ok_of_toOption hscript
  have hnatives : (NativeNames.ofNames ["WAIT"]).Consistent := by decide +kernel
  obtain ⟨d, hd, hagain⟩ :=
    assemble_disassembly hok (by decide +kernel) (by decide +kernel) hnatives
  obtain ⟨entries, hentries⟩ := hagain true
  exact ⟨script, d, entries, hok, hlength, hd, hentries⟩

end GameScript
