import GameScript.Proofs.CodeRegions
import GameScript.Proofs.CompileOutcome
import GameScript.Proofs.GeneratedReturns

/-!
# Control flow stays inside functions

The code of an image consists of one region for each function of the script. A region opens the
frame of its function, ends by leaving it, and is left in between only by calls, which go to the
beginning of a region, and by returns, which all give back the same slots. Jumps and switches lead
to instructions of their own region. This holds of every image: names that could be confused with
generated ones make assembly fail, so nothing has to be assumed of them.
-/
namespace GameScript

/-- The region is the code of `f`, and control does not leave it other than by calls of functions
that begin at one of `entries` and by returns from `f`. -/
structure Region.StaysInside (f : TypedFunction) (entries : List Nat) (region : Region) : Prop where
  opening : ∃ first rest name, region.instructions = first :: rest ∧ first.ip = region.entry ∧
    first.op = .named .enter ∧ first.operands =
      .int f.argSlots :: .int (f.argSlots + 2 + variableSlots f.locals : Nat) :: name
  closing : ∃ front last, region.instructions = front ++ [last] ∧ last.op = .named .leave
  jumps : ∀ i ∈ region.instructions, ∀ ip ∈ i.targets, ∃ j ∈ region.instructions, j.ip = ip
  calls : ∀ i ∈ region.instructions, i.op = .named .call → addressAt i.bytes 1 ∈ entries
  returns : ∀ i ∈ region.instructions, i.op = .named .leave →
    i.operands = [.int f.argSlots, .int f.resultSlots]

/-! ## Operands of generated statements -/

theorem ofMnemonic?_pushMnemonic : Op.ofMnemonic? Statement.pushMnemonic = none := by decide +kernel

/-- Apart from the shortest push, generated statements spell mnemonics as the opcodes do. -/
theorem Statement.Generated.mnemonic_eq {Γ : TypingEnv} {target : String → Prop} {s : Statement}
    {mnemonic : String} {o : Opcode} (hs : s.Generated Γ target) (hm : s.mnemonic = some mnemonic)
    (hop : Op.ofMnemonic? mnemonic = some (.named o)) : mnemonic = o.mnemonic := by
  have hspelled (o' : Opcode) (h : some o'.mnemonic = some mnemonic) : mnemonic = o.mnemonic := by
    obtain rfl := Option.some.inj h
    rw [o'.mnemonic_spec.1] at hop
    rw [Op.named.inj (Option.some.inj hop)]
  have hpush (h : some Statement.pushMnemonic = some mnemonic) : mnemonic = o.mnemonic := by
    rw [← Option.some.inj h, ofMnemonic?_pushMnemonic] at hop
    cases hop
  cases hs with
  | plain hs =>
      cases hs with
      | op _ => exact hspelled _ hm
      | string => exact hspelled _ hm
      | call _ => exact hspelled _ hm
      | native => exact hspelled _ hm
      | assignString => exact hspelled _ hm
      | pushInt => exact hpush hm
      | pushFloat => exact hpush hm
  | mark => cases hm
  | jump _ _ => exact hspelled _ hm
  | switch _ => exact hspelled _ hm
  | leave => exact hspelled _ hm

section
variable {Γ : TypingEnv} {target : String → Prop} {s : Statement} {mnemonic name : String}

/-- Label operands of generated statements are labels that may be jumped to. -/
theorem Statement.Generated.target_of_jumpOperand {offset : Nat} (hs : s.Generated Γ target)
    (hm : s.mnemonic = some mnemonic) (h : JumpOperand mnemonic s.operands offset name) :
    target name := by
  cases h with
  | @jump o _ hop hjump hoperands =>
      have hmnemonic := hs.mnemonic_eq hm hop
      have hlayout := o.layout_of_isJump hjump
      rw [hmnemonic] at hm
      cases hs with
      | plain hs =>
          cases hs with
          | op hnone =>
              obtain rfl := Opcode.mnemonic_inj (Option.some.inj hm)
              rw [hnone] at hlayout
              cases hlayout
          | pushInt | pushFloat => cases hoperands
          | string | native | assignString => cases hoperands
          | call _ =>
              obtain rfl := Opcode.mnemonic_inj (Option.some.inj hm)
              cases hjump
      | mark => cases hm
      | jump _ hlabel =>
          obtain ⟨rfl⟩ := hoperands
          exact hlabel
      | switch _ =>
          obtain rfl := Opcode.mnemonic_inj (Option.some.inj hm)
          cases hjump
      | leave => cases hoperands
  | @case i value _ hop hcase =>
      have hmnemonic := hs.mnemonic_eq hm hop
      have hmem := List.mem_of_getElem? hcase
      rw [hmnemonic] at hm
      cases hs with
      | plain hs => cases hs <;> simp [Statement.op, Statement.pushInt, Statement.push] at hmem
      | mark => cases hm
      | jump _ _ => simp [Lowering.jumpTo, Statement.op] at hmem
      | switch hcases =>
          obtain ⟨v, label, heq, hlabel⟩ := hcases _ hmem
          cases heq
          exact hlabel
      | leave => simp [Statement.op] at hmem

/-- Calls in generated code are of functions that exist. -/
theorem Statement.Generated.function_of_callOperand (hs : s.Generated Γ target)
    (hm : s.mnemonic = some mnemonic) (h : CallOperand mnemonic s.operands name) :
    ∃ result params, Γ.function name result params := by
  obtain ⟨hop, hoperands⟩ := h
  rw [hs.mnemonic_eq hm hop] at hm
  cases hs with
  | plain hs =>
      cases hs with
      | op hnone =>
          obtain rfl := Opcode.mnemonic_inj (Option.some.inj hm)
          cases hnone
      | pushInt | pushFloat => cases hoperands
      | string | native | assignString => cases hoperands
      | @call _ result params hf =>
          cases hoperands
          exact ⟨result, params, hf⟩
  | mark => cases hm
  | jump hlayout _ =>
      obtain rfl := Opcode.mnemonic_inj (Option.some.inj hm)
      cases hlayout
  | switch _ => cases Opcode.mnemonic_inj (Option.some.inj hm)
  | leave => cases hoperands

end

/-! ## Regions of generated functions -/

namespace Region.Holds

open Lowering (Forms ReturnsBy codeLabels)
open Statement (op)

variable {withNames : Bool} {r : Reading} {d : FunctionDef} {region : Region} {Γ : TypingEnv}

theorem opening (h : region.Holds withNames r d) (hnaked : d.naked = false) :
    ∃ first rest name, region.instructions = first :: rest ∧ first.ip = region.entry ∧
      first.op = .named .enter ∧
      first.operands = .int d.argSlots :: .int d.frameSize :: name := by
  have hlines := h.lines
  have hconsecutive := h.consecutive
  rw [FunctionDef.lines, List.filter_cons_of_neg (by simp [Line.isCode]), hnaked] at hlines
  cases hi : region.instructions with
  | nil =>
      rw [hi] at hlines
      cases hlines
  | cons first rest =>
      rw [hi] at hlines hconsecutive
      cases hlines with
      | cons hfirst _ =>
          obtain ⟨hop, hoperands⟩ := hfirst.readsBack
          exact ⟨first, rest, _, rfl, hconsecutive.1, hop, hoperands⟩

/-- If the body of a function ends in a return, so do its lines. -/
theorem lines_of_body {front : List Statement} {operands : List Operand}
    (hbody : d.body = front ++ [op .leave operands]) :
    d.lines = (Line.label (functionKey d.name) :: ((if d.naked then [] else [Line.opening d]) ++
      front.flatMap (Statement.lines d))) ++ [.instruction d Opcode.leave.mnemonic operands] := by
  rw [FunctionDef.lines, hbody, List.flatMap_append, List.cons_append, List.append_assoc]
  rfl

theorem closing (h : region.Holds withNames r d) {front : List Statement} {operands : List Operand}
    (hbody : d.body = front ++ [op .leave operands]) :
    ∃ front last, region.instructions = front ++ [last] ∧ last.op = .named .leave := by
  have hlines := h.lines
  rw [lines_of_body hbody, List.filter_append] at hlines
  obtain ⟨first, last, heq, -, hlast⟩ := forall₂_append_split hlines
  cases hlast with
  | @cons _ i _ _ hi hnil =>
      cases hnil
      refine ⟨first, i, heq, ?_⟩
      have hread : r.Instruction _ Opcode.leave.mnemonic operands i.op i.operands := hi.readsBack
      unfold Reading.Instruction at hread
      rw [Opcode.leave.mnemonic_spec.1, Opcode.leave.mnemonic_spec.2] at hread
      exact (Option.some.inj hread.1).symm

/-- Every label of a function that ends in a return stands at one of its instructions. -/
theorem label (h : region.Holds withNames r d) {front : List Statement} {operands : List Operand}
    (hbody : d.body = front ++ [op .leave operands]) {name : String}
    (hname : name ∈ codeLabels d.body) :
    ∃ i ∈ region.instructions, r.address? (labelKey d.name name) = some i.ip := by
  obtain ⟨s, hs, hlabel⟩ := List.mem_filterMap.mp hname
  rw [hbody, List.mem_append] at hs
  have hfront : s ∈ front := by
    rcases hs with hs | hs
    · exact hs
    · rw [List.mem_singleton.mp hs] at hlabel
      cases hlabel
  have hkey : Line.label (labelKey d.name name) ∈ s.lines d := by
    rw [Statement.lines, hlabel]
    exact List.mem_append_left _ List.mem_cons_self
  have hmem := List.mem_cons_of_mem (Line.label (functionKey d.name)) (List.mem_append_right
    (if d.naked then [] else [Line.opening d]) (List.mem_flatMap.mpr ⟨s, hfront, hkey⟩))
  have hlength := h.lines.length_eq
  have hlabels := h.labels
  rw [lines_of_body hbody] at hlength hlabels
  obtain ⟨i, hi, haddress⟩ := label_at_instruction rfl hlength h.consecutive hmem
  exact ⟨i, hi, hlabels _ _ haddress⟩

theorem jumps (h : region.Holds withNames r d) (hforms : Forms Γ (· ∈ codeLabels d.body) d.body)
    {front : List Statement} {operands : List Operand}
    (hbody : d.body = front ++ [op .leave operands]) :
    ∀ i ∈ region.instructions, ∀ ip ∈ i.targets, ∃ j ∈ region.instructions, j.ip = ip := by
  intro i hi ip hip
  obtain ⟨line, hmem, hline⟩ := exists_of_mem_forall₂ h.lines hi
  rcases d.line_cases hmem with rfl | ⟨s, hs, mnemonic, hm, rfl⟩
  · -- The opening of a frame has no targets.
    rw [Instruction.targets, hline.readsBack.1] at hip
    cases hip
  · obtain ⟨offset, name, hoperand, rfl⟩ := hline.jumpOperand hip
    have hname := (hforms s hs).target_of_jumpOperand hm hoperand
    have hown : (ownLabels d.body).contains (foldName name) = true := by
      rw [Assemble.ownLabels_eq, List.contains_iff_mem]
      exact List.mem_map_of_mem hname
    obtain ⟨pieces, hencodes, hplaced, hbytes⟩ := hline.encodes
    have haddress := Encode.address_of_jumpOperand hencodes hplaced hoperand []
    rw [referenceKey, if_pos hown, List.append_nil] at haddress
    obtain ⟨j, hj, hlabel⟩ := h.label hbody hname
    rw [hlabel] at haddress
    exact ⟨j, hj, hbytes ▸ Option.some.inj haddress⟩

theorem calls (h : region.Holds withNames r d) {target : String → Prop}
    (hforms : Forms Γ target d.body) :
    ∀ i ∈ region.instructions, i.op = .named .call → ∃ name result params,
      Γ.function name result params ∧
        r.address? (functionKey name) = some (addressAt i.bytes 1) := by
  intro i hi hop
  obtain ⟨line, hmem, hline⟩ := exists_of_mem_forall₂ h.lines hi
  rcases d.line_cases hmem with rfl | ⟨s, hs, mnemonic, hm, rfl⟩
  · rw [hline.readsBack.1] at hop
    cases hop
  · obtain ⟨hmnemonic, name, _, hname, -⟩ :=
      Reading.Instruction.ofMnemonic hline.readsBack hop (.inr rfl)
    have hoperand : CallOperand mnemonic s.operands name := ⟨hmnemonic, hname⟩
    obtain ⟨result, params, hf⟩ := (hforms s hs).function_of_callOperand hm hoperand
    obtain ⟨pieces, hencodes, hplaced, hbytes⟩ := hline.encodes
    have haddress := Encode.address_of_callOperand hencodes hplaced hoperand []
    rw [List.append_nil] at haddress
    exact ⟨name, result, params, hf, hbytes ▸ haddress⟩

theorem argSlots_lt (h : region.Holds withNames r d) (hnaked : d.naked = false) :
    d.argSlots < 0x100 := by
  have hopening : Line.opening d ∈ d.lines.filter Line.isCode := by
    rw [FunctionDef.lines, hnaked]
    exact List.mem_cons_self
  obtain ⟨i, -, hdecoded⟩ := exists_of_mem_left_forall₂ h.lines hopening
  obtain ⟨pieces, ⟨bytes, -, hprologue, -⟩, -⟩ := hdecoded.encodes
  rw [Assemble.prologue, hnaked] at hprologue
  obtain ⟨params, hparams, -⟩ := bind_eq_ok.mp hprologue
  obtain ⟨n, hn, hargs, -⟩ := Encode.byteOf_ok hparams
  omega

theorem returns (h : region.Holds withNames r d) {target : String → Prop}
    (hforms : Forms Γ target d.body) {info : Lowering.BodyInfo} (hreturns : ReturnsBy info d.body)
    (hsize : info.argSlots < 2 ^ 63) :
    ∀ i ∈ region.instructions, i.op = .named .leave →
      i.operands = [.int info.argSlots, .int info.resultSlots] := by
  intro i hi hop
  obtain ⟨line, hmem, hline⟩ := exists_of_mem_forall₂ h.lines hi
  rcases d.line_cases hmem with rfl | ⟨s, hs, mnemonic, hm, rfl⟩
  · rw [hline.readsBack.1] at hop
    cases hop
  · obtain ⟨hmnemonic, params, results, hwritten, hread⟩ :=
      Reading.Instruction.ofMnemonic hline.readsBack hop (.inl rfl)
    rw [(hforms s hs).mnemonic_eq hm hmnemonic] at hm
    rw [hread, ← hwritten, hreturns s hs hm, Lowering.BodyInfo.leave,
      Lowering.slotsOperand_eq_iff.mpr hsize]
    rfl

end Region.Holds

/-- The code of a generated function stays inside its region. -/
theorem Lowering.FunctionCode.staysInside {p : TypedProgram} {f : TypedFunction} {d : FunctionDef}
    {before code : List Statement} {n n' : Nat} (h : FunctionCode p f d before code n n')
    (hp : p.WellTyped) (hf : f ∈ p.functions) {withNames : Bool} {r : Reading} {region : Region}
    (hregion : region.Holds withNames r d) {entries : List Nat}
    (hentries : ∀ g ∈ p.functions, ∃ ip ∈ entries, r.address? (functionKey g.name) = some ip) :
    region.StaysInside f entries := by
  have hforms := h.forms hp hf
  obtain ⟨front, hbody⟩ := h.endsInLeave
  constructor
  · have hopening := hregion.opening (congrArg FunctionDef.naked h.eq)
    rw [h.eq] at hopening
    exact hopening
  · exact hregion.closing hbody
  · exact hregion.jumps hforms hbody
  · intro i hi hop
    obtain ⟨name, result, params, ⟨signature, hmem, rfl, -⟩, haddress⟩ :=
      hregion.calls hforms i hi hop
    obtain ⟨g, hg, rfl⟩ := List.mem_map.mp hmem
    obtain ⟨ip, hip, hentry⟩ := hentries g hg
    rw [show (TypedFunction.signature g).name = g.name from rfl, hentry] at haddress
    rwa [← Option.some.inj haddress]
  · have hsmall := hregion.argSlots_lt (congrArg FunctionDef.naked h.eq)
    rw [h.eq] at hsmall
    exact hregion.returns hforms (h.returnsBy hp hf) (hsmall.trans (by decide))

/-! ## Images -/

/-- The code of an image is assembled from what is generated for a program without errors. -/
theorem assemble_of_compile {z : Compression} {options : CompileOptions} {key : Option CipherKey}
    {script : Script} {diagnostics : Diagnostics} {image : CompiledImage}
    (h : compile z options key script = .ok ⟨diagnostics, some image⟩) :
    (check script).program.WellTyped ∧
      ∃ (generated : GeneratedScript) (assembled : AssembledScript),
      generated.Of (check script).program ∧
      assemble generated.functions generated.statics generated.globals options.functionNames =
        .ok assembled ∧
      image.container.code = assembled.code ∧ image.functions = assembled.functions := by
  cases hsuccess : (check script).isSuccess with
  | false =>
      unfold compile at h
      simp only [hsuccess] at h
      cases h
  | true =>
      have hp := (check_wellTyped hsuccess).1
      rw [compile_eq hsuccess] at h
      obtain ⟨generated, hgenerate, h⟩ := bind_eq_ok.mp h
      obtain ⟨built, hbuild, h⟩ := bind_eq_ok.mp h
      obtain ⟨bytes, _, h⟩ := bind_eq_ok.mp h
      obtain ⟨assembled, hassemble, hbuilt⟩ := bind_eq_ok.mp (mapError_eq_ok hbuild)
      obtain rfl := Except.ok.inj hbuilt
      cases h
      refine ⟨hp, generated, assembled, ?_, hassemble, rfl, rfl⟩
      rcases generate_cases hp with ⟨_, heq, hof⟩ | ⟨heq, -⟩
      · rw [mapError_eq_ok hgenerate] at heq
        rwa [Except.ok.inj heq]
      · rw [mapError_eq_ok hgenerate] at heq
        cases heq

/-- The code of every image can be disassembled and consists of one region for each function of the
script, the first of which begins at address zero. Control stays inside the regions. -/
theorem compile_staysInside {z : Compression} {options : CompileOptions} {key : Option CipherKey}
    {script : Script} {diagnostics : Diagnostics} {image : CompiledImage}
    (h : compile z options key script = .ok ⟨diagnostics, some image⟩) (natives : NativeNames) :
    ∃ d, disassemble image.container.code natives = .ok d ∧
      (image.functions.map Prod.fst).Perm
        ((check script).program.functions.map TypedFunction.name) ∧
      (∀ entry, image.functions.head? = some entry → entry.2 = 0) ∧
      (cutRegions image.functions d.instructions).flatMap Region.instructions = d.instructions ∧
      ∀ region ∈ cutRegions image.functions d.instructions,
        ∃ f ∈ (check script).program.functions, f.name = region.name ∧
          region.StaysInside f (image.functions.map Prod.snd) := by
  obtain ⟨hp, generated, assembled, hof, hassemble, hcode, hfunctions⟩ := assemble_of_compile h
  obtain ⟨address?, groups, has⟩ := assembledAs_of_assemble hassemble
  obtain ⟨d, hd, hips, hsizes, hlines⟩ := disassemble_of_encodes has.encodes has.placed natives
  rw [hcode, hfunctions, has.code]
  have htable : ∀ key ip, (key, ip) ∈ labelAddresses 0
      ((orderFunctions generated.functions).flatMap FunctionDef.lines)
      (d.instructions.map (·.bytes.length)) → address? key = some ip := by
    intro key ip hmem
    rw [hsizes] at hmem
    exact (has.address key ip).mpr hmem
  obtain ⟨hholds, hall, hfirst⟩ := cutRegions_holds has.entries hlines hips htable
  have hperm := perm_orderFunctions generated.functions
  have hnames : (assembled.functions.map Prod.fst).Perm
      ((check script).program.functions.map TypedFunction.name) := by
    have heq : assembled.functions.map Prod.fst =
        (orderFunctions generated.functions).map FunctionDef.name := by
      have hentries := has.entries.imp fun _ _ => And.left
      rw [← List.forall₂_eq_eq_eq, List.forall₂_map_left_iff, List.forall₂_map_right_iff]
      exact hentries.flip
    rw [heq, ← hof.names]
    exact hperm.map _
  refine ⟨d, hd, hnames, hfirst, hall, ?_⟩
  intro region hregion
  obtain ⟨definition, hmem, hholds⟩ := exists_of_mem_forall₂ hholds hregion
  obtain ⟨f, hf, before, code, n, n', hfunction⟩ :=
    exists_of_mem_forall₂ hof.functions (hperm.mem_iff.mp hmem)
  have hname : definition.name = f.name := congrArg FunctionDef.name hfunction.eq
  refine ⟨f, hf, hname.symm.trans hholds.name.symm, hfunction.staysInside hp hf hholds ?_⟩
  intro g hg
  have hgenerated : g.name ∈ generated.functions.map FunctionDef.name :=
    hof.names ▸ List.mem_map_of_mem hg
  obtain ⟨target, htarget, hname⟩ := List.mem_map.mp hgenerated
  obtain ⟨entry, hentry, -, haddress⟩ :=
    exists_of_mem_forall₂ has.entries.flip (hperm.mem_iff.mpr htarget)
  exact ⟨entry.2, List.mem_map_of_mem hentry, hname ▸ haddress⟩

def relay : Script :=
  let turns : Expr := .name {} "turns"
  [.function {
      name := "pass"
      params := [{ name := "turns", ty := { name := "INT" } }]
      result := some { name := "INT" }
      body := [
        .label {} "again",
        .switch {} turns [⟨.literal {} (.int 0), [.ret {} (some turns)], {}⟩]
          (some [.goto {} "again"]),
        .ret {}
          (some (.call {} (.name {} "pass") [.binary {} .sub turns (.literal {} (.int 1))]))] },
    .function {
      name := "main"
      params := []
      body := [
        .var {} "turns" { name := "INT" } (some (.literal {} (.int 3))),
        .label {} "again",
        .whileLoop {} (.binary {} .gt turns (.literal {} (.int 0)))
          [.assign {} turns (.call {} (.name {} "pass") [turns]), .goto {} "again"]] }]

theorem compile_staysInside_relay :
    ∃ diagnostics image, compile Zlib.stored ⟨.gta4Plain, true, 0⟩ none relay =
      .ok ⟨diagnostics, some image⟩ ∧ image.functions = [("main", 0), ("pass", 44)] ∧
      ∃ d, disassemble image.container.code {} = .ok d ∧
        (image.functions.map Prod.fst).Perm
          ((check relay).program.functions.map TypedFunction.name) ∧
        (∀ entry, image.functions.head? = some entry → entry.2 = 0) ∧
        (cutRegions image.functions d.instructions).flatMap Region.instructions = d.instructions ∧
        ∀ region ∈ cutRegions image.functions d.instructions,
          ∃ f ∈ (check relay).program.functions, f.name = region.name ∧
            region.StaysInside f (image.functions.map Prod.snd) := by
  have hfunctions :
      ((compile Zlib.stored ⟨.gta4Plain, true, 0⟩ none relay).toOption.bind Compiled.image).map
      CompiledImage.functions = some [("main", 0), ("pass", 44)] := by
    unfold compile
    rw [check_eq_checkFrom]
    decide +kernel
  obtain ⟨image, himage, heq⟩ := Option.map_eq_some_iff.mp hfunctions
  obtain ⟨⟨diagnostics, _⟩, hcompiled, rfl⟩ := Option.bind_eq_some_iff.mp himage
  have hcompile : compile Zlib.stored ⟨.gta4Plain, true, 0⟩ none relay =
      .ok ⟨diagnostics, some image⟩ := by
    cases hresult : compile Zlib.stored ⟨.gta4Plain, true, 0⟩ none relay with
    | error e =>
        rw [hresult] at hcompiled
        cases hcompiled
    | ok compiled =>
        rw [hresult] at hcompiled
        rw [Option.some.inj hcompiled]
  exact ⟨diagnostics, image, hcompile, heq, compile_staysInside hcompile {}⟩

end GameScript
