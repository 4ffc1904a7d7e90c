import GameScript.Proofs.LabelOperands

/-!
# What label operands refer to

The statements of an assembled script are put in their places by walking through its code with the
size rule. A label operand of a jump or a switch then denotes the statement of the same function
that carries the label, and only if there is none the first byte of the function of that name; a
call always denotes a function. Names are compared without regard to case. An operand without a full
stop can mean nothing else, so a script in which such an operand has no meaning is not accepted.
With a full stop it could spell out the key of a label of another function, and this is not
excluded.
-/
namespace GameScript

/-! ## Places -/

structure PlacedStatement where
  statement : Statement
  ip : Nat

/-- A function, the address at which its code starts, and its statements in their places. -/
structure PlacedFunction where
  function : FunctionDef
  ip : Nat
  body : List PlacedStatement

def addressAfter (code : Bytes) (ip : Nat) : Nat := ip + (Op.instructionSize? (code.drop ip)).getD 0

/-- Put statements in their places from `ip` on. The second component is the address after them. A
statement without an instruction takes no code. -/
def placeStatements (code : Bytes) : Nat → List Statement → List PlacedStatement × Nat
  | ip, [] => ([], ip)
  | ip, s :: rest =>
    let more := placeStatements code (if s.mnemonic.isSome then addressAfter code ip else ip) rest
    (⟨s, ip⟩ :: more.1, more.2)

def placeFunctions (code : Bytes) : Nat → List FunctionDef → List PlacedFunction
  | _, [] => []
  | ip, f :: rest =>
    let body := placeStatements code (if f.naked then ip else addressAfter code ip) f.body
    ⟨f, ip, body.1⟩ :: placeFunctions code body.2 rest

def PlacedStatement.Labelled (s : PlacedStatement) (name : String) : Prop :=
  ∃ label, s.statement.label = some label ∧ sameName label name = true

def PlacedFunction.Named (f : PlacedFunction) (name : String) : Prop :=
  sameName f.function.name name = true

instance (f : PlacedFunction) (name : String) : Decidable (f.Named name) :=
  inferInstanceAs (Decidable (sameName f.function.name name = true))

/-! ## Places and the label table -/

def PlacedStatement.keys (f : FunctionDef) (s : PlacedStatement) : List (String × Nat) :=
  (s.statement.label.map fun name => (labelKey f.name name, s.ip)).toList

def PlacedFunction.keys (p : PlacedFunction) : List (String × Nat) :=
  (functionKey p.function.name, p.ip) :: p.body.flatMap (PlacedStatement.keys p.function)

/-- The instruction of a statement of `f` stands at its place. -/
def PlacedStatement.Encoded (address? : String → Option Nat) (code : Bytes) (f : FunctionDef)
    (s : PlacedStatement) : Prop :=
  ∀ mnemonic, s.statement.mnemonic = some mnemonic → ∃ pieces rest,
    Encode.instruction (referenceKey f.name (ownLabels f.body)) mnemonic s.statement.operands =
      .ok pieces ∧ (∀ p ∈ pieces, p.Placed address?) ∧
    code.drop s.ip = filledAll (fun key => (address? key).getD 0) pieces ++ rest

theorem drop_add_of_append {code front rest : Bytes} {ip : Nat} (h : code.drop ip = front ++ rest) :
    code.drop (ip + front.length) = rest := by
  rw [← List.drop_drop, h, List.drop_left]

theorem length_flatten_filled (place : String → Nat) (groups : List (List Piece)) :
    (groups.map (filledAll place)).flatten.length = (groups.map groupSize).sum := by
  rw [List.length_flatten, List.map_map]
  simp only [Function.comp_def, length_filledAll]

section
variable {withNames : Bool} {address? : String → Option Nat} {code rest : Bytes} {ip : Nat}

/-- The size rule finds the end of every line of code. -/
theorem addressAfter_of_encodes {line : Line} {pieces : List Piece}
    (hline : line.Encodes withNames pieces) (hplaced : ∀ p ∈ pieces, p.Placed address?)
    (hcode : code.drop ip = filledAll (fun key => (address? key).getD 0) pieces ++ rest) :
    addressAfter code ip = ip + groupSize pieces ∧ code.drop (ip + groupSize pieces) = rest := by
  obtain ⟨op, operands, hinstruction, -⟩ := hline.readsBack (r := ⟨[], {}, address?⟩) hplaced
  have hlength := length_filledAll (fun key => (address? key).getD 0) pieces
  constructor
  · have hsize := hinstruction.size rest
    unfold Reading.place at hsize
    rw [addressAfter, hcode, hsize, hlength]
    rfl
  · rw [← hlength]
    exact drop_add_of_append hcode

/-- The statements of a body stand where the label table says. The induction is on the statements
that are still to be placed. -/
theorem placeStatements_spec {f : FunctionDef} {body : List Statement} {groups : List (List Piece)}
    (hencodes : List.Forall₂ (Line.Encodes withNames)
      ((body.flatMap (Statement.lines f)).filter Line.isCode) groups)
    (hplaced : ∀ pieces ∈ groups, ∀ p ∈ pieces, p.Placed address?)
    (hcode : code.drop ip =
      (groups.map (filledAll fun key => (address? key).getD 0)).flatten ++ rest) :
    (placeStatements code ip body).2 = ip + (groups.map groupSize).sum ∧
    labelAddresses ip (body.flatMap (Statement.lines f)) (groups.map groupSize) =
      (placeStatements code ip body).1.flatMap (PlacedStatement.keys f) ∧
    ∀ s ∈ (placeStatements code ip body).1, s.Encoded address? code f := by
  induction body generalizing ip groups with
  | nil =>
      cases hencodes
      exact ⟨rfl, rfl, fun s hs => absurd hs List.not_mem_nil⟩
  | cons s body ih =>
      have hlabel (lines : List Line) (sizes : List Nat) :
          labelAddresses ip (s.lines f ++ lines) sizes =
            PlacedStatement.keys f ⟨s, ip⟩ ++
              labelAddresses ip
                ((s.mnemonic.map fun m => Line.instruction f m s.operands).toList ++ lines)
                sizes := by
        rw [Statement.lines, List.append_assoc, PlacedStatement.keys]
        cases s.label <;> rfl
      have hfilter : (s.lines f).filter Line.isCode =
          (s.mnemonic.map fun m => Line.instruction f m s.operands).toList := by
        rw [Statement.lines]
        cases s.label <;> cases s.mnemonic <;> rfl
      rw [List.flatMap_cons, List.filter_append, hfilter] at hencodes
      rw [List.flatMap_cons, hlabel, placeStatements]
      cases hm : s.mnemonic with
      | none =>
          rw [hm] at hencodes
          obtain ⟨hstop, hkeys, hbody⟩ := ih hencodes hplaced hcode
          refine ⟨hstop, congrArg (PlacedStatement.keys f ⟨s, ip⟩ ++ ·) hkeys, ?_⟩
          rw [List.forall_mem_cons]
          refine ⟨fun mnemonic h => ?_, hbody⟩
          rw [hm] at h
          cases h
      | some mnemonic =>
          rw [hm] at hencodes
          cases hencodes with
          | @cons _ pieces _ groups hline hencodes =>
              rw [List.forall_mem_cons] at hplaced
              rw [List.map_cons, List.flatten_cons, List.append_assoc] at hcode
              obtain ⟨hafter, hdrop⟩ := addressAfter_of_encodes hline hplaced.1 hcode
              obtain ⟨hstop, hkeys, hbody⟩ := ih hencodes hplaced.2 hdrop
              simp only [Option.isSome_some, if_true, hafter]
              refine ⟨?_, congrArg (PlacedStatement.keys f ⟨s, ip⟩ ++ ·) hkeys, ?_⟩
              · rw [hstop, List.map_cons, List.sum_cons, Nat.add_assoc]
              · rw [List.forall_mem_cons]
                refine ⟨fun m h => ?_, hbody⟩
                rw [hm] at h
                obtain rfl := Option.some.inj h
                exact ⟨pieces, _, hline, hplaced.1, hcode⟩

theorem placeFunctions_spec {fs : List FunctionDef} {groups : List (List Piece)}
    (hencodes : List.Forall₂ (Line.Encodes withNames)
      ((fs.flatMap FunctionDef.lines).filter Line.isCode) groups)
    (hplaced : ∀ pieces ∈ groups, ∀ p ∈ pieces, p.Placed address?)
    (hcode : code.drop ip = (groups.map (filledAll fun key => (address? key).getD 0)).flatten) :
    labelAddresses ip (fs.flatMap FunctionDef.lines) (groups.map groupSize) =
      (placeFunctions code ip fs).flatMap PlacedFunction.keys ∧
    ∀ p ∈ placeFunctions code ip fs, ∀ s ∈ p.body, s.Encoded address? code p.function := by
  induction fs generalizing ip groups with
  | nil =>
      cases hencodes
      exact ⟨rfl, fun p hp => absurd hp List.not_mem_nil⟩
  | cons f fs ih =>
      -- The groups of a function are that of its opening, if it has one, and those of its
      -- statements.
      rw [List.flatMap_cons, List.filter_append] at hencodes
      obtain ⟨own, more, rfl, hown, hmore⟩ := forall₂_append_split hencodes
      rw [FunctionDef.lines, List.filter_cons_of_neg (by simp [Line.isCode]), List.filter_append]
        at hown
      obtain ⟨first, groups, rfl, hfirst, hbody⟩ := forall₂_append_split hown
      simp only [List.forall_mem_append] at hplaced
      obtain ⟨⟨hplacedFirst, hplacedBody⟩, hplacedMore⟩ := hplaced
      simp only [List.map_append, List.flatten_append, List.append_assoc] at hcode
      have hopening : (if f.naked then ip else addressAfter code ip) =
          ip + (first.map groupSize).sum := by
        cases hnaked : f.naked with
        | true =>
            simp only [hnaked, if_true, List.filter_nil] at hfirst
            cases hfirst
            rfl
        | false =>
            simp only [hnaked, Bool.false_eq_true, if_false] at hfirst
            cases hfirst with
            | @cons _ pieces _ tail hline htail =>
                cases htail
                rw [List.forall_mem_singleton] at hplacedFirst
                rw [List.map_singleton, List.flatten_singleton] at hcode
                exact (addressAfter_of_encodes hline hplacedFirst hcode).1
      have hstart := drop_add_of_append hcode
      rw [length_flatten_filled] at hstart
      obtain ⟨hstop, hkeys, hstatements⟩ := placeStatements_spec hbody hplacedBody hstart
      have hnext := drop_add_of_append hstart
      rw [length_flatten_filled] at hnext
      obtain ⟨hkeysMore, hmore⟩ := ih hmore hplacedMore hnext
      have hlenFirst : ((if f.naked then [] else [Line.opening f]).filter Line.isCode).length =
          (first.map groupSize).length := by rw [hfirst.length_eq, List.length_map]
      have hlenBody : ((f.body.flatMap (Statement.lines f)).filter Line.isCode).length =
          (groups.map groupSize).length := by rw [hbody.length_eq, List.length_map]
      have hnone : labelAddresses ip (if f.naked then [] else [Line.opening f])
          (first.map groupSize) = [] := by
        cases f.naked <;> cases first <;> rfl
      simp only [placeFunctions, hopening, hstop]
      constructor
      · rw [List.flatMap_cons, FunctionDef.lines, List.cons_append, labelAddresses, List.map_append,
          List.map_append, List.append_assoc, List.append_assoc, labelAddresses_append hlenFirst,
          hnone, labelAddresses_append hlenBody, hkeys, hkeysMore]
        rfl
      · rw [List.forall_mem_cons]
        exact ⟨hstatements, hmore⟩

end

theorem map_statement_placeStatements (code : Bytes) (ip : Nat) (body : List Statement) :
    (placeStatements code ip body).1.map PlacedStatement.statement = body := by
  induction body generalizing ip with
  | nil => rfl
  | cons s body ih => rw [placeStatements, List.map_cons, ih]

theorem map_function_placeFunctions (code : Bytes) (ip : Nat) (fs : List FunctionDef) :
    (placeFunctions code ip fs).map PlacedFunction.function = fs := by
  induction fs generalizing ip with
  | nil => rfl
  | cons f fs ih => rw [placeFunctions, List.map_cons, ih]

theorem map_statement_of_mem {code : Bytes} {ip : Nat} {fs : List FunctionDef} {p : PlacedFunction}
    (h : p ∈ placeFunctions code ip fs) :
    p.body.map PlacedStatement.statement = p.function.body := by
  induction fs generalizing ip with
  | nil => cases h
  | cons f fs ih =>
      rw [placeFunctions] at h
      cases h with
      | head => exact map_statement_placeStatements code _ f.body
      | tail _ h => exact ih h

/-- The labels of a function are those of its statements. -/
theorem PlacedFunction.mem_ownLabels {p : PlacedFunction}
    (h : p.body.map PlacedStatement.statement = p.function.body) (name : String) :
    foldName name ∈ ownLabels p.function.body ↔ ∃ s ∈ p.body, s.Labelled name := by
  rw [← h, ownLabels, List.mem_filterMap]
  constructor
  · rintro ⟨statement, hstatement, heq⟩
    obtain ⟨s, hs, rfl⟩ := List.mem_map.mp hstatement
    obtain ⟨label, hlabel, hfold⟩ := Option.map_eq_some_iff.mp heq
    exact ⟨s, hs, label, hlabel, beq_iff_eq.mpr hfold⟩
  · rintro ⟨s, hs, label, hlabel, hsame⟩
    refine ⟨s.statement, List.mem_map_of_mem hs, ?_⟩
    rw [hlabel, Option.map_some, beq_iff_eq.mp hsame]

/-! ## Operands -/

/-- `ip` is what the label operand `name` of a jump or a switch in `f` means: a label of `f` comes
first, then a function. -/
structure PlacedFunction.Resolves (layout : List PlacedFunction) (f : PlacedFunction)
    (name : String) (ip : Nat) : Prop where
  label : ∀ s ∈ f.body, s.Labelled name → ip = s.ip
  function : (¬ ∃ s ∈ f.body, s.Labelled name) → ∀ g ∈ layout, g.Named name → ip = g.ip
  found : '.' ∉ name.toList → (∃ s ∈ f.body, s.Labelled name) ∨ ∃ g ∈ layout, g.Named name

/-- `ip` is what the operand `name` of a call means. -/
structure PlacedFunction.ResolvesCall (layout : List PlacedFunction) (name : String) (ip : Nat) :
    Prop where
  function : ∀ g ∈ layout, g.Named name → ip = g.ip
  found : '.' ∉ name.toList → ∃ g ∈ layout, g.Named name

section
variable {address? : String → Option Nat} {layout : List PlacedFunction}
  (htable : ∀ key ip, address? key = some ip ↔ (key, ip) ∈ layout.flatMap PlacedFunction.keys)
include htable

theorem address_functionKey {g : PlacedFunction} (hg : g ∈ layout) {name : String}
    (hname : g.Named name) :
    address? (functionKey name) = some g.ip := by
  have hkey : functionKey name = functionKey g.function.name := (beq_iff_eq.mp hname).symm
  rw [hkey, htable, List.mem_flatMap]
  exact ⟨g, hg, List.mem_cons_self⟩

theorem address_labelKey {f : PlacedFunction} (hf : f ∈ layout) {s : PlacedStatement}
    (hs : s ∈ f.body) {name : String} (hname : s.Labelled name) :
    address? (labelKey f.function.name name) = some s.ip := by
  obtain ⟨label, hlabel, hsame⟩ := hname
  have hkey : labelKey f.function.name name = labelKey f.function.name label := by
    rw [labelKey, labelKey, beq_iff_eq.mp hsame]
  rw [hkey, htable, List.mem_flatMap]
  refine ⟨f, hf, List.mem_cons_of_mem _ (List.mem_flatMap.mpr ⟨s, hs, ?_⟩)⟩
  rw [PlacedStatement.keys, hlabel]
  exact List.mem_cons_self

/-- The key of a function without a full stop is not that of a label. -/
theorem named_of_address {name : String} {ip : Nat} (hstop : '.' ∉ name.toList)
    (h : address? (functionKey name) = some ip) : ∃ g ∈ layout, g.Named name := by
  rw [htable, List.mem_flatMap] at h
  obtain ⟨g, hg, hkey⟩ := h
  refine ⟨g, hg, ?_⟩
  rcases List.mem_cons.mp hkey with heq | hlabel
  · exact beq_iff_eq.mpr (congrArg Prod.fst heq).symm
  · obtain ⟨s, _, hkey⟩ := List.mem_flatMap.mp hlabel
    rw [PlacedStatement.keys, Option.mem_toList, Option.map_eq_some_iff] at hkey
    obtain ⟨label, _, heq⟩ := hkey
    obtain ⟨heq, -⟩ := Prod.mk.inj heq
    have hdot : '.' ∈ (functionKey name).toList := by
      rw [← heq, toList_labelKey]
      exact List.mem_append_right _ List.mem_cons_self
    exact absurd (mem_of_mem_foldName rfl hdot) hstop

theorem resolvesCall_of_address {name : String} {ip : Nat}
    (h : address? (functionKey name) = some ip) :
    PlacedFunction.ResolvesCall layout name ip := by
  constructor
  · intro g hg hname
    rw [address_functionKey htable hg hname] at h
    exact (Option.some.inj h).symm
  · exact fun hstop => named_of_address htable hstop h

theorem resolves_of_address {f : PlacedFunction} (hf : f ∈ layout)
    (hbody : f.body.map PlacedStatement.statement = f.function.body) {name : String} {ip : Nat}
    (h : address? (referenceKey f.function.name (ownLabels f.function.body) name) = some ip) :
    PlacedFunction.Resolves layout f name ip := by
  have hown := PlacedFunction.mem_ownLabels hbody name
  by_cases hlabel : ∃ s ∈ f.body, s.Labelled name
  · rw [referenceKey, if_pos (List.contains_iff_mem.mpr (hown.mpr hlabel))] at h
    refine ⟨fun s hs hname => ?_, fun hnone => absurd hlabel hnone, fun _ => .inl hlabel⟩
    rw [address_labelKey htable hf hs hname] at h
    exact (Option.some.inj h).symm
  · have hnot : ¬ (ownLabels f.function.body).contains (foldName name) = true := fun hcontains =>
      hlabel (hown.mp (List.contains_iff_mem.mp hcontains))
    rw [referenceKey, if_neg hnot] at h
    have hcall := resolvesCall_of_address htable h
    exact ⟨fun s hs hname => absurd ⟨s, hs, hname⟩ hlabel, fun _ => hcall.function,
      fun hstop => .inr (hcall.found hstop)⟩

end

/-- In the code of an assembled script every label operand is encoded as the address of what it
means, every call as the address of the function it names, and the addresses that are reported for
functions are those of their first bytes. -/
theorem assemble_resolves {functions : List FunctionDef} {statics globals : List DataField}
    {withNames : Bool} {script : AssembledScript}
    (h : assemble functions statics globals withNames = .ok script) :
    let layout := placeFunctions script.code 0 (orderFunctions functions)
    layout.map (fun f => (f.function.name, f.ip)) = script.functions ∧
    ∀ f ∈ layout, ∀ s ∈ f.body, ∀ mnemonic, s.statement.mnemonic = some mnemonic →
      (∀ offset name, JumpOperand mnemonic s.statement.operands offset name →
        f.Resolves layout name (addressAt script.code (s.ip + offset))) ∧
      ∀ name, CallOperand mnemonic s.statement.operands name →
        PlacedFunction.ResolvesCall layout name (addressAt script.code (s.ip + 1)) := by
  intro layout
  obtain ⟨address?, groups, hscript⟩ := assembledAs_of_assemble h
  have hcode : script.code.drop 0 = _ := hscript.code
  obtain ⟨hkeys, hencoded⟩ := placeFunctions_spec hscript.encodes hscript.placed hcode
  have htable : ∀ key ip, address? key = some ip ↔ (key, ip) ∈ layout.flatMap PlacedFunction.keys :=
    fun key ip => hkeys ▸ hscript.address key ip
  constructor
  · have hentries := hscript.entries
    rw [← map_function_placeFunctions script.code 0 (orderFunctions functions),
      List.forall₂_map_left_iff] at hentries
    have hfirst : ∀ f ∈ layout, address? (functionKey f.function.name) = some f.ip := fun f hf =>
      address_functionKey htable hf (beq_self_eq_true _)
    have hboth := (List.forall₂_and_left _ _).mpr ⟨hfirst, hentries⟩
    rw [← List.forall₂_eq_eq_eq, List.forall₂_map_left_iff]
    refine hboth.imp fun f entry ⟨hip, hname, hentry⟩ => ?_
    rw [hip] at hentry
    exact Prod.ext hname.symm (Option.some.inj hentry)
  · intro f hf s hs mnemonic hm
    obtain ⟨pieces, rest, hpieces, hplaced, hdrop⟩ := hencoded f hf s hs mnemonic hm
    -- Reading at an offset from the statement is reading in its own bytes.
    have hread (offset : Nat) : addressAt script.code (s.ip + offset) =
        addressAt (filledAll (fun key => (address? key).getD 0) pieces ++ rest) offset := by
      rw [addressAt, addressAt, ← hdrop, List.drop_drop]
    constructor
    · intro offset name hoperand
      rw [hread]
      exact resolves_of_address htable hf (map_statement_of_mem hf)
        (Encode.address_of_jumpOperand hpieces hplaced hoperand rest)
    · intro name hoperand
      rw [hread]
      exact resolvesCall_of_address htable
        (Encode.address_of_callOperand hpieces hplaced hoperand rest)

/-- The first of two functions, with a label that has the name of the second. -/
def shadowingMain : FunctionDef where
  name := "main"
  body := [
    { label := some "Loop", mnemonic := some "NOP" },
    .op .jump [.ident "LOOP"],
    .op .call [.ident "loop"],
    .op .switch [.case 1 "tail", .case 2 "loop"],
    { label := some "Tail", mnemonic := some "LEAVE", operands := [.int 0, .int 0] }]

/-- The second of two functions, which jumps to the first. -/
def shadowedLoop : FunctionDef where
  name := "loop"
  naked := true
  body := [.op .jumpZero [.ident "Main"]]

theorem assemble_resolves_shadowedLoop :
    ∃ script, assemble [shadowingMain, shadowedLoop] [] [] false = .ok script ∧
      script.functions = [("main", 0), ("loop", 37)] ∧
      addressAt script.code (6 + 1) = 5 ∧ addressAt script.code (11 + 1) = 37 ∧
      addressAt script.code (16 + 6) = 34 ∧ addressAt script.code (37 + 1) = 0 := by
  let script : AssembledScript := {
    code := [47, 0, 2, 0, 0, 0, 34, 5, 0, 0, 0, 46, 37, 0, 0, 0, 66, 2, 1, 0, 0, 0, 34, 0, 0, 0,
      2, 0, 0, 0, 5, 0, 0, 0, 48, 0, 0, 35, 0, 0, 0, 0]
    functions := [("main", 0), ("loop", 37)] }
  have h : assemble [shadowingMain, shadowedLoop] [] [] false = .ok script := by decide +kernel
  have horder : orderFunctions [shadowingMain, shadowedLoop] =
    [shadowingMain, shadowedLoop] := by rfl
  have hplaces : placeFunctions script.code 0 [shadowingMain, shadowedLoop] =
      [⟨shadowingMain, 0, (shadowingMain.body.zip [5, 6, 11, 16, 34]).map fun p => ⟨p.1, p.2⟩⟩,
        ⟨shadowedLoop, 37, (shadowedLoop.body.zip [37]).map fun p => ⟨p.1, p.2⟩⟩] := by rfl
  obtain ⟨hfunctions, hresolves⟩ := assemble_resolves h
  rw [horder, hplaces] at hresolves
  have hmain := hresolves _ List.mem_cons_self
  have hloop := hresolves _ (List.mem_cons_of_mem _ List.mem_cons_self)
  have hjump := (hmain ⟨.op .jump [.ident "LOOP"], 6⟩ (by simp [shadowingMain]) "J" rfl).1 1 "LOOP"
    (.jump (o := .jump) (by decide +kernel) rfl rfl)
  have hcall := (hmain ⟨.op .call [.ident "loop"], 11⟩ (by simp [shadowingMain]) "CALL" rfl).2
    "loop" ⟨by decide +kernel, rfl⟩
  have hcase := (hmain ⟨.op .switch [.case 1 "tail", .case 2 "loop"], 16⟩ (by simp [shadowingMain])
    "SWITCH" rfl).1 6 "tail" (.case (i := 0) (by decide +kernel) rfl)
  have hback := (hloop ⟨.op .jumpZero [.ident "Main"], 37⟩ (by simp [shadowedLoop]) "JZ" rfl).1 1
    "Main" (.jump (o := .jumpZero) (by decide +kernel) rfl rfl)
  refine ⟨script, h, rfl, ?_, ?_, ?_, ?_⟩
  · exact hjump.label ⟨_, 5⟩ List.mem_cons_self ⟨"Loop", rfl, by decide +kernel⟩
  · exact hcall.function _ (List.mem_cons_of_mem _ List.mem_cons_self) (by decide +kernel)
  · exact hcase.label ⟨⟨some "Tail", some "LEAVE", [.int 0, .int 0]⟩, 34⟩ (by simp [shadowingMain])
      ⟨"Tail", rfl, by decide +kernel⟩
  · refine hback.function ?_ _ List.mem_cons_self (by decide +kernel)
    rintro ⟨s, hs, label, hlabel, -⟩
    rw [List.mem_singleton.mp hs] at hlabel
    cases hlabel

end GameScript
