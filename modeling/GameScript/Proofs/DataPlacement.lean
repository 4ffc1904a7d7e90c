import GameScript.Proofs.CheckEvaluation
import GameScript.Proofs.DataAccess
import GameScript.Proofs.ScriptTyping
import GameScript.Proofs.StackBalance

/-!
# Code and data agree on variables

The slot of a variable is known in three places: in the table that code is generated from, in the
code, and in the data segment. In a script without errors names are distinct in any case, so the
table has for each name the slot of that variable, and the region of the variable in the data
segment begins there.
-/
namespace GameScript

open Statement (op pushInt)

namespace Storage

def data : Storage → TypedProgram → List TypedData
  | static => TypedProgram.statics
  | global => TypedProgram.globals

def fields : Storage → GeneratedScript → List DataField
  | static => GeneratedScript.statics
  | global => GeneratedScript.globals

def words : Storage → AssembledScript → List Word
  | static => AssembledScript.statics
  | global => AssembledScript.globals

/-- Everything that has to do with the place of the variable `d` agrees on `slot`. -/
structure Placed (storage : Storage) (p : TypedProgram) (generated : GeneratedScript)
    (d : TypedData) (slot : Nat) : Prop where
  /-- Its name stands for it in any case, where no block of a function declares the name anew. -/
  named : ∀ (scope : Scope) span name, sameName name d.name = true → scope.globals = p.symbols →
    (∀ block ∈ scope.innermost :: scope.enclosing, block.find? (Identity.ofName name) = none) →
    Typing.name scope span name = pure (storage.expr d.ty span d.name)
  addressed : ∀ ty span name, sameName name d.name = true →
    Lowering.address (.ofFields generated.statics generated.globals) (storage.expr ty span name) =
      .ok [pushInt slot, op storage.opcode]
  stored : ∀ withNames assembled,
    assemble generated.functions generated.statics generated.globals withNames = .ok assembled →
    ∃ k, (layoutOrder (storage.fields generated))[k]? = some (Lowering.dataField d) ∧
      slot = firstSlot (layoutOrder (storage.fields generated)) k ∧
      (Lowering.dataField d).Region (((storage.words assembled).drop slot).take d.ty.slots)

/-- Code and data agree on the variables of a script. -/
structure Agrees (storage : Storage) (p : TypedProgram) (generated : GeneratedScript) : Prop where
  placed : ∀ d ∈ storage.data p, ∃ slot, storage.Placed p generated d slot
  /-- Before an address is made in the code of a function, the slot of a variable is pushed that the
  function mentions. -/
  accessed : List.Forall₂ (fun (f : TypedFunction) (def' : FunctionDef) => ∀ front s back,
      def'.body = front ++ s :: back → s.mnemonic = some storage.opcode.mnemonic →
      ∃ (before : List Statement) (d : TypedData) (slot : Nat), front = before ++ [pushInt slot] ∧
        s = op storage.opcode ∧ d ∈ storage.data p ∧ storage.Placed p generated d slot ∧
        ∃ t ∈ Lowering.preludeFor p f ++ f.body, ∃ span, t.Uses (storage.expr d.ty span d.name))
    p.functions generated.functions

end Storage

/-! ## Slots -/

section
variable {fields : List DataField} {f : DataField}

/-- If names are distinct in any case, the table has for each the first slot of its variable. -/
theorem exists_firstSlot (hdistinct : (fields.map fun f => foldName f.name).Nodup)
    (hf : f ∈ fields) :
    ∃ k, (layoutOrder fields)[k]? = some f ∧ ∀ kind name, sameName name f.name = true →
      DataLayout.slot (DataLayout.slotMap fields) kind name =
        .ok (firstSlot (layoutOrder fields) k) := by
  obtain ⟨k, hk⟩ := List.mem_iff_getElem?.mp (mem_layoutOrder.mpr hf)
  have hplace : (f.name, firstSlot (layoutOrder fields) k) ∈ segmentLayout fields := by
    have hget := getElem?_placeFrom hk 0
    rw [Nat.zero_add] at hget
    exact List.mem_of_getElem? hget
  have hkeys : ((DataLayout.slotMap fields).map Prod.fst).Nodup := by
    have hnames : (DataLayout.slotMap fields).map Prod.fst =
        ((layoutOrder fields).map fun f => foldName f.name).reverse := by
      calc (DataLayout.slotMap fields).map Prod.fst
          = ((segmentLayout fields).reverse.map Prod.fst).map foldName := by
            rw [DataLayout.slotMap, List.map_map, List.map_map]
            rfl
        _ = (((layoutOrder fields).map DataField.name).map foldName).reverse := by
            rw [List.map_reverse, List.map_reverse, segmentLayout, map_fst_placeFrom]
        _ = _ := by
            rw [List.map_map]
            rfl
    rw [hnames, List.nodup_reverse]
    exact ((layoutOrder_perm fields).map _).nodup_iff.mpr hdistinct
  have hentry : (foldName f.name, firstSlot (layoutOrder fields) k) ∈ DataLayout.slotMap fields :=
    List.mem_map.mpr ⟨_, List.mem_reverse.mpr hplace, rfl⟩
  refine ⟨k, hk, fun kind name hname => ?_⟩
  have hfold : foldName name = foldName f.name := beq_iff_eq.mp hname
  rw [DataLayout.slot, hfold, lookup_of_mem hkeys hentry]

end

/-! ## Names -/

/-- A name that no block declares is looked up among the symbols of the script. -/
theorem Scope.findName?_of_blocks {scope : Scope} {name : String}
    (h : ∀ block ∈ scope.innermost :: scope.enclosing, block.find? (Identity.ofName name) = none) :
    scope.findName? name = scope.globals.findName? name := by
  have hblocks : (scope.innermost :: scope.enclosing).findSome? (·.find? (Identity.ofName name)) =
      none :=
    List.findSome?_eq_none_iff.mpr h
  rw [Scope.findName?, Scope.find?, hblocks]
  rfl

section
variable {script : Script}

theorem check_findName? (h : (check script).isSuccess = true) (storage : Storage) {d : TypedData}
    (hd : d ∈ storage.data (check script).program) :
    ∃ symbol, (check script).program.symbols.findName? d.name = some symbol ∧ ∀ scope span name,
      Scope.findName? scope name = some symbol →
      Typing.name scope span name = pure (storage.expr d.ty span d.name) := by
  cases storage with
  | static =>
      obtain ⟨span, isArg, init, hfind⟩ := (check_symbols h).1 d hd
      refine ⟨_, hfind, fun scope span name hname => ?_⟩
      rw [Typing.name, hname]
      rfl
  | global =>
      obtain ⟨span, hfind⟩ := (check_symbols h).2 d hd
      refine ⟨_, hfind, fun scope span name hname => ?_⟩
      rw [Typing.name, hname]
      rfl

theorem check_data_distinct (h : (check script).isSuccess = true) (storage : Storage) :
    ((storage.data (check script).program).map fun d => foldName d.name).Nodup := by
  have hnames := nodup_foldName (check_distinct h)
  rw [TypedProgram.names, List.map_append, List.map_append, List.map_append] at hnames
  have hvariables := (List.nodup_append.mp (List.nodup_append.mp hnames).1).1
  rw [List.nodup_append, List.map_map, List.map_map] at hvariables
  cases storage with
  | static => exact hvariables.1
  | global => exact hvariables.2.1

/-! ## Regions -/

theorem assemble_segment {generated : GeneratedScript} {withNames : Bool}
    {assembled : AssembledScript}
    (h : assemble generated.functions generated.statics generated.globals withNames = .ok assembled)
    (storage : Storage) : ∃ segment, buildSegment (storage.fields generated) = .ok segment ∧
      storage.words assembled = segment.words := by
  obtain ⟨written, -, h⟩ := bind_eq_ok.mp h
  obtain ⟨code, -, h⟩ := bind_eq_ok.mp h
  obtain ⟨statics, hstatics, h⟩ := bind_eq_ok.mp h
  obtain ⟨globals, hglobals, h⟩ := bind_eq_ok.mp h
  obtain rfl := Except.ok.inj h
  cases storage with
  | static => exact ⟨statics, hstatics, rfl⟩
  | global => exact ⟨globals, hglobals, rfl⟩

variable {p : TypedProgram} {generated : GeneratedScript}

theorem GeneratedScript.Of.fields (hof : generated.Of p) (storage : Storage) :
    storage.fields generated = (storage.data p).map Lowering.dataField := by
  cases storage with
  | static => exact hof.statics
  | global => exact hof.globals

/-- The entry of the table that the address of a variable is made from. -/
theorem slot_ofFields (storage : Storage) (name : String) :
    ∃ kind, storage.slot (.ofFields generated.statics generated.globals) name =
      DataLayout.slot (DataLayout.slotMap (storage.fields generated)) kind name := by
  cases storage with
  | static => exact ⟨"static", rfl⟩
  | global => exact ⟨"global", rfl⟩

theorem placed_of_mem (h : (check script).isSuccess = true)
    (hof : generated.Of (check script).program) {storage : Storage} {d : TypedData}
    (hd : d ∈ storage.data (check script).program) :
    ∃ slot, storage.Placed (check script).program generated d slot := by
  have hfields := hof.fields storage
  have hdistinct : ((storage.fields generated).map fun f => foldName f.name).Nodup := by
    rw [hfields, List.map_map]
    exact check_data_distinct h storage
  obtain ⟨k, hk, hslot⟩ := exists_firstSlot hdistinct (hfields ▸ List.mem_map_of_mem hd)
  refine ⟨firstSlot (layoutOrder (storage.fields generated)) k, ?_, ?_, ?_⟩
  · intro scope span name hname hglobals hblocks
    obtain ⟨symbol, hsymbol, hexpr⟩ := check_findName? h storage hd
    apply hexpr
    have hid : Identity.ofName name = Identity.ofName d.name :=
      Identity.ofName_eq_of_foldName_eq (beq_iff_eq.mp hname)
    rw [Scope.findName?_of_blocks hblocks, hglobals, GlobalTable.findName?, hid]
    exact hsymbol
  · intro ty span name hname
    obtain ⟨kind, hkind⟩ := slot_ofFields storage name
    exact (Lowering.address_expr storage).mpr ⟨_, hkind.trans (hslot kind name hname), rfl⟩
  · intro withNames assembled hassemble
    obtain ⟨segment, hsegment, hwords⟩ := assemble_segment hassemble storage
    refine ⟨k, hk, rfl, ?_⟩
    rw [hwords]
    exact (laysOut_of_buildSegment hsegment).contents k _ hk

/-! ## Code -/

theorem mem_data_of_wellTyped {storage : Storage} {args locals : List Variable} {ty : Ty}
    {span : Span} {name : String}
    (h : (storage.expr ty span name).WellTyped (p.env.inside args locals)) :
    ∃ d ∈ storage.data p, d.name = name ∧ d.ty = ty := by
  have hentry : (name, ty) ∈ (storage.data p).map TypedData.entry := by
    cases storage with
    | static =>
        cases h with
        | static hmem => exact hmem
    | global =>
        cases h with
        | global hmem => exact hmem
  obtain ⟨d, hd, heq⟩ := List.mem_map.mp hentry
  exact ⟨d, hd, congrArg Prod.fst heq, congrArg Prod.snd heq⟩

/-- A slot that the table has for an expression is the slot of the variable that the expression
names. -/
theorem placed_of_namesSlot (hof : generated.Of p)
    (hplaced : ∀ storage : Storage, ∀ d ∈ storage.data p, ∃ slot, storage.Placed p generated d slot)
    {args locals : List Variable} {x : TypedExpr} {storage : Storage} {slot : Nat}
    (hx : x.WellTyped (p.env.inside args locals))
    (h : Lowering.NamesSlot (Lowering.layoutOf p) x storage slot) :
    ∃ d ∈ storage.data p, ∃ span, x = storage.expr d.ty span d.name ∧
      storage.Placed p generated d slot := by
  cases h with
  | @mk _ ty span name _ hslot =>
      obtain ⟨d, hd, rfl, rfl⟩ := mem_data_of_wellTyped hx
      obtain ⟨slot', hslot'⟩ := hplaced storage d hd
      have haddress := hslot'.addressed d.ty span d.name (beq_self_eq_true _)
      obtain ⟨slot'', hslot'', hcode⟩ := (Lowering.address_expr storage).mp haddress
      rw [hof.layout, hslot] at hslot''
      obtain rfl := Except.ok.inj hslot''
      have heq : (slot' : Int) = slot := by simpa [pushInt, Statement.push] using hcode
      obtain rfl := Int.ofNat_inj.mp heq
      exact ⟨d, hd, span, rfl, hslot'⟩

theorem function_accessed (hp : p.WellTyped) (hof : generated.Of p)
    (hplaced : ∀ storage : Storage, ∀ d ∈ storage.data p, ∃ slot, storage.Placed p generated d slot)
    {f : TypedFunction} (hf : f ∈ p.functions) {def' : FunctionDef} {before code : List Statement}
    {n n' : Nat} (hcode : Lowering.FunctionCode p f def' before code n n') :
    Lowering.Accesses (fun storage slot => ∃ d ∈ storage.data p, storage.Placed p generated d slot ∧
      ∃ t ∈ Lowering.preludeFor p f ++ f.body, ∃ span, t.Uses (storage.expr d.ty span d.name))
        def'.body := by
  have huses : ∀ t ∈ Lowering.preludeFor p f ++ f.body, ∀ x : TypedExpr, t.Uses x → ∀ storage slot,
      Lowering.NamesSlot (Lowering.layoutOf p) x storage slot →
      ∃ d ∈ storage.data p, storage.Placed p generated d slot ∧
        ∃ t ∈ Lowering.preludeFor p f ++ f.body, ∃ span,
            t.Uses (storage.expr d.ty span d.name) := by
    intro t ht x hx storage slot hslot
    have hwell : x.WellTyped (p.env.inside f.args f.locals) := by
      rcases List.mem_append.mp ht with h | h
      · exact hx.wellTyped (Lowering.preludeFor_wellTyped hp t h)
      · exact hx.wellTyped ((hp.functions f hf).body t h)
    obtain ⟨d, hd, span, rfl, hd'⟩ := placed_of_namesSlot hof hplaced hwell hslot
    exact ⟨d, hd, hd', t, ht, span, hx⟩
  rw [List.forall_mem_append] at huses
  have hbefore := Lowering.block_accesses _ huses.1 hcode.prelude
  have hbody := Lowering.block_accesses _ huses.2 hcode.body
  rw [hcode.eq]
  refine (hbefore.append hbody).append (Lowering.Quiet.accesses ?_)
  split <;> simp

end

/-- Segments are laid out as the table of slots says, so the slot that generated code pushes for a
variable of a script without errors is the first of its region. -/
theorem check_data_agree :
    (∀ fields segment, buildSegment fields = .ok segment → segment.LaysOut fields) ∧
      ∀ script generated, (check script).isSuccess = true →
        generate (check script).program = .ok generated →
        ∀ storage : Storage, storage.Agrees (check script).program generated := by
  refine ⟨fun fields segment => laysOut_of_buildSegment,
    fun script generated h hgenerated storage => ?_⟩
  have hp := (check_wellTyped h).1
  have hof : generated.Of (check script).program := by
    rcases generate_cases hp with ⟨script', hscript', hof⟩ | ⟨herror, -⟩
    · rw [hscript'] at hgenerated
      exact Except.ok.inj hgenerated ▸ hof
    · rw [herror] at hgenerated
      cases hgenerated
  have hplaced (storage : Storage) (d : TypedData) (hd : d ∈ storage.data (check script).program) :=
    placed_of_mem h hof hd
  constructor
  case placed => exact hplaced storage
  case accessed =>
    obtain ⟨hlength, hcodes⟩ := List.forall₂_iff_zip.mp hof.functions
    refine List.forall₂_iff_zip.mpr ⟨hlength, fun {f def'} hmem front s back hbody hs => ?_⟩
    obtain ⟨before, code, n, n', hcode⟩ := hcodes hmem
    have haccesses := function_accessed hp hof hplaced (List.of_mem_zip hmem).1 hcode
    obtain ⟨front', slot, rfl, rfl, d, hd, hslot, huses⟩ := haccesses.pushed hs hbody
    exact ⟨front', d, slot, rfl, rfl, hd, hslot, huses⟩

/-- A script with an argument that is declared first but lies last, and with uses in other cases. -/
def ledger : Script :=
  [.static {
      name := "seed"
      ty := { name := "INT" }
      init := some (.literal {} (.int 7))
      isArg := true },
    .static { name := "home", ty := { name := "VECTOR" } },
    .static { name := "count", ty := { name := "INT" }, init := some (.literal {} (.int 3)) },
    .globals { name := "tally", vars := [{ name := "total", ty := { name := "INT" } }] },
    .function {
      name := "main"
      params := []
      body := [
        .assign {} (.name {} "COUNT") (.binary {} .add (.name {} "Count") (.name {} "SEED")),
        .assign {} (.name {} "Total") (.name {} "count")] }]

def ledgerFields : List DataField :=
  [⟨"seed", .int, some (.int 7), true⟩, ⟨"home", .vector, none, false⟩,
    ⟨"count", .int, some (.int 3), false⟩]

theorem check_data_agree_ledger :
    (∃ segment, buildSegment ledgerFields = .ok segment ∧ segment.words = [0, 0, 0, 3, 7] ∧
      segment.LaysOut ledgerFields) ∧
    (check ledger).isSuccess = true ∧
      ∃ generated assembled, generate (check ledger).program = .ok generated ∧
        assemble generated.functions generated.statics generated.globals false = .ok assembled ∧
        assembled.statics = [0, 0, 0, 3, 7] ∧
        ∀ storage : Storage, storage.Agrees (check ledger).program generated := by
  have hwords : (buildSegment ledgerFields).toOption.map Segment.words = some [0, 0, 0, 3, 7] := by
    decide +kernel
  have heval : (check ledger).isSuccess = true ∧
      ((generate (check ledger).program).toOption.bind fun generated =>
        (assemble generated.functions generated.statics generated.globals false).toOption.map
          AssembledScript.statics) = some [0, 0, 0, 3, 7] := by
    rw [check_eq_checkFrom]
    decide +kernel
  obtain ⟨segment, hsegment, hsegmentWords⟩ := Option.map_eq_some_iff.mp hwords
  obtain ⟨generated, hgenerated, hassembled⟩ := Option.bind_eq_some_iff.mp heval.2
  obtain ⟨assembled, hassembled, hstatics⟩ := Option.map_eq_some_iff.mp hassembled
  have hsegment := ok_of_toOption hsegment
  have hgenerated := ok_of_toOption hgenerated
  exact ⟨⟨segment, hsegment, hsegmentWords, check_data_agree.1 _ _ hsegment⟩, heval.1, generated,
    assembled, hgenerated, ok_of_toOption hassembled, hstatics,
    check_data_agree.2 _ _ heval.1 hgenerated⟩

end GameScript
