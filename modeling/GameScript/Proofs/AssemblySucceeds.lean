import GameScript.Proofs.LabelTable

/-!
# When assembly succeeds

A list of functions is assembled if every line of code can be encoded, no key is defined twice, and
every label that is referred to stands within reach. Nothing else can go wrong, and the code is then
known line by line. The addresses of the labels are those that the sizes of the lines give them, so
they can be found before anything is written.
-/
namespace GameScript

/-! ## Resolving -/

theorem mem_of_mem_openFields {start : Nat} {ps : List Piece} {field : OpenField}
    (h : field ∈ openFields start ps) :
    field.kind = .absolute32 ∧ Piece.address field.key field.name ∈ ps := by
  induction ps generalizing start with
  | nil => cases h
  | cons p ps ih =>
      cases p with
      | bytes value =>
          obtain ⟨hkind, hmem⟩ := ih h
          exact ⟨hkind, List.mem_cons_of_mem _ hmem⟩
      | address key name =>
          rcases List.mem_cons.mp h with rfl | h
          · exact ⟨rfl, List.mem_cons_self⟩
          · obtain ⟨hkind, hmem⟩ := ih h
            exact ⟨hkind, List.mem_cons_of_mem _ hmem⟩

/-- A buffer whose labels are all placed can be resolved. -/
theorem CodeBuffer.Holds.exists_resolve {b : CodeBuffer} {ps : List Piece} (h : b.Holds ps)
    (hplaced : ∀ p ∈ ps, p.Placed b.address?) : ∃ code, b.resolve = .ok code := by
  have hends : Ends (fun _ => False) b.resolve fun _ => True := by
    refine Ends.foldlM (I := fun _ _ => True) b.fixups trivial fun before f after code hf _ => ?_
    have hmem : f ∈ b.fixups := hf ▸ List.mem_append_right before List.mem_cons_self
    have hfield : f.field ∈ openFields 0 ps := h.fields ▸ List.mem_map_of_mem hmem
    obtain ⟨hkind, hpiece⟩ := mem_of_mem_openFields hfield
    obtain ⟨ip, hip, hlt⟩ := hplaced _ hpiece
    have hfill : f.fill ip = .ok (leBytes 4 ip) := by
      have hkind : f.kind = .absolute32 := hkind
      rw [Fixup.fill, hkind]
      exact if_pos hlt
    have haddress : b.address? f.key = some ip := hip
    rw [haddress]
    exact .inl ⟨_, congrArg (Except.map (patch code f.offset)) hfill, trivial⟩
  rcases hends with ⟨code, hcode, -⟩ | ⟨e, -, he⟩
  · exact ⟨code, hcode⟩
  · exact he.elim

/-! ## Lines -/

def Line.key? : Line → Option String
  | label key => some key
  | _ => none

theorem Line.key?_of_isCode {line : Line} (h : line.isCode = true) : line.key? = none := by
  cases line with
  | label key => cases h
  | opening f => rfl
  | instruction f mnemonic operands => rfl

theorem map_fst_labelAddresses {lines : List Line} {sizes : List Nat}
    (hlen : (lines.filter Line.isCode).length = sizes.length) (ip : Nat) :
    (labelAddresses ip lines sizes).map Prod.fst = lines.filterMap Line.key? := by
  induction lines generalizing ip sizes with
  | nil => rfl
  | cons line lines ih =>
      cases hline : line.isCode with
      | false =>
          obtain ⟨key, rfl⟩ := Line.eq_label hline
          rw [labelAddresses, List.map_cons, ih hlen]
          rfl
      | true =>
          rw [List.filter_cons_of_pos hline, List.length_cons] at hlen
          cases sizes with
          | nil => cases hlen
          | cons size sizes =>
              rw [labelAddresses_code hline, ih (Nat.succ.inj hlen),
                List.filterMap_cons_none (Line.key?_of_isCode hline)]

theorem Statement.filterMap_key?_lines (f : FunctionDef) (s : Statement) :
    (s.lines f).filterMap Line.key? = (Lowering.codeLabels [s]).map (labelKey f.name) := by
  rw [Statement.lines, List.filterMap_append, Lowering.codeLabels]
  cases hl : s.label <;> cases hm : s.mnemonic <;> simp [hl, Line.key?]

theorem FunctionDef.filterMap_key?_lines (f : FunctionDef) :
    f.lines.filterMap Line.key? = f.keys := by
  have hbody (body : List Statement) : (body.flatMap (Statement.lines f)).filterMap Line.key? =
      (Lowering.codeLabels body).map (labelKey f.name) := by
    induction body with
    | nil => rfl
    | cons s body ih =>
        rw [List.flatMap_cons, List.filterMap_append, ih, s.filterMap_key?_lines, ← List.map_append,
          ← Lowering.codeLabels_append, List.singleton_append]
  rw [FunctionDef.lines, List.filterMap_cons_some (by rfl), List.filterMap_append, hbody,
    FunctionDef.keys]
  cases f.naked <;> rfl

/-- The keys of the label table are the keys of the functions. -/
theorem map_fst_labelAddresses_lines {fs : List FunctionDef} {sizes : List Nat}
    (hlen : ((fs.flatMap FunctionDef.lines).filter Line.isCode).length = sizes.length) :
    (labelAddresses 0 (fs.flatMap FunctionDef.lines) sizes).map Prod.fst =
      fs.flatMap FunctionDef.keys := by
  rw [map_fst_labelAddresses hlen, List.filterMap_flatMap]
  exact congrArg (fs.flatMap ·) (funext FunctionDef.filterMap_key?_lines)

theorem Line.Encodes.unique {withNames : Bool} {line : Line} {pieces pieces' : List Piece}
    (h : line.Encodes withNames pieces) (h' : line.Encodes withNames pieces') :
    pieces = pieces' := by
  cases line with
  | label key => exact h.elim
  | opening f =>
      obtain ⟨bytes, _, hbytes, rfl⟩ := h
      obtain ⟨bytes', _, hbytes', rfl⟩ := h'
      rw [hbytes] at hbytes'
      rw [Except.ok.inj hbytes']
  | instruction f mnemonic operands => exact Except.ok.inj (h.symm.trans h')

theorem FunctionDef.encodes_of_lines {withNames : Bool} {f : FunctionDef}
    (h : ∀ line ∈ f.lines, line.isCode = true → ∃ pieces, line.Encodes withNames pieces) :
    f.Encodes (fun _ => False) (fun _ => True) withNames := by
  constructor
  case opening =>
    cases hnaked : f.naked with
    | true =>
        rw [Assemble.prologue, if_pos hnaked]
        exact .ok trivial
    | false =>
        have hmem : Line.opening f ∈ f.lines := by
          rw [FunctionDef.lines, hnaked]
          exact List.mem_cons_of_mem _ List.mem_cons_self
        obtain ⟨pieces, bytes, _, hbytes, _⟩ := h _ hmem rfl
        exact .inl ⟨bytes, hbytes, trivial⟩
  case body =>
    intro s hs mnemonic hm
    have hmem : Line.instruction f mnemonic s.operands ∈ s.lines f := by
      rw [Statement.lines, Option.mem_def.mp hm]
      exact List.mem_append_right _ List.mem_cons_self
    have hline : Line.instruction f mnemonic s.operands ∈ f.lines :=
      List.mem_cons_of_mem _ (List.mem_append_right _ (List.mem_flatMap.mpr ⟨s, hs, hmem⟩))
    obtain ⟨pieces, hpieces⟩ := h _ hline rfl
    exact .inl ⟨pieces, hpieces, fun _ _ _ => trivial⟩

/-! ## Scripts -/

def labelTable (fs : List FunctionDef) (sizes : List Nat) (key : String) : Option Nat :=
  (labelAddresses 0 (fs.flatMap FunctionDef.lines) sizes).lookup key

section
variable {withNames : Bool} {fs : List FunctionDef} {groups : List (List Piece)}

theorem exists_written (hkeys : (fs.flatMap FunctionDef.keys).Nodup)
    (hencodes : List.Forall₂ (Line.Encodes withNames)
      ((fs.flatMap FunctionDef.lines).filter Line.isCode) groups) :
    ∃ b entries, Assemble.functions withNames {} fs = .ok (b, entries) ∧
      Written withNames b (fs.flatMap FunctionDef.lines) groups := by
  have hfs : ∀ f ∈ fs, f.Encodes (fun _ => False) (fun _ => True) withNames := by
    intro f hf
    apply FunctionDef.encodes_of_lines
    intro line hline hcode
    have hmem : line ∈ (fs.flatMap FunctionDef.lines).filter Line.isCode :=
      List.mem_filter.mpr ⟨List.mem_flatMap.mpr ⟨f, hf, hline⟩, hcode⟩
    obtain ⟨pieces, -, hpieces⟩ := exists_of_mem_forall₂ hencodes.flip hmem
    exact ⟨pieces, hpieces⟩
  have hends := Assemble.functions_ends hfs CodeBuffer.defines_empty hkeys
  rcases hends with ⟨⟨b, entries⟩, hfunctions, -⟩ | ⟨e, -, he⟩
  · obtain ⟨groups', hwritten⟩ := Assemble.functions_written Written.empty hfunctions
    rw [List.nil_append, List.nil_append] at hwritten
    have hgroups : groups' = groups :=
      List.right_unique_forall₂' (fun _ _ _ h h' => h.unique h') hwritten.groups hencodes
    exact ⟨b, entries, hfunctions, hgroups ▸ hwritten⟩
  · exact he.elim

/-- Assembly succeeds, and the code consists of the encoded lines with every label at its
address. -/
theorem assemble_of_encodes {functions : List FunctionDef} {statics globals : List DataField}
    {staticSegment globalSegment : Segment} (hfs : orderFunctions functions = fs)
    (hkeys : (fs.flatMap FunctionDef.keys).Nodup)
    (hencodes : List.Forall₂ (Line.Encodes withNames)
      ((fs.flatMap FunctionDef.lines).filter Line.isCode) groups)
    (hplaced : ∀ pieces ∈ groups, ∀ p ∈ pieces, p.Placed (labelTable fs (groups.map groupSize)))
    (hstatics : buildSegment statics = .ok staticSegment)
    (hglobals : buildSegment globals = .ok globalSegment) :
    ∃ entries, assemble functions statics globals withNames = .ok {
      code :=
  (groups.map (filledAll fun key => (labelTable fs (groups.map groupSize) key).getD 0)).flatten
      statics := staticSegment.words
      globals := globalSegment.words
      argsCount := staticSegment.argsCount
      functions := entries } := by
  obtain ⟨b, entries, hfunctions, hwritten⟩ := exists_written hkeys hencodes
  have haddress : b.address? = labelTable fs (groups.map groupSize) := by
    funext key
    rw [CodeBuffer.address?, hwritten.labels, labelTable]
  have hpieces : ∀ p ∈ groups.flatten, p.Placed b.address? := by
    intro p hp
    obtain ⟨pieces, hmem, hp⟩ := List.mem_flatten.mp hp
    rw [haddress]
    exact hplaced pieces hmem p hp
  obtain ⟨code, hresolve⟩ := hwritten.holds.exists_resolve hpieces
  obtain ⟨hcode, -⟩ := hwritten.holds.resolve hresolve
  rw [haddress, filledAll_flatten] at hcode
  rw [← hcode]
  rw [← hfs] at hfunctions
  exact ⟨entries, bind_eq_ok.mpr ⟨_, hfunctions, bind_eq_ok.mpr ⟨_, hresolve,
    bind_eq_ok.mpr ⟨_, hstatics, bind_eq_ok.mpr ⟨_, hglobals, rfl⟩⟩⟩⟩⟩

end
end GameScript
