import GameScript.Proofs.StructMeaning

/-!
# Declaring structs in rounds

Structs are tried in rounds until a round declares none. Whatever their order, the rounds end with
exactly those structs declared that stand for a type, each with that type, and the others are
reported together in the order in which they are written. A round goes on with the table that it
finds and only ever adds to it, so a struct that is put off is blocked by a name that is still
unknown; if this holds of all that are left, nothing more can ever be declared.
-/
namespace GameScript

open DeclareM

/-- Whether some structs are reported as undefined or circular. -/
def Diagnostic.isUnresolved (d : Diagnostic) : Bool :=
  match d.cause with
  | .declaration (.undefinedOrCircular _) => true
  | _ => false

def StructDecl.symbol (d : StructDecl) (ty : Ty) : Symbol := ⟨d.name, ty, d.span, .type⟩

namespace GlobalTable

def declare (t : GlobalTable) (d : StructDecl) (ty : Ty) : GlobalTable :=
  ⟨t.symbols ++ [(d.id, d.symbol ty)]⟩

def typeAt (t : GlobalTable) (id : Identity) : Ty := ((t.find? id).map Symbol.ty).getD .void

def unknown (t : GlobalTable) (queue : List StructDecl) : List StructDecl :=
  queue.filter fun d => (t.find? d.id).isNone

/-- Some field is built from an unknown name. -/
def Blocks (t : GlobalTable) (d : StructDecl) : Prop := ∃ f ∈ d.fields, t.find? f.base = none

variable {t : GlobalTable} {d : StructDecl} {ty : Ty} {id : Identity}

theorem typeAt_of_find? {symbol : Symbol} (h : t.find? id = some symbol) :
    t.typeAt id = symbol.ty := by
  rw [typeAt, h]
  rfl

theorem mem_unknown {queue : List StructDecl} : d ∈ t.unknown queue ↔ d ∈ queue ∧
    t.find? d.id = none := by
  rw [unknown, List.mem_filter, Option.isNone_iff_eq_none]

theorem find?_declare_self (h : t.find? d.id = none) :
    (t.declare d ty).find? d.id = some (d.symbol ty) :=
  lookup_concat_self h _

theorem find?_declare_of_ne (h : d.id ≠ id) : (t.declare d ty).find? id = t.find? id :=
  lookup_concat_of_ne t.symbols h.symm _

theorem find?_eq_none_of_kept {t' : GlobalTable}
    (hkept : ∀ id symbol, t.find? id = some symbol → t'.find? id = some symbol)
    (h : t'.find? id = none) :
    t.find? id = none := by
  cases hfind : t.find? id with
  | none => rfl
  | some symbol => exact (hkept id symbol hfind).symm.trans h

/-- What is unknown to a table is unknown to any table from which it grew. -/
theorem unknown_unknown {t' : GlobalTable}
    (hkept : ∀ id symbol, t.find? id = some symbol → t'.find? id = some symbol)
    (queue : List StructDecl) :
    t'.unknown (t.unknown queue) = t'.unknown queue := by
  rw [unknown, unknown, unknown, List.filter_filter]
  apply List.filter_congr
  intro d _
  cases hfind : t'.find? d.id with
  | some symbol => rfl
  | none => rw [find?_eq_none_of_kept hkept hfind]; rfl

end GlobalTable

/-! ## What the rounds keep -/

/-- The structs that are declared so far have the types that they stand for, and what is registered
so far is registered for them. -/
structure DeclareState.Progress (s₀ : DeclareState) (decls : List StructDecl) (s : DeclareState) :
    Prop where
  kept : ∀ id symbol, s₀.symbols.find? id = some symbol → s.symbols.find? id = some symbol
  symbols : ∀ id symbol, s.symbols.find? id = some symbol → s₀.symbols.find? id = some symbol ∨
    ∃ d ∈ decls, ∃ ty, d.id = id ∧ s₀.Means decls d.id ty ∧ symbol = d.symbol ty
  instances : ∀ id ty, s₀.registry.find? id = some ty → s.registry.find? id = some ty
  registry : ∀ id ty, s.registry.find? id = some ty → s₀.registry.find? id = some ty ∨
    s₀.Registers decls ty ∧ ty.identity = id
  reports : ∃ reports, s.diagnostics.items = s₀.diagnostics.items ++ reports ∧
    ∀ d ∈ reports, d.isUnresolved = false

namespace DeclareState.Progress

variable {s₀ s : DeclareState} {decls : List StructDecl} {d : StructDecl} {f : FieldDecl}
  {ty base : Ty}

theorem refl (s : DeclareState) (decls : List StructDecl) : s.Progress decls s where
  kept _ _ h := h
  symbols _ _ := .inl
  instances _ _ h := h
  registry _ _ := .inl
  reports := ⟨[], (List.append_nil _).symm, fun _ hd => absurd hd List.not_mem_nil⟩

theorem report (hs : s₀.Progress decls s) {d : Diagnostic} (hd : d.isUnresolved = false) :
    s₀.Progress decls { s with diagnostics := s.diagnostics.push d } := by
  obtain ⟨reports, hitems, hreports⟩ := hs.reports
  refine { hs with reports := ⟨reports ++ [d], ?_, ?_⟩ }
  · rw [← List.append_assoc, ← hitems]
    rfl
  · exact List.forall_mem_append.mpr ⟨hreports, List.forall_mem_singleton.mpr hd⟩

/-- A type that is new to the registry may be added to it. -/
theorem registerNew (hs : s₀.Progress decls s) (hty : s₀.Registers decls ty)
    (hfind : s.registry.find? ty.identity = none) :
    ∃ r, s.registry.register ty = .ok (ty, r) ∧ s₀.Progress decls { s with registry := r } := by
  obtain ⟨r, hregister, hself, hothers⟩ := Registry.register_of_none hfind
  have hkept := (Registry.register_find hregister).2
  refine ⟨r, hregister, { hs with instances := ?_, registry := ?_ }⟩
  · exact fun id other hother => hkept id other (hs.instances id other hother)
  · intro id other hother
    by_cases hid : id = ty.identity
    · rw [hid, hself] at hother
      obtain rfl := Option.some.inj hother
      exact .inr ⟨hty, hid.symm⟩
    · rw [hothers id hid] at hother
      exact hs.registry id other hother

/-- Registering gives the instance that the registry had at the start, or else the type itself. -/
theorem register (h : s₀.Declarable decls) (h₀ : s₀.TypesRegistered) (hs : s₀.Progress decls s)
    (hty : s₀.Registers decls ty) :
    ∃ r, s.registry.register ty = .ok (s₀.registry.intern ty, r) ∧
      s₀.Progress decls { s with registry := r } := by
  cases hstart : s₀.registry.find? ty.identity with
  | some other =>
      have hregister :=
        Registry.register_of_some (hs.instances _ _ hstart) (h.registered ty hty other hstart)
      rw [Registry.intern, hstart, Option.getD_some]
      exact ⟨s.registry, hregister, hs⟩
  | none =>
      rw [Registry.intern, hstart, Option.getD_none]
      cases hfind : s.registry.find? ty.identity with
      | none => exact hs.registerNew hty hfind
      | some other =>
          -- The other type was registered on the way, so both are settled and are the same.
          rcases hs.registry _ _ hfind with hold | ⟨hother, hid⟩
          · rw [hstart] at hold
            cases hold
          · have hbeq := h.together ty hty other hother hid
            have hsame : other.same ty = true := Ty.beq_eq_same other ty ▸ hbeq
            have hnone : s₀.registry.find? other.identity = none := by rw [hid, hstart]
            obtain rfl : other = ty :=
              DeclareState.Settled.unique h h₀ (.inr ⟨hnone, hother⟩) (.inr ⟨hstart, hty⟩) hsame
            exact ⟨s.registry, Registry.register_of_some hfind hbeq, hs⟩

theorem internArrays (h : s₀.Declarable decls) (h₀ : s₀.TypesRegistered) (hd : d ∈ decls)
    (hf : f ∈ d.fields) (hbase : s₀.Means decls f.base base) {inner outer : List UInt32}
    (hlengths : f.ty.lengths = inner ++ outer) (hs : s₀.Progress decls s) :
    ∃ r, GameScript.internArrays s.registry (s₀.registry.arrays base inner) outer =
        (.ok (s₀.registry.arrays base f.ty.lengths), r) ∧
      s₀.Progress decls { s with registry := r } := by
  induction outer generalizing inner s with
  | nil =>
      rw [List.append_nil] at hlengths
      rw [hlengths]
      exact ⟨s.registry, rfl, hs⟩
  | cons n outer ih =>
      obtain ⟨r, hregister, hr⟩ := hs.register h h₀ (.array hd hf hbase hlengths)
      have hlonger : f.ty.lengths = inner ++ [n] ++ outer := by
        rw [hlengths, List.append_assoc, List.singleton_append]
      obtain ⟨r', hrest, hr'⟩ := ih hlonger hr
      rw [Registry.arrays_concat] at hrest
      refine ⟨r', ?_, hr'⟩
      rw [GameScript.internArrays, Registry.registerArray, hregister]
      exact hrest

/-- A known name from which a field is built stands for its type. -/
theorem means_of_find? (h : s₀.Declarable decls) (hs : s₀.Progress decls s) (hd : d ∈ decls)
    (hf : f ∈ d.fields) {symbol : Symbol} (hfind : s.symbols.find? f.base = some symbol) :
    symbol.kind.isType = true ∧ s₀.Means decls f.base symbol.ty := by
  rcases hs.symbols _ _ hfind with hold | ⟨e, he, ty, hid, hty, rfl⟩
  · have htype := h.types d hd f hf symbol hold
    exact ⟨htype, .declared hold htype⟩
  · exact ⟨rfl, hid ▸ hty⟩

theorem declare (hs : s₀.Progress decls s) (hd : d ∈ decls) (hfresh : s.symbols.find? d.id = none)
    (hty : s₀.Means decls d.id ty) :
    s₀.Progress decls { s with symbols := s.symbols.declare d ty } := by
  refine { hs with kept := fun id symbol hfind => ?_, symbols := fun id symbol hfind => ?_ }
  · exact GlobalTable.find?_of_prefix (List.prefix_append _ _) (hs.kept id symbol hfind)
  · by_cases hid : d.id = id
    · have hself : (s.symbols.declare d ty).find? d.id = some (d.symbol ty) :=
        GlobalTable.find?_declare_self hfresh
      rw [← hid] at hfind
      obtain rfl := Option.some.inj (hself.symm.trans hfind)
      exact .inr ⟨d, hd, ty, hid, hty, rfl⟩
    · rw [GlobalTable.find?_declare_of_ne hid] at hfind
      exact hs.symbols id symbol hfind

end DeclareState.Progress

/-! ## One attempt -/

section
variable {s₀ : DeclareState} {decls : List StructDecl} {t : GlobalTable} {d : StructDecl}

/-- The rounds have come so far that `t` is the table of symbols. -/
def DeclareState.At (s₀ : DeclareState) (decls : List StructDecl) (t : GlobalTable)
    (s : DeclareState) : Prop :=
  s₀.Progress decls s ∧ s.symbols = t

/-- The outcome of resolving the type of a field. -/
def FieldDecl.resolution (r : Registry) (t : GlobalTable) (f : FieldDecl) : Except Cause Ty :=
  match t.find? f.base with
  | none => .error (.declaration (.unknownType f.ty.name))
  | some symbol => .ok (r.arrays symbol.ty f.ty.lengths)

theorem resolve_at (h : s₀.Declarable decls) (h₀ : s₀.TypesRegistered) (hd : d ∈ decls)
    {f : FieldDecl} (hf : f ∈ d.fields) :
    Triple (s₀.At decls t) (resolve f.ty) fun found s =>
      s₀.At decls t s ∧ found = f.resolution s₀.registry t := by
  rintro s ⟨hs, rfl⟩
  show s₀.At decls s.symbols
    { s with registry := (resolveType s.symbols.findName? s.registry f.ty).2 } ∧
    (resolveType s.symbols.findName? s.registry f.ty).1 = f.resolution s₀.registry s.symbols
  rw [resolveType, FieldDecl.resolution, show s.symbols.findName? f.ty.name =
    s.symbols.find? f.base from rfl]
  cases hfind : s.symbols.find? f.base with
  | none => exact ⟨⟨hs, rfl⟩, rfl⟩
  | some symbol =>
      obtain ⟨htype, hmeans⟩ := hs.means_of_find? h hd hf hfind
      obtain ⟨r, hintern, hr⟩ := hs.internArrays h h₀ hd hf hmeans (List.nil_append _).symm
      have hrun : internArrays s.registry symbol.ty f.ty.lengths =
        (.ok (s₀.registry.arrays symbol.ty f.ty.lengths), r) := hintern
      simp only [htype, if_true, hrun, and_true]
      exact ⟨hr, rfl⟩

theorem DeclareM.Triple.mapM_eq {α β : Type} {I : DeclareState → Prop} {xs : List β}
    {f : β → DeclareM α} {g : β → α} (h : ∀ b ∈ xs, Triple I (f b) fun a s => I s ∧ a = g b) :
    Triple I (xs.mapM f) fun as s => I s ∧ as = xs.map g := by
  induction xs with
  | nil =>
      rw [List.mapM_nil]
      exact .pure fun s hs => ⟨hs, rfl⟩
  | cons b xs ih =>
      rw [List.forall_mem_cons] at h
      rw [List.mapM_cons]
      refine h.1.bind ?_
      rintro a s ⟨hs, rfl⟩
      obtain ⟨hrest, heq⟩ := ih h.2 s hs
      exact ⟨hrest, congrArg (g b :: ·) heq⟩

theorem report_at (span : Span) {cause : Cause}
    (hcause : (errorAt span cause).isUnresolved = false) :
    Triple (s₀.At decls t) (report span cause) fun _ => s₀.At decls t := by
  rintro s ⟨hs, rfl⟩
  exact ⟨hs.report hcause, rfl⟩

/-- The fields that are declared are those of the struct; what is left out is reported. -/
theorem structFields_at (known : List (FieldDecl × Ty)) (seen : List String) :
    Triple (s₀.At decls t) (structFields seen known) fun fields s =>
      s₀.At decls t s ∧ fields = fieldsOf seen known := by
  induction known generalizing seen with
  | nil => exact .pure fun s hs => ⟨hs, rfl⟩
  | cons p known ih =>
      obtain ⟨decl, ty⟩ := p
      have hrest (init : Option Literal) : Triple (s₀.At decls t)
          (structFields (seen ++ [decl.name]) known >>=
            fun more => pure (⟨decl.name, ty, init⟩ :: more))
          fun fields s => s₀.At decls t s ∧
            fields = ⟨decl.name, ty, init⟩ :: fieldsOf (seen ++ [decl.name]) known :=
        (ih (seen ++ [decl.name])).bind fun more => .pure fun s hs => ⟨hs.1, by rw [hs.2]⟩
      rw [structFields, fieldsOf]
      split
      · exact (report_at _ rfl).bind fun _ => ih seen
      · cases hinit : decl.init with
        | none => exact hrest none
        | some value =>
            cases herror : fieldInitError? ty value with
            | none =>
                simp only [herror, Option.filter_some, Option.isNone_none, if_true]
                exact hrest (some value)
            | some e =>
                have hcause : (errorAt decl.span (.typing e)).isUnresolved = false := rfl
                simp only [herror, Option.filter_some, Option.isNone_some, Bool.false_eq_true,
                  if_false]
                exact (report_at _ hcause).bind fun _ => hrest none

theorem isUnknownType_resolution (r : Registry) (f : FieldDecl) :
    isUnknownType (f.resolution r t) = (t.find? f.base).isNone := by
  unfold FieldDecl.resolution
  cases t.find? f.base <;> rfl

theorem FieldDecl.resolution_of_find? {r : Registry} {f : FieldDecl} {symbol : Symbol}
    (h : t.find? f.base = some symbol) :
    f.resolution r t = .ok (r.arrays (t.typeAt f.base) f.ty.lengths) := by
  rw [GlobalTable.typeAt_of_find? h]
  simp only [FieldDecl.resolution, h]

/-- A struct is put off if a name is unknown, and otherwise has the fields that it stands for. -/
theorem attemptStruct_at (h : s₀.Declarable decls) (h₀ : s₀.TypesRegistered) (hd : d ∈ decls) :
    Triple (s₀.At decls t) (attemptStruct d) fun attempt s => s₀.At decls t s ∧
      (attempt = .pending ∧ t.Blocks d ∨
        (∀ f ∈ d.fields, s₀.Means decls f.base (t.typeAt f.base)) ∧
          attempt = .ready (d.fieldList s₀.registry t.typeAt)) := by
  refine (Triple.mapM_eq fun f hf => resolve_at h h₀ hd hf).bind fun found => ?_
  refine Triple.given (I := s₀.At decls t) (fun s hs => hs) ?_
  rintro rfl
  simp only [List.any_map]
  split
  · next hany =>
      obtain ⟨f, hf, hunknown⟩ := List.any_eq_true.mp hany
      rw [Function.comp_apply, isUnknownType_resolution, Option.isNone_iff_eq_none] at hunknown
      exact .pure fun s hs => ⟨hs, .inl ⟨rfl, f, hf, hunknown⟩⟩
  · next hany =>
      have hknown (f : FieldDecl) (hf : f ∈ d.fields) : ∃ symbol, t.find? f.base = some symbol := by
        rw [List.any_eq_true, not_exists] at hany
        rw [← Option.ne_none_iff_exists', ← Option.isNone_iff_eq_none.ne,
          ← isUnknownType_resolution s₀.registry]
        exact fun hunknown => hany f ⟨hf, hunknown⟩
      have hfound : d.fields.map (FieldDecl.resolution s₀.registry t) =
          d.fields.map fun f => .ok (s₀.registry.arrays (t.typeAt f.base) f.ty.lengths) :=
        List.map_congr_left fun f hf => FieldDecl.resolution_of_find? (hknown f hf).choose_spec
      have hnone : (d.fields.filterMap fun _ => (none : Option (Span × Cause))) = [] :=
        List.filterMap_eq_nil_iff.mpr fun _ _ => rfl
      rw [hfound, ← List.map_prod_left_eq_zip, List.filterMap_map, List.filterMap_map]
      simp only [Function.comp_def, hnone, List.filterMap_eq_map', List.isEmpty_nil, if_true]
      refine (structFields_at _ []).bind fun fields => .pure fun s hs =>
        ⟨hs.1, .inr ⟨fun f hf => ?_, ?_⟩⟩
      · obtain ⟨⟨hprogress, rfl⟩, -⟩ := hs
        obtain ⟨symbol, hfind⟩ := hknown f hf
        rw [GlobalTable.typeAt_of_find? hfind]
        exact (hprogress.means_of_find? h hd hf hfind).2
      · rw [hs.2, StructDecl.fieldList]

theorem DeclareM.add_run {s : DeclareState} {symbol : Symbol}
    (h : s.symbols.find? symbol.id = none) :
    add symbol s = (true, { s with symbols := ⟨s.symbols.symbols ++ [(symbol.id, symbol)]⟩ }) := by
  have hinsert : s.symbols.symbols.insert symbol =
      .ok (s.symbols.symbols ++ [(symbol.id, symbol)]) := by
    have hfind : s.symbols.symbols.find? symbol.id = none := h
    rw [SymbolTable.insert, hfind]
  simp only [add, bind, StateT.bind, get, getThe, MonadStateOf.get, StateT.get, pure,
    GlobalTable.add, hinsert, Except.map]
  rfl

/-- A struct whose fields are known becomes a symbol with the type that it stands for. -/
theorem registerStruct_at (h : s₀.Declarable decls) (h₀ : s₀.TypesRegistered) (hd : d ∈ decls)
    (hfresh : t.find? d.id = none) {bases : Identity → Ty}
    (hfields : ∀ f ∈ d.fields, s₀.Means decls f.base (bases f.base)) :
    Triple (s₀.At decls t) (registerStruct d (d.fieldList s₀.registry bases)) fun _ =>
      s₀.At decls (t.declare d (d.typeFrom s₀.registry bases)) := by
  rintro s ⟨hs, rfl⟩
  have hmeans : s₀.Means decls d.id (d.typeFrom s₀.registry bases) := .struct hd hfields
  obtain ⟨r, hregister, hr⟩ := hs.register h h₀ (.struct hd hmeans)
  have hintern : s₀.registry.intern (d.typeFrom s₀.registry bases) =
      d.typeFrom s₀.registry bases := by
    have hnone : s₀.registry.find? (d.typeFrom s₀.registry bases).identity = none :=
      h.unregistered d hd
    rw [Registry.intern, hnone, Option.getD_none]
  rw [hintern] at hregister
  have hrun : register (.ofFields d.name (d.fieldList s₀.registry bases)) d.span s =
      (some (d.typeFrom s₀.registry bases), { s with registry := r }) := by
    show register (d.typeFrom s₀.registry bases) d.span s = _
    rw [register_run, hregister]
  have hadd : add (d.symbol (d.typeFrom s₀.registry bases)) { s with registry := r } =
      (true, { s with
        registry := r
        symbols := s.symbols.declare d (d.typeFrom s₀.registry bases) }) :=
    add_run hfresh
  have hstep : (registerStruct d (d.fieldList s₀.registry bases) s).2 =
      { s with registry := r, symbols := s.symbols.declare d (d.typeFrom s₀.registry bases) } := by
    simp only [registerStruct, bind, StateT.bind, hrun]
    exact congrArg Prod.snd hadd
  rw [hstep]
  exact ⟨hr.declare hd hfresh hmeans, rfl⟩

/-! ## One round -/

/-- What a round does to the table: a struct that is blocked is put off, and the others are
declared. -/
inductive StructRound : GlobalTable → List StructDecl → List StructDecl → GlobalTable → Prop
  | nil {t : GlobalTable} : StructRound t [] [] t
  | postpone {t t' : GlobalTable} {d : StructDecl} {queue pending : List StructDecl}
      (hblocked : t.Blocks d)
      (hrest : StructRound t queue pending t') : StructRound t (d :: queue) (d :: pending) t'
  | declare {t t' : GlobalTable} {d : StructDecl} {ty : Ty} {queue pending : List StructDecl}
      (hfresh : t.find? d.id = none) (hrest : StructRound (t.declare d ty) queue pending t') :
      StructRound t (d :: queue) pending t'

theorem nodup_ids_cons {queue : List StructDecl} (h : ((d :: queue).map StructDecl.id).Nodup) :
    (∀ e ∈ queue, d.id ≠ e.id) ∧ (queue.map StructDecl.id).Nodup := by
  rw [List.map_cons, List.nodup_cons] at h
  refine ⟨fun e he hid => h.1 ?_, h.2⟩
  rw [hid]
  exact List.mem_map_of_mem he

theorem structRound_at (h : s₀.Declarable decls) (h₀ : s₀.TypesRegistered) {queue : List StructDecl}
    (hqueue : queue ⊆ decls) (hdistinct : (queue.map StructDecl.id).Nodup)
    (hfresh : ∀ d ∈ queue, t.find? d.id = none) :
    Triple (s₀.At decls t) (structRound queue) fun pending s =>
      s₀.Progress decls s ∧ StructRound t queue pending s.symbols := by
  induction queue generalizing t with
  | nil => exact .pure fun s hs => ⟨hs.1, hs.2 ▸ .nil⟩
  | cons d queue ih =>
      obtain ⟨hne, hdistinct⟩ := nodup_ids_cons hdistinct
      rw [List.forall_mem_cons] at hfresh
      obtain ⟨hd, hqueue⟩ := List.cons_subset.mp hqueue
      refine (attemptStruct_at h h₀ hd).bind fun attempt => ?_
      rintro s ⟨hs, ⟨rfl, hblocked⟩ | ⟨hfields, rfl⟩⟩
      · have hrest := ih hqueue hdistinct hfresh.2 s hs
        exact ⟨hrest.1, .postpone hblocked hrest.2⟩
      · have hkept : ∀ e ∈ queue, (t.declare d (d.typeFrom s₀.registry t.typeAt)).find? e.id =
            none := by
          intro e he
          rw [GlobalTable.find?_declare_of_ne (hne e he)]
          exact hfresh.2 e he
        have hrest := (registerStruct_at h h₀ hd hfresh.1 hfields).bind fun _ =>
          ih hqueue hdistinct hkept
        exact ⟨(hrest s hs).1, .declare hfresh.1 (hrest s hs).2⟩

namespace StructRound

variable {t' : GlobalTable} {queue pending : List StructDecl} {id : Identity}

theorem length_le (h : StructRound t queue pending t') : pending.length ≤ queue.length := by
  induction h with
  | nil => exact Nat.le_refl 0
  | postpone _ _ ih => exact Nat.succ_le_succ ih
  | declare _ _ ih => exact Nat.le_succ_of_le ih

theorem kept (h : StructRound t queue pending t') {symbol : Symbol}
    (hfind : t.find? id = some symbol) :
    t'.find? id = some symbol := by
  induction h with
  | nil => exact hfind
  | postpone _ _ ih => exact ih hfind
  | declare _ _ ih => exact ih (GlobalTable.find?_of_prefix (List.prefix_append _ _) hfind)

theorem find?_of_forall_ne (h : StructRound t queue pending t') (hne : ∀ d ∈ queue, d.id ≠ id) :
    t'.find? id = t.find? id := by
  induction h with
  | nil => rfl
  | postpone _ _ ih => exact ih (List.forall_mem_cons.mp hne).2
  | declare _ _ ih =>
      rw [List.forall_mem_cons] at hne
      rw [ih hne.2, GlobalTable.find?_declare_of_ne hne.1]

/-- The structs that are put off are those that are still unknown. -/
theorem pending_eq (h : StructRound t queue pending t')
    (hdistinct : (queue.map StructDecl.id).Nodup) (hfresh : ∀ d ∈ queue, t.find? d.id = none) :
    pending = t'.unknown queue := by
  unfold GlobalTable.unknown
  induction h with
  | nil => rfl
  | @postpone t t' d queue pending _ hrest ih =>
      obtain ⟨hne, hdistinct⟩ := nodup_ids_cons hdistinct
      rw [List.forall_mem_cons] at hfresh
      have hnone : t'.find? d.id = none :=
        (hrest.find?_of_forall_ne fun e he => (hne e he).symm).trans hfresh.1
      rw [List.filter_cons_of_pos (by rw [hnone]; rfl), ← ih hdistinct hfresh.2]
  | @declare t t' d ty queue pending hd hrest ih =>
      obtain ⟨hne, hdistinct⟩ := nodup_ids_cons hdistinct
      rw [List.forall_mem_cons] at hfresh
      have hsome : t'.find? d.id = some (d.symbol ty) :=
        hrest.kept (GlobalTable.find?_declare_self hd)
      rw [List.filter_cons_of_neg (by rw [hsome]; exact Bool.false_ne_true)]
      refine ih hdistinct fun e he => ?_
      rw [GlobalTable.find?_declare_of_ne (hne e he)]
      exact hfresh.2 e he

/-- A round that leaves as many structs as there were has declared none, and all of them are
blocked. -/
theorem stuck (h : StructRound t queue pending t') (hlength : queue.length ≤ pending.length) :
    t' = t ∧ ∀ d ∈ queue, t.Blocks d := by
  induction h with
  | nil => exact ⟨rfl, fun d hd => absurd hd List.not_mem_nil⟩
  | postpone hblocked _ ih =>
      obtain ⟨heq, hall⟩ := ih (Nat.le_of_succ_le_succ hlength)
      exact ⟨heq, List.forall_mem_cons.mpr ⟨hblocked, hall⟩⟩
  | declare _ hrest _ => exact absurd (Nat.lt_of_lt_of_le hlength hrest.length_le) (Nat.lt_irrefl _)

end StructRound

/-! ## All rounds -/

/-- The report of all structs that can never be declared, at the first of them. -/
def unresolvedReports : List StructDecl → List Diagnostic
  | [] => []
  | d :: rest =>
      [errorAt d.span (.declaration (.undefinedOrCircular ((d :: rest).map StructDecl.name)))]

def DeclareState.withUnresolved (s : DeclareState) (rest : List StructDecl) : DeclareState :=
  { s with diagnostics := ⟨s.diagnostics.items ++ unresolvedReports rest⟩ }

theorem withUnresolved_nil (s : DeclareState) : s.withUnresolved [] = s := by
  simp [DeclareState.withUnresolved, unresolvedReports]

theorem reportUnresolved_run {rest : List StructDecl} (h : rest ≠ []) (s : DeclareState) :
    (reportUnresolved rest s).2 = s.withUnresolved rest := by
  cases rest with
  | nil => exact absurd rfl h
  | cons d rest => rfl

/-- The first round, and how to go on. -/
theorem declareStructs_run {queue : List StructDecl} (h : queue.isEmpty = false)
    (s : DeclareState) :
    declareStructs queue s =
      (if (structRound queue s).1.length < queue.length then declareStructs (structRound queue s).1
        else reportUnresolved (structRound queue s).1) (structRound queue s).2 := by
  rw [declareStructs, h]
  rfl

/-- The rounds that lead from a state to another, counted. -/
inductive StructRounds : Nat → List StructDecl → DeclareState → DeclareState → Prop
  | done {s : DeclareState} : StructRounds 0 [] s s
  | stuck {queue : List StructDecl} {s : DeclareState} (hne : queue ≠ [])
      (hstuck : ¬ (structRound queue s).1.length < queue.length) :
      StructRounds 1 queue s (reportUnresolved (structRound queue s).1 (structRound queue s).2).2
  | next {n : Nat} {queue : List StructDecl} {s s' : DeclareState} (hne : queue ≠ [])
      (hprogress : (structRound queue s).1.length < queue.length)
      (hrest : StructRounds n (structRound queue s).1 (structRound queue s).2 s') :
      StructRounds (n + 1) queue s s'

/-- Every round but the last leaves fewer structs, so there are at most as many rounds as
structs. -/
theorem declareStructs_rounds (queue : List StructDecl) (s : DeclareState) :
    ∃ n ≤ queue.length, StructRounds n queue s (declareStructs queue s).2 := by
  induction queue using declareStructs.induct generalizing s with
  | case1 queue hempty =>
      obtain rfl := List.isEmpty_iff.mp hempty
      rw [declareStructs]
      exact ⟨0, Nat.le_refl 0, .done⟩
  | case2 queue hempty ih =>
      have hne : queue ≠ [] := fun hnil => hempty (List.isEmpty_iff.mpr hnil)
      rw [declareStructs_run (Bool.eq_false_iff.mpr hempty)]
      split
      · next hprogress =>
          obtain ⟨n, hn, hrest⟩ := ih _ hprogress (structRound queue s).2
          exact ⟨n + 1, Nat.lt_of_le_of_lt hn hprogress, .next hne hprogress hrest⟩
      · next hstuck => exact ⟨1, List.length_pos_iff.mpr hne, .stuck hne hstuck⟩

/-- In the end a struct is known unless it is blocked, and those that are not known are reported. -/
theorem declareStructs_at (h : s₀.Declarable decls) (h₀ : s₀.TypesRegistered)
    {queue : List StructDecl} (hqueue : queue ⊆ decls) (hdistinct : (queue.map StructDecl.id).Nodup)
    {s : DeclareState} (hs : s₀.Progress decls s)
    (hfresh : ∀ d ∈ queue, s.symbols.find? d.id = none) :
    ∃ s', s₀.Progress decls s' ∧
      (∀ id symbol, s.symbols.find? id = some symbol → s'.symbols.find? id = some symbol) ∧
      (∀ d ∈ queue, s'.symbols.find? d.id = none → s'.symbols.Blocks d) ∧
      (declareStructs queue s).2 = s'.withUnresolved (s'.symbols.unknown queue) := by
  induction queue using declareStructs.induct generalizing s with
  | case1 queue hempty =>
      obtain rfl := List.isEmpty_iff.mp hempty
      refine ⟨s, hs, fun _ _ hfind => hfind, fun d hd => absurd hd List.not_mem_nil, ?_⟩
      rw [declareStructs, GlobalTable.unknown, List.filter_nil, withUnresolved_nil]
      rfl
  | case2 queue hempty ih =>
      obtain ⟨hprogress, hround⟩ := structRound_at h h₀ hqueue hdistinct hfresh s ⟨hs, rfl⟩
      have hpending := hround.pending_eq hdistinct hfresh
      rw [declareStructs_run (Bool.eq_false_iff.mpr hempty)]
      generalize (structRound queue s).1 = pending, (structRound queue s).2 = s₁
        at hprogress hround hpending
      obtain rfl := hpending
      split
      · next hless =>
          have hsub : (s₁.symbols.unknown queue).Sublist queue := List.filter_sublist
          obtain ⟨s', hs', hkept, hblocked, hrun⟩ :=
            ih _ hless (List.Subset.trans hsub.subset hqueue)
            (hdistinct.sublist (hsub.map _)) hprogress fun d hd => (GlobalTable.mem_unknown.mp hd).2
          refine ⟨s', hs', fun id symbol hfind => hkept id symbol (hround.kept hfind),
            fun d hd hnone => ?_, ?_⟩
          · have hearlier := GlobalTable.find?_eq_none_of_kept hkept hnone
            exact hblocked d (GlobalTable.mem_unknown.mpr ⟨hd, hearlier⟩) hnone
          · rw [hrun, GlobalTable.unknown_unknown hkept]
      · next hstuck =>
          obtain ⟨hsame, hblocked⟩ := hround.stuck (Nat.le_of_not_lt hstuck)
          have hne : s₁.symbols.unknown queue ≠ [] := by
            intro hnil
            rw [hnil] at hstuck
            have hzero : queue = [] :=
              List.eq_nil_of_length_eq_zero (Nat.le_zero.mp (Nat.le_of_not_lt hstuck))
            exact hempty (List.isEmpty_iff.mpr hzero)
          refine ⟨s₁, hprogress, fun id symbol => hround.kept, fun d hd _ => hsame ▸ hblocked d hd,
            ?_⟩
          exact reportUnresolved_run hne s₁

end
end GameScript
