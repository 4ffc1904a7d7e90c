import Mathlib.Order.Bounds.Basic
import GameScript.Proofs.DeclareInvariant
import GameScript.Proofs.RegistryHistory
import GameScript.Proofs.TypeEquivalence

/-!
# What structs stand for

Structs may refer to each other in any order. What a name stands for is therefore said without one:
it is the type that was declared before, or a struct whose fields are built from names that stand
for something. The structs that stand for a type are the least set that contains every struct whose
fields are built from types declared before and from structs of the set.

A field that is an array has the instance of the registry, if there is one. Which instance that is
depends on the registry at the start only, as long as no two different types claim one identity.
-/
namespace GameScript

/-! ## Tables that grow at their end -/

section
variable {α β : Type} [BEq α] [LawfulBEq α] {a k : α}

theorem lookup_concat_self {xs : List (α × β)} (h : xs.lookup k = none) (b : β) :
    (xs ++ [(k, b)]).lookup k = some b := by
  rw [List.lookup_append, h, Option.none_or, List.lookup_cons_self]

theorem lookup_concat_of_ne (xs : List (α × β)) (h : a ≠ k) (b : β) :
    (xs ++ [(k, b)]).lookup a = xs.lookup a := by
  rw [List.lookup_append, List.lookup_cons, beq_eq_false_iff_ne.mpr h, List.lookup_nil,
    Option.or_none]

end

/-! ## Fields -/

def StructDecl.id (d : StructDecl) : Identity := Identity.ofName d.name

def FieldDecl.base (f : FieldDecl) : Identity := Identity.ofName f.ty.name

/-- The fields of a struct: the first one of each name, with its default if its type can have it. -/
def fieldsOf : List String → List (FieldDecl × Ty) → List Field
  | _, [] => []
  | seen, (decl, ty) :: rest =>
    if seen.any (sameName · decl.name) then fieldsOf seen rest
    else
      ⟨decl.name, ty, decl.init.filter fun value => (fieldInitError? ty value).isNone⟩ ::
        fieldsOf (seen ++ [decl.name]) rest

namespace Registry

/-- The registered instance of a type, or the type itself if there is none. -/
def intern (r : Registry) (ty : Ty) : Ty := (r.find? ty.identity).getD ty

/-- The array of the given lengths, the first one innermost. -/
def arrays (r : Registry) (base : Ty) (lengths : List UInt32) : Ty :=
  lengths.foldl (fun item n => r.intern (.array item n)) base

theorem arrays_concat (r : Registry) (base : Ty) (lengths : List UInt32) (n : UInt32) :
    r.arrays base (lengths ++ [n]) = r.intern (.array (r.arrays base lengths) n) := by
  rw [arrays, List.foldl_append]
  rfl

theorem register_of_some {r : Registry} {ty other : Ty} (hfind : r.find? ty.identity = some other)
    (hbeq : (other == ty) = true) : r.register ty = .ok (other, r) := by
  simp only [register, hfind, hbeq, if_true]

theorem register_of_none {r : Registry} {ty : Ty} (hfind : r.find? ty.identity = none) :
    ∃ r', r.register ty = .ok (ty, r') ∧ r'.find? ty.identity = some ty ∧
      ∀ id, id ≠ ty.identity → r'.find? id = r.find? id := by
  have hregister : r.register ty = .ok (ty, {
      entries := r.entries ++ [(ty.identity, ty)]
      graph := r.link ty.identity ty.children }) := by
    simp only [register, hfind]
  refine ⟨_, hregister, ?_, fun id hid => ?_⟩
  · exact lookup_concat_self hfind ty
  · exact lookup_concat_of_ne r.entries hid ty

/-- What registering gives back is the instance of the registry, and all other instances stay. -/
theorem register_find {r r' : Registry} {ty given : Ty} (h : r.register ty = .ok (given, r')) :
    r'.find? given.identity = some given ∧ ∀ id other, r.find? id = some other →
      r'.find? id = some other := by
  cases hfind : r.find? ty.identity with
  | some other =>
      have hsame := (register_ok h).1
      simp only [register, hfind] at h
      split at h
      · obtain ⟨rfl, rfl⟩ := Prod.mk.inj (Except.ok.inj h)
        rw [Ty.identity_eq_of_same hsame]
        exact ⟨hfind, fun _ _ hother => hother⟩
      · contradiction
  | none =>
      obtain ⟨r'', hregister, hself, hothers⟩ := register_of_none hfind
      obtain ⟨rfl, rfl⟩ := Prod.mk.inj (Except.ok.inj (hregister.symm.trans h))
      refine ⟨hself, fun id other hother => ?_⟩
      rw [hothers id, hother]
      rintro rfl
      rw [hfind] at hother
      cases hother

end Registry

/-- The fields of a struct, where `bases` says what the names in their types stand for. -/
def StructDecl.fieldList (r : Registry) (bases : Identity → Ty) (d : StructDecl) : List Field :=
  fieldsOf [] (d.fields.map fun f => (f, r.arrays (bases f.base) f.ty.lengths))

def StructDecl.fieldsFrom (r : Registry) (bases : Identity → Ty) (d : StructDecl) : Fields :=
  .ofList (d.fieldList r bases)

/-- The struct type, where `bases` says what the names in the types of its fields stand for. -/
def StructDecl.typeFrom (r : Registry) (bases : Identity → Ty) (d : StructDecl) : Ty :=
  .struct d.name (d.fieldsFrom r bases)

theorem StructDecl.fieldsFrom_congr {r : Registry} {d : StructDecl} {bases bases' : Identity → Ty}
    (h : ∀ f ∈ d.fields, bases f.base = bases' f.base) :
    d.fieldsFrom r bases = d.fieldsFrom r bases' := by
  have hmap : (d.fields.map fun f => (f, r.arrays (bases f.base) f.ty.lengths)) =
      d.fields.map fun f => (f, r.arrays (bases' f.base) f.ty.lengths) :=
    List.map_congr_left fun f hf => by rw [h f hf]
  rw [fieldsFrom, fieldsFrom, fieldList, fieldList, hmap]

namespace DeclareState

/-! ## Meanings -/

def HasType (s : DeclareState) (id : Identity) : Prop :=
  ∃ symbol, s.symbols.find? id = some symbol ∧ symbol.kind.isType = true

/-- The name of this identity stands for `ty` once all structs are declared that can be. -/
inductive Means (s : DeclareState) (decls : List StructDecl) : Identity → Ty → Prop
  | declared {id symbol} (hfind : s.symbols.find? id = some symbol)
      (htype : symbol.kind.isType = true) :
      Means s decls id symbol.ty
  | struct {d bases} (hd : d ∈ decls)
      (hfields : ∀ f ∈ d.fields, Means s decls f.base (bases f.base)) :
      Means s decls d.id (d.typeFrom s.registry bases)

/-- The type is registered when the structs are declared. For a field whose type is an array these
are the arrays from the innermost out, also if another field keeps its struct from being
declared. -/
inductive Registers (s : DeclareState) (decls : List StructDecl) : Ty → Prop
  | struct {d ty} (hd : d ∈ decls) (hty : s.Means decls d.id ty) : Registers s decls ty
  | array {d f base inner n outer} (hd : d ∈ decls) (hf : f ∈ d.fields)
      (hbase : s.Means decls f.base base) (hlengths : f.ty.lengths = inner ++ n :: outer) :
      Registers s decls (.array (s.registry.arrays base inner) n)

/-- The structs are new and have different identities. -/
structure Fresh (s : DeclareState) (decls : List StructDecl) : Prop where
  distinct : (decls.map StructDecl.id).Nodup
  undeclared : ∀ d ∈ decls, s.symbols.find? d.id = none
  unregistered : ∀ d ∈ decls, s.registry.find? d.id = none

/-- The structs are new, the names in the types of their fields stand for types if they stand for
anything so far, and a type that is registered for them meets no other type under its identity:
neither one that is registered already nor another one of theirs. -/
structure Declarable (s : DeclareState) (decls : List StructDecl) : Prop extends s.Fresh decls where
  types : ∀ d ∈ decls, ∀ f ∈ d.fields, ∀ symbol,
    s.symbols.find? f.base = some symbol → symbol.kind.isType = true
  registered : ∀ ty, s.Registers decls ty → ∀ other, s.registry.find? ty.identity = some other →
    (other == ty) = true
  together : ∀ ty, s.Registers decls ty → ∀ other, s.Registers decls other →
    other.identity = ty.identity → (other == ty) = true

/-- Every struct whose fields are built from declared types and structs of the set is in the set. -/
def Closed (s : DeclareState) (decls : List StructDecl) (structs : Set StructDecl) : Prop :=
  ∀ d ∈ decls, (∀ f ∈ d.fields, s.HasType f.base ∨ ∃ e ∈ structs, e.id = f.base) → d ∈ structs

variable {s : DeclareState} {decls : List StructDecl} {d : StructDecl} {f : FieldDecl}
  {id : Identity} {a b base ty : Ty}

theorem Fresh.eq_of_id_eq (h : s.Fresh decls) {e : StructDecl} (hd : d ∈ decls) (he : e ∈ decls)
    (hid : d.id = e.id) : d = e :=
  List.inj_on_of_nodup_map h.distinct hd he hid

theorem HasType.means (h : s.HasType id) : ∃ ty, s.Means decls id ty := by
  obtain ⟨symbol, hfind, htype⟩ := h
  exact ⟨symbol.ty, .declared hfind htype⟩

/-- A struct stands for nothing but the type with its own fields. -/
theorem Means.typeFrom (h : s.Fresh decls) (hd : d ∈ decls) (hty : s.Means decls d.id ty) :
    ∃ bases, (∀ f ∈ d.fields, s.Means decls f.base (bases f.base)) ∧
      ty = d.typeFrom s.registry bases := by
  generalize hid : d.id = id at hty
  cases hty with
  | declared hfind _ =>
      rw [← hid, h.undeclared d hd] at hfind
      cases hfind
  | @struct e bases he hfields =>
      obtain rfl := h.eq_of_id_eq hd he hid
      exact ⟨bases, hfields, rfl⟩

theorem Means.unique (h : s.Fresh decls) (ha : s.Means decls id a) (hb : s.Means decls id b) :
    a = b := by
  induction ha generalizing b with
  | @declared id symbol hfind htype =>
      cases hb with
      | declared hfind' _ =>
          rw [hfind] at hfind'
          rw [Option.some.inj hfind']
      | struct hd _ =>
          rw [h.undeclared _ hd] at hfind
          cases hfind
  | @struct d bases hd _ ih =>
      obtain ⟨bases', hfields', rfl⟩ := hb.typeFrom h hd
      rw [StructDecl.typeFrom, StructDecl.fieldsFrom_congr fun f hf => ih f hf (hfields' f hf)]
      rfl

theorem Means.mono {decls' : List StructDecl} (hsub : decls ⊆ decls') (hty : s.Means decls id ty) :
    s.Means decls' id ty := by
  induction hty with
  | declared hfind htype => exact .declared hfind htype
  | struct hd _ ih => exact .struct (hsub hd) ih

theorem Registers.mono {decls' : List StructDecl} (hsub : decls ⊆ decls')
    (hty : s.Registers decls ty) :
    s.Registers decls' ty := by
  cases hty with
  | struct hd hty => exact .struct (hsub hd) (hty.mono hsub)
  | array hd hf hbase hlengths => exact .array (hsub hd) hf (hbase.mono hsub) hlengths

theorem means_perm {queue : List StructDecl} (hperm : queue.Perm decls) :
    s.Means queue = s.Means decls := by
  funext id ty
  exact propext ⟨Means.mono hperm.subset, Means.mono hperm.symm.subset⟩

/-- The order of the structs does not matter. -/
theorem Declarable.perm {queue : List StructDecl} (h : s.Declarable decls)
    (hperm : queue.Perm decls) :
    s.Declarable queue where
  distinct := (hperm.map _).nodup_iff.mpr h.distinct
  undeclared d hd := h.undeclared d (hperm.subset hd)
  unregistered d hd := h.unregistered d (hperm.subset hd)
  types d hd := h.types d (hperm.subset hd)
  registered ty hty := h.registered ty (hty.mono hperm.subset)
  together ty hty other hother :=
    h.together ty (hty.mono hperm.subset) other (hother.mono hperm.subset)

noncomputable def meaning (s : DeclareState) (decls : List StructDecl) (id : Identity) : Ty :=
  Classical.epsilon (s.Means decls id)

theorem means_meaning (h : ∃ ty, s.Means decls id ty) : s.Means decls id (s.meaning decls id) :=
  Classical.epsilon_spec h

def meant (s : DeclareState) (decls : List StructDecl) : Set StructDecl :=
  {d | d ∈ decls ∧ ∃ ty, s.Means decls d.id ty}

theorem closed_meant : s.Closed decls (s.meant decls) := by
  intro d hd hfields
  have hmeans (f : FieldDecl) (hf : f ∈ d.fields) :
      s.Means decls f.base (s.meaning decls f.base) := by
    apply means_meaning
    rcases hfields f hf with htype | ⟨e, ⟨-, hty⟩, he⟩
    · exact htype.means
    · exact he ▸ hty
  exact ⟨hd, _, .struct hd hmeans⟩

theorem means_field (h : s.Fresh decls) (hd : d ∈ s.meant decls) (hf : f ∈ d.fields) :
    s.Means decls f.base (s.meaning decls f.base) := by
  obtain ⟨hd, ty, hty⟩ := hd
  obtain ⟨bases, hbases, -⟩ := hty.typeFrom h hd
  exact means_meaning ⟨_, hbases f hf⟩

/-- A closed set has every struct on which the meaning of a name rests. -/
theorem Means.hasType_or_mem {structs : Set StructDecl} (hclosed : s.Closed decls structs)
    (hty : s.Means decls id ty) : s.HasType id ∨ ∃ d ∈ structs, d ∈ decls ∧ d.id = id := by
  induction hty with
  | declared hfind htype => exact .inl ⟨_, hfind, htype⟩
  | @struct d _ hd _ ih =>
      refine .inr ⟨d, hclosed d hd fun f hf => ?_, hd, rfl⟩
      exact (ih f hf).imp_right fun ⟨e, he, _, hid⟩ => ⟨e, he, hid⟩

theorem isLeast_meant (h : s.Fresh decls) :
    IsLeast {structs | s.Closed decls structs} (s.meant decls) := by
  refine ⟨closed_meant, ?_⟩
  rintro structs hclosed d ⟨hd, ty, hty⟩
  rcases hty.hasType_or_mem hclosed with ⟨symbol, hfind, -⟩ | ⟨e, he, hmem, hid⟩
  · rw [h.undeclared d hd] at hfind
    cases hfind
  · rwa [← h.eq_of_id_eq hmem hd hid]

/-! ## One instance for each identity -/

/-- Every declared type is the instance of the registry. -/
def TypesRegistered (s : DeclareState) : Prop :=
  ∀ e ∈ s.symbols.symbols, e.2.kind.isType = true → s.registry.find? e.2.ty.identity = some e.2.ty

/-- The type is the instance of the registry, or it is yet to be registered. -/
def Settled (s : DeclareState) (decls : List StructDecl) (ty : Ty) : Prop :=
  s.registry.find? ty.identity = some ty ∨ s.registry.find? ty.identity = none ∧
    s.Registers decls ty

theorem Means.settled (h : s.Fresh decls) (hs : s.TypesRegistered) (hty : s.Means decls id ty) :
    s.Settled decls ty := by
  cases hty with
  | @declared _ symbol hfind htype =>
      have hmem : (id, symbol) ∈ s.symbols.symbols := mem_of_lookup hfind
      have hfound : s.registry.find? symbol.ty.identity = some symbol.ty :=
        hs (id, symbol) hmem htype
      exact Or.inl hfound
  | @struct d bases hd hfields =>
      have hnone : s.registry.find? (d.typeFrom s.registry bases).identity = none :=
        h.unregistered d hd
      exact .inr ⟨hnone, .struct hd (.struct hd hfields)⟩

theorem Registers.settled_intern (h : s.Declarable decls) (hty : s.Registers decls ty) :
    s.Settled decls (s.registry.intern ty) := by
  cases hfind : s.registry.find? ty.identity with
  | none =>
      rw [Registry.intern, hfind, Option.getD_none]
      exact .inr ⟨hfind, hty⟩
  | some other =>
      have hsame : other.same ty = true := Ty.beq_eq_same other ty ▸ h.registered ty hty other hfind
      rw [Registry.intern, hfind, Option.getD_some]
      rw [← Ty.identity_eq_of_same hsame] at hfind
      exact .inl hfind

/-- What the type of a field is built from, up to some length. -/
theorem Means.settled_arrays (h : s.Declarable decls) (hs : s.TypesRegistered) (hd : d ∈ decls)
    (hf : f ∈ d.fields) (hbase : s.Means decls f.base base) {inner outer : List UInt32}
    (hlengths : f.ty.lengths = inner ++ outer) :
    s.Settled decls (s.registry.arrays base inner) := by
  rcases List.eq_nil_or_concat' inner with rfl | ⟨inner, n, rfl⟩
  · exact hbase.settled h.toFresh hs
  · rw [Registry.arrays_concat]
    rw [List.append_assoc] at hlengths
    exact (Registers.array hd hf hbase hlengths).settled_intern h

/-- Two settled types that are the same are one, or both are arrays of settled items. -/
theorem Settled.eq_or_items (h : s.Declarable decls) (hs : s.TypesRegistered)
    (ha : s.Settled decls a) (hb : s.Settled decls b) (hsame : a.same b = true) :
    a = b ∨ ∃ item item' n, a = .array item n ∧ b = .array item' n ∧ s.Settled decls item ∧
      s.Settled decls item' ∧ item.same item' = true := by
  have hid := Ty.identity_eq_of_same hsame
  rcases ha with ha | ⟨ha, hra⟩
  · rcases hb with hb | ⟨hb, -⟩
    · rw [hid, hb] at ha
      exact .inl (Option.some.inj ha).symm
    · rw [hid, hb] at ha
      cases ha
  · rcases hb with hb | ⟨-, hrb⟩
    · rw [hid, hb] at ha
      cases ha
    · cases hra with
      | @struct d _ hd hmeans =>
          obtain ⟨bases, -, rfl⟩ := hmeans.typeFrom h.toFresh hd
          cases hrb with
          | @struct e _ he hmeans' =>
              obtain ⟨bases', -, rfl⟩ := hmeans'.typeFrom h.toFresh he
              obtain rfl := h.eq_of_id_eq hd he hid
              exact .inl (hmeans.unique h.toFresh hmeans')
          | array => simp [StructDecl.typeFrom, Ty.same] at hsame
      | @array d f base inner n outer hd hf hbase hlengths =>
          cases hrb with
          | @struct e _ he hmeans' =>
              obtain ⟨bases', -, rfl⟩ := hmeans'.typeFrom h.toFresh he
              simp [StructDecl.typeFrom, Ty.same] at hsame
          | @array e g base' inner' n' outer' he hg hbase' hlengths' =>
              simp only [Ty.same, Bool.and_eq_true, beq_iff_eq] at hsame
              obtain ⟨hitems, rfl⟩ := hsame
              exact .inr ⟨_, _, n, rfl, rfl, hbase.settled_arrays h hs hd hf hlengths,
                hbase'.settled_arrays h hs he hg hlengths', hitems⟩

theorem Settled.unique (h : s.Declarable decls) (hs : s.TypesRegistered) {a b : Ty}
    (ha : s.Settled decls a) (hb : s.Settled decls b) (hsame : a.same b = true) : a = b := by
  rcases ha.eq_or_items h hs hb hsame with heq | ⟨item, item', n, rfl, rfl, hitem, hitem', hitems⟩
  · exact heq
  · rw [hitem.unique h hs hitem' hitems]
termination_by sizeOf a

/-! ## The state in which structs are declared -/

theorem typesRegistered_start {r : Registry} (hr : r.Valid) : (start r).TypesRegistered := by
  intro e he _
  obtain ⟨entry, hentry, rfl⟩ := List.mem_map.mp he
  have hmem : entry ∈ r.entries := (List.mem_filter.mp (List.mem_mergeSort.mp hentry)).1
  have hkey : entry = (entry.2.identity, entry.2) := Prod.ext (hr.keys entry hmem) rfl
  rw [hkey] at hmem
  exact hr.find?_iff.mpr hmem

/-- The state after the enums of a script are declared, which is where its structs are. -/
def afterEnums (r : Registry) (enums : List EnumDecl) : DeclareState :=
  (enums.forM declareEnum (start r)).2

theorem add_typesRegistered (symbol : Symbol) :
    DeclareM.Triple (fun s => s.TypesRegistered ∧
        (symbol.kind.isType = true → s.registry.find? symbol.ty.identity = some symbol.ty))
      (DeclareM.add symbol) fun _ s => s.TypesRegistered := by
  apply DeclareM.add_triple
  · rintro s ⟨hs, hsymbol⟩ -
    exact List.forall_mem_append.mpr ⟨hs, List.forall_mem_singleton.mpr hsymbol⟩
  · intro s report hs _
    exact hs.1

theorem declareEnum_typesRegistered (decl : EnumDecl) :
    DeclareM.Triple TypesRegistered (declareEnum decl) fun _ => TypesRegistered := by
  have hregister : DeclareM.Triple TypesRegistered
      (DeclareM.register (.enum decl.name (memberValues 0 decl.members)) decl.span) fun o s =>
        s.TypesRegistered ∧ ∀ ty, o = some ty → s.registry.find? ty.identity = some ty := by
    intro s hs
    rw [DeclareM.register_run]
    cases hreg : s.registry.register (.enum decl.name (memberValues 0 decl.members)) with
    | ok given =>
        obtain ⟨hgiven, hkept⟩ := Registry.register_find hreg
        refine ⟨fun e he htype => hkept _ _ (hs e he htype), fun ty hty => ?_⟩
        obtain rfl := Option.some.inj hty
        exact hgiven
    | error e => exact ⟨hs, fun ty hty => nomatch hty⟩
  refine hregister.bind fun o => ?_
  cases o with
  | none => exact .pure fun s hs => hs.1
  | some ty =>
      have htype := add_typesRegistered ⟨decl.name, ty, decl.span, .type⟩
      refine (htype.pre fun s hs => ⟨hs.1, fun _ => hs.2 ty rfl⟩).bind fun _ => .forM fun m _ => ?_
      have hmember := add_typesRegistered ⟨m.2.1, ty, m.1.span, .member m.2.2⟩
      exact (hmember.pre fun s hs => ⟨hs, fun hkind => nomatch hkind⟩).bind fun _ =>
        .pure fun _ hs => hs

theorem typesRegistered_afterEnums {r : Registry} (hr : r.Valid) (enums : List EnumDecl) :
    (afterEnums r enums).TypesRegistered :=
  DeclareM.Triple.forM (fun decl _ => declareEnum_typesRegistered decl) _ (typesRegistered_start hr)

end DeclareState
end GameScript
