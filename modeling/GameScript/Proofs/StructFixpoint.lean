import GameScript.Proofs.CheckEvaluation
import GameScript.Proofs.StructWorklist

/-!
# The structs of a script in any order

Declaring structs in rounds computes a least set: a struct becomes a type as soon as the names that
its fields are built from are types, and no other struct does. Neither the set nor the fields of its
structs depend on the order in which the structs are written. The order matters only for the one
report that names the structs outside the set.
-/
namespace GameScript

open DeclareM DeclareState

variable {s₀ s : DeclareState} {decls queue : List StructDecl} {d : StructDecl} {id : Identity}
  {ty : Ty}

namespace DeclareState

/-! ## The end of the rounds -/

/-- A struct that is known has the type that it stands for. -/
theorem Progress.means_struct (h : s₀.Fresh decls) (hs : s₀.Progress decls s) (hd : d ∈ decls)
    {symbol : Symbol} (hfind : s.symbols.find? d.id = some symbol) :
    ∃ ty, s₀.Means decls d.id ty ∧ symbol = d.symbol ty := by
  rcases hs.symbols _ _ hfind with hold | ⟨e, he, ty, hid, hty, rfl⟩
  · rw [h.undeclared d hd] at hold
    cases hold
  · obtain rfl := h.eq_of_id_eq he hd hid
    exact ⟨ty, hty, rfl⟩

/-- If all unknown structs are blocked, every name that stands for a type is known. -/
theorem Progress.find?_of_means (h : s₀.Fresh decls) (hs : s₀.Progress decls s)
    (hblocked : ∀ d ∈ decls, s.symbols.find? d.id = none → s.symbols.Blocks d)
    (hty : s₀.Means decls id ty) :
    ∃ symbol, s.symbols.find? id = some symbol ∧ symbol.ty = ty := by
  induction hty with
  | @declared id symbol hfind _ => exact ⟨symbol, hs.kept id symbol hfind, rfl⟩
  | @struct d bases hd hfields ih =>
      cases hfind : s.symbols.find? d.id with
      | none =>
          obtain ⟨f, hf, hnone⟩ := hblocked d hd hfind
          obtain ⟨symbol, hsome, -⟩ := ih f hf
          rw [hnone] at hsome
          cases hsome
      | some symbol =>
          obtain ⟨ty, hty, rfl⟩ := hs.means_struct h hd hfind
          exact ⟨_, rfl, hty.unique h (.struct hd hfields)⟩

theorem Progress.find?_struct_of_means (h : s₀.Fresh decls) (hs : s₀.Progress decls s)
    (hblocked : ∀ d ∈ decls, s.symbols.find? d.id = none → s.symbols.Blocks d) (hd : d ∈ decls)
    (hty : s₀.Means decls d.id ty) : s.symbols.find? d.id = some (d.symbol ty) := by
  obtain ⟨symbol, hfind, rfl⟩ := hs.find?_of_means h hblocked hty
  obtain ⟨ty, -, rfl⟩ := hs.means_struct h hd hfind
  exact hfind

open Classical in
/-- The unknown structs are those outside the set. -/
theorem Progress.unknown_eq (h : s₀.Fresh decls) (hs : s₀.Progress decls s)
    (hblocked : ∀ d ∈ decls, s.symbols.find? d.id = none → s.symbols.Blocks d) :
    s.symbols.unknown decls = decls.filter fun d => d ∉ s₀.meant decls := by
  apply List.filter_congr
  intro d hd
  rw [Bool.eq_iff_iff, decide_eq_true_iff, Option.isNone_iff_eq_none]
  constructor
  · rintro hnone ⟨-, ty, hty⟩
    rw [hs.find?_struct_of_means h hblocked hd hty] at hnone
    cases hnone
  · intro hout
    cases hfind : s.symbols.find? d.id with
    | none => rfl
    | some symbol =>
        obtain ⟨ty, hty, -⟩ := hs.means_struct h hd hfind
        exact absurd ⟨hd, ty, hty⟩ hout

/-- What is known in the end, apart from the structs that stand for a type, was known at the
start. -/
theorem Progress.find?_of_forall_ne (hs : s₀.Progress decls s)
    (hne : ∀ d ∈ s₀.meant decls, d.id ≠ id) :
    s.symbols.find? id = s₀.symbols.find? id := by
  cases hfind : s.symbols.find? id with
  | some symbol =>
      rcases hs.symbols _ _ hfind with hold | ⟨d, hd, ty, hid, hty, -⟩
      · exact hold.symm
      · exact absurd hid (hne d ⟨hd, ty, hty⟩)
  | none =>
      cases hstart : s₀.symbols.find? id with
      | none => rfl
      | some symbol => exact hfind.symm.trans (hs.kept id symbol hstart)

theorem filter_unresolvedReports (rest : List StructDecl) :
    (unresolvedReports rest).filter Diagnostic.isUnresolved = unresolvedReports rest := by
  cases rest <;> rfl

/-- Nothing but the report at the end is one of structs that can never be declared. -/
theorem Progress.reports_withUnresolved (hs : s₀.Progress decls s) (rest : List StructDecl) :
    ∃ reports, (s.withUnresolved rest).diagnostics.items = s₀.diagnostics.items ++ reports ∧
      reports.filter Diagnostic.isUnresolved = unresolvedReports rest := by
  obtain ⟨reports, hitems, hreports⟩ := hs.reports
  refine ⟨reports ++ unresolvedReports rest, ?_, ?_⟩
  · rw [← List.append_assoc, ← hitems]
    rfl
  · rw [List.filter_append, filter_unresolvedReports, List.filter_eq_nil_iff.mpr, List.nil_append]
    intro d hd
    rw [hreports d hd]
    exact Bool.false_ne_true

end DeclareState

open Classical in
/-- How declaring the structs of a list ends, where `structs` are those that become types and
`layout` gives their fields. A layout determines the types of the fields, their offsets and the size
of the struct. -/
structure StructsDeclared (s : DeclareState) (queue : List StructDecl) (structs : Set StructDecl)
    (layout : StructDecl → Fields) (final : DeclareState) : Prop where
  /-- There are at most as many rounds as structs. -/
  rounds : ∃ n ≤ queue.length, StructRounds n queue s final
  declared : {d | d ∈ queue ∧
    ∃ ty, final.symbols.findName? d.name = some ⟨d.name, ty, d.span, .type⟩} = structs
  symbols : ∀ d ∈ structs, final.symbols.findName? d.name =
    some ⟨d.name, .struct d.name (layout d), d.span, .type⟩
  others : ∀ id, (∀ d ∈ structs, d.id ≠ id) → final.symbols.find? id = s.symbols.find? id
  fields : ∀ d ∈ structs, layout d = d.fieldsFrom s.registry final.symbols.typeAt
  reports : ∃ reports, final.diagnostics.items = s.diagnostics.items ++ reports ∧
    reports.filter Diagnostic.isUnresolved = unresolvedReports (queue.filter fun d => d ∉ structs)

theorem structsDeclared_meant (h : s.Declarable queue) (hs : s.TypesRegistered) :
    StructsDeclared s queue (s.meant queue) (fun d => d.fieldsFrom s.registry (s.meaning queue))
      (declareStructs queue s).2 := by
  obtain ⟨s', hprogress, -, hblocked, hrun⟩ :=
    declareStructs_at h hs (List.Subset.refl queue) h.distinct (.refl s queue) h.undeclared
  have hfresh := h.toFresh
  have hsymbol (d : StructDecl) (hd : d ∈ s.meant queue) : s'.symbols.findName? d.name =
      some ⟨d.name, .struct d.name (d.fieldsFrom s.registry (s.meaning queue)), d.span, .type⟩ :=
    hprogress.find?_struct_of_means hfresh hblocked hd.1
      (.struct hd.1 fun f => means_field hfresh hd)
  have hrounds := declareStructs_rounds queue s
  rw [hrun] at hrounds ⊢
  constructor
  case rounds => exact hrounds
  case declared =>
      ext d
      constructor
      · rintro ⟨hd, ty, hfind⟩
        obtain ⟨ty', hty', -⟩ := hprogress.means_struct hfresh hd hfind
        exact ⟨hd, ty', hty'⟩
      · exact fun hd => ⟨hd.1, _, hsymbol d hd⟩
  case symbols => exact hsymbol
  case others => exact fun id hne => hprogress.find?_of_forall_ne hne
  case fields =>
      refine fun d hd => StructDecl.fieldsFrom_congr fun f hf => ?_
      obtain ⟨symbol, hfind, hty⟩ :=
        hprogress.find?_of_means hfresh hblocked (means_field hfresh hd hf)
      exact hty.symm.trans (GlobalTable.typeAt_of_find? hfind).symm
  case reports =>
      rw [← hprogress.unknown_eq hfresh hblocked]
      exact hprogress.reports_withUnresolved _

/-! ## Any order -/

/-- Whatever a registry holds and whatever enums are declared first, declaring structs ends after at
most as many rounds as there are structs. Those that become types are the least set that contains
every struct whose fields are built from declared types and from structs of the set. The set and the
fields of its structs are the same for every order of the structs, and the structs outside the set
are reported once, in their order. -/
theorem declareStructs_least {r : Registry} (hr : r.Valid) (enums : List EnumDecl)
    (h : (afterEnums r enums).Declarable decls) :
    ∃ structs layout, IsLeast {set | (afterEnums r enums).Closed decls set} structs ∧
      ∀ queue, queue.Perm decls → StructsDeclared (afterEnums r enums) queue structs layout
        (declareStructs queue (afterEnums r enums)).2 := by
  refine ⟨(afterEnums r enums).meant decls,
    fun d => d.fieldsFrom (afterEnums r enums).registry ((afterEnums r enums).meaning decls),
    isLeast_meant h.toFresh, fun queue hperm => ?_⟩
  have hmeans : (afterEnums r enums).Means queue = (afterEnums r enums).Means decls :=
    means_perm hperm
  have hmeant : (afterEnums r enums).meant queue = (afterEnums r enums).meant decls := by
    simp only [meant, hmeans, hperm.mem_iff]
  have hmeaning : (afterEnums r enums).meaning queue = (afterEnums r enums).meaning decls := by
    funext id
    rw [meaning, meaning, hmeans]
  rw [← hmeant, ← hmeaning]
  exact structsDeclared_meant (h.perm hperm) (typesRegistered_afterEnums hr enums)

def travelEnums : List EnumDecl :=
  [{ name := "MODE", members := [{ name := "WALK" }, { name := "DRIVE" }], span := {} }]

/-- A route of stops that are declared after it, two structs that contain each other, and one with a
field of an undefined type. -/
def travelStructs : List StructDecl :=
  [{ name := "ROUTE"
     fields := [{ name := "stops", ty := { name := "Stop", lengths := [2] } },
       { name := "mode", ty := { name := "MODE" } }] },
   { name := "NODE", fields := [{ name := "edge", ty := { name := "EDGE" } }] },
   { name := "STOP", fields := [{ name := "place", ty := { name := "VECTOR" } }] },
   { name := "EDGE", fields := [{ name := "node", ty := { name := "NODE" } }] },
   { name := "LOST"
     fields := [{ name := "stops", ty := { name := "STOP", lengths := [2] } },
       { name := "guide", ty := { name := "MAP" } }] }]

def travelState : DeclareState :=
  (travelEnums.forM declareEnum { registry := Registry.withBuiltins, symbols := builtinTable }).2

theorem afterEnums_travel : afterEnums Registry.withBuiltins travelEnums = travelState := by
  rw [afterEnums, start, ofRegistry_withBuiltins, travelState]

/-- The only array that is registered is one of stops. -/
theorem registers_travel (h : s.Fresh travelStructs) (hty : s.Registers travelStructs ty) :
    (∃ d ∈ travelStructs, s.Means travelStructs d.id ty ∧ ty.identity = d.id) ∨
      ∃ base, s.Means travelStructs (Identity.ofName "STOP") base ∧ ty = .array base 2 ∧
        ty.identity = Identity.ofName "STOP[2]" := by
  have hlengths : ∀ d ∈ travelStructs, ∀ f ∈ d.fields,
      f.ty.lengths = [] ∨ f.ty.lengths = [2] ∧ f.base = Identity.ofName "STOP" := by decide +kernel
  have hstop : ∃ d ∈ travelStructs, d.name = "STOP" := by decide
  cases hty with
  | @struct d ty hd hty =>
      obtain ⟨bases, -, rfl⟩ := hty.typeFrom h hd
      exact .inl ⟨d, hd, hty, rfl⟩
  | @array d f base inner n outer hd hf hbase hsplit =>
      rcases hlengths d hd f hf with hnil | ⟨hone, hstopBase⟩
      · simp [hnil] at hsplit
      · obtain ⟨rfl, rfl, -⟩ : inner = [] ∧ n = 2 ∧ outer = [] := by
          rw [hone] at hsplit
          cases inner <;> simp_all
        rw [hstopBase] at hbase
        refine .inr ⟨base, hbase, rfl, ?_⟩
        obtain ⟨d, hd, hname⟩ := hstop
        have hid : d.id = Identity.ofName "STOP" := congrArg Identity.ofName hname
        rw [← hid] at hbase
        obtain ⟨bases, -, rfl⟩ := hbase.typeFrom h hd
        have htext : "STOP" ++ "[" ++ toString (2 : UInt32).toNat ++ "]" = "STOP[2]" := by decide
        rw [Registry.arrays, List.foldl_nil, Ty.identity, Ty.name, StructDecl.typeFrom, Ty.name,
          hname, htext]

theorem declarable_travel : travelState.Declarable travelStructs := by
  have hfacts : (travelStructs.map StructDecl.id).Nodup ∧
      (∀ d ∈ travelStructs, d.id ≠ Identity.ofName "STOP[2]" ∧
        (travelState.symbols.find? d.id).isNone = true ∧
        (travelState.registry.find? d.id).isNone = true ∧
        ∀ f ∈ d.fields,
          ((travelState.symbols.find? f.base).all fun symbol => symbol.kind.isType) = true) ∧
      (travelState.registry.find? (Identity.ofName "STOP[2]")).isNone = true := by
    decide +kernel
  obtain ⟨hdistinct, hstructs, harray⟩ := hfacts
  have hfresh : travelState.Fresh travelStructs :=
    ⟨hdistinct, fun d hd => Option.isNone_iff_eq_none.mp (hstructs d hd).2.1,
      fun d hd => Option.isNone_iff_eq_none.mp (hstructs d hd).2.2.1⟩
  refine ⟨hfresh, ?_, ?_, ?_⟩
  · intro d hd f hf symbol hfind
    have hall := (hstructs d hd).2.2.2 f hf
    rwa [hfind, Option.all_some] at hall
  · intro ty hty other hfind
    rcases registers_travel hfresh hty with ⟨d, hd, -, hid⟩ | ⟨base, -, -, hid⟩
    · rw [hid, hfresh.unregistered d hd] at hfind
      cases hfind
    · rw [hid, Option.isNone_iff_eq_none.mp harray] at hfind
      cases hfind
  · intro ty hty other hother hsame
    have heq : other = ty := by
      rcases registers_travel hfresh hty with ⟨d, hd, hmeans, hid⟩ | ⟨base, hbase, rfl, hid⟩
      · rcases registers_travel hfresh hother with ⟨e, he, hmeans', hid'⟩ | ⟨base', -, -, hid'⟩
        · obtain rfl := hfresh.eq_of_id_eq he hd (hid'.symm.trans (hsame.trans hid))
          exact hmeans'.unique hfresh hmeans
        · exact absurd (hid.symm.trans (hsame.symm.trans hid')) (hstructs d hd).1
      · rcases registers_travel hfresh hother with ⟨e, he, -, hid'⟩ | ⟨base', hbase', rfl, -⟩
        · exact absurd (hid'.symm.trans (hsame.trans hid)) (hstructs e he).1
        · rw [hbase'.unique hfresh hbase]
    rw [heq, Ty.beq_eq_same, Ty.same_refl]

/-- Only the routes and the stops become types. -/
theorem declareStructs_least_travel :
    Registry.withBuiltins.Valid ∧
      (afterEnums Registry.withBuiltins travelEnums).Declarable travelStructs ∧
    (declareStructs travelStructs
      (afterEnums Registry.withBuiltins travelEnums)).2.diagnostics.items =
      [errorAt {} (.declaration (.undefinedOrCircular ["NODE", "EDGE", "LOST"]))] ∧
    ∃ structs layout,
      IsLeast {set | (afterEnums Registry.withBuiltins travelEnums).Closed travelStructs set}
        structs ∧
      ∀ queue, queue.Perm travelStructs →
        StructsDeclared (afterEnums Registry.withBuiltins travelEnums) queue structs layout
          (declareStructs queue (afterEnums Registry.withBuiltins travelEnums)).2 := by
  have hdeclarable : (afterEnums Registry.withBuiltins travelEnums).Declarable travelStructs :=
    afterEnums_travel ▸ declarable_travel
  refine ⟨Registry.valid_withBuiltins, hdeclarable, ?_, ?_⟩
  · rw [afterEnums_travel]
    decide +kernel
  · exact declareStructs_least Registry.valid_withBuiltins travelEnums hdeclarable

end GameScript
