import GameScript.Proofs.GraphReachability
import GameScript.Proofs.TypeFacts

/-!
# Removing types from a registry

In a registry every type is stored under the identity of its name, `AUTO` is there, the graph has
the registered types as its nodes, and each type comes after all that it is built from. Registering
and removing keep this. A removal with everything built from a type is described here also the way
it goes on, one type at a time and those built from it first, with the registry it leaves behind
when it is refused on the way: it is never refused on the way, and the order of the types does not
matter.
-/
namespace GameScript

theorem Ty.beq_auto {ty : Ty} : (ty == .auto) = true ↔ ty = .auto := by
  rw [Ty.beq_eq_same]
  cases ty <;> simp [Ty.same]

namespace Registry

variable {r s : Registry} {a b id : Identity} {ids : List Identity} {ty : Ty}

/-- What every history keeps. Edges start from registered types other than `AUTO`, which is built
from nothing. -/
structure Valid (r : Registry) : Prop where
  keys : ∀ e ∈ r.entries, e.1 = e.2.identity
  auto : (Ty.auto.identity, Ty.auto) ∈ r.entries
  nodes : r.graph.nodes = r.entries.map Prod.fst
  ordered : r.graph.Ordered
  sources : ∀ a b, r.graph.Edge a b → a ≠ Ty.auto.identity

namespace Valid

theorem find?_iff (h : r.Valid) : r.find? id = some ty ↔ (id, ty) ∈ r.entries := by
  have hkeys : (r.entries.map Prod.fst).Nodup := h.nodes ▸ h.ordered.nodup
  exact ⟨mem_of_lookup, lookup_of_mem hkeys⟩

theorem contains_iff (h : r.Valid) : r.contains id = true ↔ id ∈ r.graph.nodes := by
  rw [contains, Option.isSome_iff_exists, h.nodes, List.mem_map]
  constructor
  · rintro ⟨ty, hty⟩
    exact ⟨(id, ty), h.find?_iff.mp hty, rfl⟩
  · rintro ⟨⟨_, ty⟩, he, rfl⟩
    exact ⟨ty, h.find?_iff.mpr he⟩

/-- A registered type other than `AUTO` is found under an identity other than that of `AUTO`. -/
theorem ne_auto_iff (h : r.Valid) (hfind : r.find? id = some ty) :
    (ty == .auto) = false ↔ id ≠ Ty.auto.identity := by
  rw [← Bool.not_eq_true, Ty.beq_auto, not_iff_not]
  constructor
  · rintro rfl
    exact h.keys _ (h.find?_iff.mp hfind)
  · rintro rfl
    exact Option.some.inj (hfind.symm.trans (h.find?_iff.mpr h.auto))

theorem eq_auto_of_reaches (h : r.Valid) (hpath : r.graph.Reaches Ty.auto.identity id) :
    id = Ty.auto.identity := by
  obtain rfl | ⟨b, hedge, -⟩ := Relation.ReflTransGen.cases_head hpath
  · rfl
  · exact absurd rfl (h.sources _ b hedge)

end Valid

/-! ## Registering -/

theorem nodes_link (id : Identity) (children : List Ty) :
    (r.link id children).nodes = (r.graph.addNode id).nodes := by
  unfold link
  generalize r.graph.addNode id = g
  induction children generalizing g with
  | nil => rfl
  | cons child children ih =>
      rw [List.foldl_cons, ih]
      unfold DependencyGraph.addEdge
      split
      · split <;> rfl
      · rfl

/-- A new type gets edges to the registered types it is built from, and no other edge changes. -/
theorem edge_link {children : List Ty} :
    (r.link id children).Edge a b ↔
      r.graph.Edge a b ∨ a = id ∧ b ≠ id ∧ r.contains b = true ∧ ∃ c ∈ children,
        c.identity = b := by
  have hstart : (r.graph.addNode id).Edge a b ↔ r.graph.Edge a b := by
    unfold DependencyGraph.addNode
    split <;> rfl
  rw [← hstart, link]
  generalize r.graph.addNode id = g
  induction children generalizing g with
  | nil => simp
  | cons child children ih =>
      have hadd : (g.addEdge id child.identity).Edge a b ↔ g.Edge a b ∨ a = id ∧
          b = child.identity := by
        simp only [DependencyGraph.addEdge, DependencyGraph.Edge]
        split <;> grind
      rw [List.foldl_cons]
      refine (ih _).trans ?_
      split <;> grind

/-- Storing a type under a fresh identity puts it after everything it is built from. -/
theorem valid_link (h : r.Valid) (hfresh : ty.identity ∉ r.graph.nodes) (children : List Ty) :
    Valid
      { entries := r.entries ++ [(ty.identity, ty)], graph := r.link ty.identity children } := by
  have hnodes : (r.link ty.identity children).nodes = r.graph.nodes ++ [ty.identity] := by
    rw [nodes_link]
    simp [DependencyGraph.addNode, hfresh]
  have hauto : ty.identity ≠ Ty.auto.identity := by
    intro heq
    rw [heq, h.nodes] at hfresh
    exact hfresh (List.mem_map_of_mem h.auto)
  constructor
  case keys =>
    intro e he
    rcases List.mem_append.mp he with he | he
    · exact h.keys e he
    · rw [List.mem_singleton.mp he]
  case auto => exact List.mem_append_left _ h.auto
  case nodes => rw [hnodes, h.nodes, List.map_append, List.map_singleton]
  case ordered =>
    constructor
    · rw [hnodes]
      exact h.ordered.nodup.append (List.nodup_singleton _) (List.disjoint_singleton.mpr hfresh)
    · intro a b hedge
      rw [hnodes]
      rcases edge_link.mp hedge with hold | ⟨rfl, -, hb, -⟩
      · exact (h.ordered.edges a b hold).trans (List.sublist_append_left _ _)
      · exact (List.singleton_sublist.mpr (h.contains_iff.mp hb)).append_right [ty.identity]
  case sources =>
    intro a b hedge
    rcases edge_link.mp hedge with hold | ⟨rfl, -⟩
    · exact h.sources a b hold
    · exact hauto

theorem valid_base : base.Valid where
  keys := by simp [base, seed]
  auto := by simp [base, seed]
  nodes := rfl
  ordered := ⟨List.nodup_singleton _, fun _ _ hedge => absurd hedge List.not_mem_nil⟩
  sources := fun _ _ hedge => absurd hedge List.not_mem_nil

theorem valid_foldl_seed {tys : List Ty} (h : r.Valid)
    (hfresh : (r.graph.nodes ++ tys.map Ty.identity).Nodup) : (tys.foldl seed r).Valid := by
  induction tys generalizing r with
  | nil => exact h
  | cons ty tys ih =>
      have hnew : ty.identity ∉ r.graph.nodes := fun hmem =>
        (List.nodup_append.mp hfresh).2.2 _ hmem _ List.mem_cons_self rfl
      apply ih (valid_link h hnew [])
      have hnodes : (r.seed ty).graph.nodes = r.graph.nodes ++ [ty.identity] := by
        simp [seed, DependencyGraph.addNode, hnew]
      rw [show (r.link ty.identity []).nodes = _ from hnodes]
      simpa using hfresh

theorem valid_withBuiltins : withBuiltins.Valid :=
  valid_foldl_seed valid_base (by decide +kernel)

theorem Valid.register (h : r.Valid) {given : Ty} (hreg : r.register ty = .ok (given, s)) :
    s.Valid := by
  unfold Registry.register at hreg
  cases hfind : r.find? ty.identity with
  | some existing =>
      simp only [hfind] at hreg
      split at hreg
      · obtain ⟨-, rfl⟩ := Prod.mk.inj (Except.ok.inj hreg)
        exact h
      · contradiction
  | none =>
      simp only [hfind] at hreg
      obtain ⟨-, rfl⟩ := Prod.mk.inj (Except.ok.inj hreg)
      apply valid_link h
      rw [h.nodes]
      exact not_mem_keys_of_lookup hfind

/-! ## Forgetting -/

theorem drop_drop (r : Registry) (xs ys : List Identity) :
    (r.drop xs).drop ys = r.drop (xs ++ ys) := by
  have hcontains (x : Identity) : (xs ++ ys).contains x = (xs.contains x || ys.contains x) := by
    simp [Bool.decide_or]
  have hedge (e : Identity × Identity) :
      (!ys.contains e.1 && !ys.contains e.2 && (!xs.contains e.1 && !xs.contains e.2)) =
        (!xs.contains e.1 && !ys.contains e.1 && (!xs.contains e.2 && !ys.contains e.2)) := by
    grind
  simp only [drop, DependencyGraph.removeNodes, List.filter_filter, hcontains, Bool.not_or, hedge,
    Bool.and_comm (!ys.contains _) (!xs.contains _)]

theorem drop_nil (r : Registry) : r.drop [] = r := by
  simp [drop, DependencyGraph.removeNodes]

namespace Valid

/-- Only which of the registered types are forgotten matters. -/
theorem drop_congr (h : r.Valid) {xs ys : List Identity}
    (heq : ∀ x ∈ r.graph.nodes, x ∈ xs ↔ x ∈ ys) : r.drop xs = r.drop ys := by
  have hcontains (x : Identity) (hx : x ∈ r.graph.nodes) : xs.contains x = ys.contains x := by
    simp [heq x hx]
  have hentries : (r.entries.filter fun e => !xs.contains e.1) = r.entries.filter fun e =>
      !ys.contains e.1 :=
    List.filter_congr fun e he => by rw [hcontains e.1 (h.nodes ▸ List.mem_map_of_mem he)]
  have hnodes : (r.graph.nodes.filter fun n => !xs.contains n) = r.graph.nodes.filter fun n =>
      !ys.contains n :=
    List.filter_congr fun n hn => by rw [hcontains n hn]
  have hedges : (r.graph.edges.filter fun e => !xs.contains e.1 && !xs.contains e.2) =
      r.graph.edges.filter fun e => !ys.contains e.1 && !ys.contains e.2 :=
    List.filter_congr fun e he => by
      rw [hcontains e.1 (h.ordered.source_mem he), hcontains e.2 (h.ordered.target_mem he)]
  simp only [drop, DependencyGraph.removeNodes, hentries, hnodes, hedges]

theorem drop (h : r.Valid) (hauto : Ty.auto.identity ∉ ids) : (r.drop ids).Valid where
  keys := fun e he => h.keys e (List.mem_of_mem_filter he)
  auto := List.mem_filter.mpr ⟨h.auto, by simpa using hauto⟩
  nodes := by
    simp only [Registry.drop, DependencyGraph.removeNodes, h.nodes, List.filter_map]
    rfl
  ordered := h.ordered.removeNodes ids
  sources := fun a b hedge => h.sources a b (DependencyGraph.edge_removeNodes.mp hedge).1

end Valid

/-- `s` is `r` without the types with the identities `gone`, and nothing else has changed. -/
structure Without (r : Registry) (gone : Identity → Prop) (s : Registry) : Prop where
  types : ∀ id ty, s.find? id = some ty ↔ r.find? id = some ty ∧ ¬ gone id
  nodes : ∀ id, id ∈ s.graph.nodes ↔ id ∈ r.graph.nodes ∧ ¬ gone id
  edges : ∀ a b, s.graph.Edge a b ↔ r.graph.Edge a b ∧ ¬ gone a ∧ ¬ gone b

theorem Valid.without_drop (h : r.Valid) (hauto : Ty.auto.identity ∉ ids) {gone : Identity → Prop}
    (hgone : ∀ x, x ∈ ids ↔ gone x) : r.Without gone (r.drop ids) where
  types := fun id ty => by
    rw [(h.drop hauto).find?_iff, h.find?_iff, ← hgone]
    simp [Registry.drop]
  nodes := fun id => by rw [← hgone]; exact DependencyGraph.mem_nodes_removeNodes
  edges := fun a b => by rw [← hgone, ← hgone]; exact DependencyGraph.edge_removeNodes

/-! ## Removal step by step -/

/-- Remove the listed types one after the other, each with those built from it first, which `visit`
lists. A type that is gone already is passed over. The result is the registry that is left and the
error that ended the removal, if any. -/
inductive Cascade (visit : DependencyGraph → Identity → List Identity) :
    Registry → List Identity → Registry → Option DeclarationError → Prop
  | nil {r : Registry} : Cascade visit r [] r none
  | gone {r s : Registry} {id : Identity} {ids : List Identity} {fault : Option DeclarationError}
      (hfind : r.find? id = none) (hrest : Cascade visit r ids s fault) : Cascade visit r
        (id :: ids) s fault
  | permanent {r : Registry} {ty : Ty} {id : Identity} {ids : List Identity}
      (hfind : r.find? id = some ty) (hauto : (ty == .auto) = true) :
      Cascade visit r (id :: ids) r (some (.permanentType ty.name))
  | stopped {r s : Registry} {ty : Ty} {id : Identity} {ids : List Identity}
      {error : DeclarationError} (hfind : r.find? id = some ty) (hauto : (ty == .auto) = false)
      (hfirst : Cascade visit r (visit r.graph id) s (some error)) :
      Cascade visit r (id :: ids) s (some error)
  | removed {r s t : Registry} {ty : Ty} {id : Identity} {ids : List Identity}
      {fault : Option DeclarationError} (hfind : r.find? id = some ty)
        (hauto : (ty == .auto) = false)
      (hfirst : Cascade visit r (visit r.graph id) s none)
        (hrest : Cascade visit (s.drop [id]) ids t fault) :
      Cascade visit r (id :: ids) t fault

variable {visit : DependencyGraph → Identity → List Identity}

theorem Cascade.unique {fault fault' : Option DeclarationError} {t : Registry}
    (h : Cascade visit r ids s fault) (h' : Cascade visit r ids t fault') :
    s = t ∧ fault = fault' := by
  induction h generalizing t fault' with
  | nil =>
      cases h'
      exact ⟨rfl, rfl⟩
  | gone hfind _ ih => cases h' <;> grind
  | permanent hfind hauto => cases h' <;> grind
  | stopped hfind hauto _ ih => cases h' <;> grind
  | removed hfind hauto _ _ ihfirst ihrest => cases h' <;> grind

/-- Removing types with all that is built from them amounts to forgetting all of it at once, if that
can be done for each of them in every registry with no more dependencies than `g`. -/
theorem cascade_of_forall {g : DependencyGraph} (hr : r.Valid)
    (hsub : ∀ a b, r.graph.Edge a b → g.Edge a b) (hauto : Ty.auto.identity ∉ ids)
    (hone : ∀ id ∈ ids, ∀ r : Registry, r.Valid → (∀ a b, r.graph.Edge a b → g.Edge a b) →
      ∃ s, Cascade visit r (visit r.graph id) s none ∧ s.drop [id] = r.drop (r.graph.closure id)) :
    Cascade visit r ids (r.drop (ids.flatMap r.graph.closure)) none := by
  induction ids generalizing r with
  | nil =>
      rw [List.flatMap_nil, drop_nil]
      exact .nil
  | cons id ids ih =>
      rw [List.forall_mem_cons] at hone
      rw [List.mem_cons, not_or] at hauto
      cases hfind : r.find? id with
      | none =>
          -- Nothing registered leads to a type that is gone.
          have hnode : id ∉ r.graph.nodes := by
            rw [← hr.contains_iff, contains, hfind]
            exact Bool.false_ne_true
          have hsame : r.drop ((id :: ids).flatMap r.graph.closure) =
              r.drop (ids.flatMap r.graph.closure) := by
            refine hr.drop_congr fun x hx => ?_
            rw [List.flatMap_cons, List.mem_append, or_iff_right]
            intro hmem
            rcases Relation.ReflTransGen.cases_tail
              (DependencyGraph.mem_closure hr.ordered |>.mp hmem) with
              rfl | ⟨b, -, hedge⟩
            · exact hnode hx
            · exact hnode (hr.ordered.target_mem hedge)
          rw [hsame]
          exact .gone hfind (ih hr hsub hauto.2 hone.2)
      | some ty =>
          obtain ⟨s, hfirst, hs⟩ := hone.1 r hr hsub
          have hkept : Ty.auto.identity ∉ r.graph.closure id := fun hmem =>
            hauto.1 (hr.eq_auto_of_reaches (DependencyGraph.mem_closure hr.ordered |>.mp hmem)).symm
          have hnext := hr.drop hkept
          have hrest :=
            ih hnext (fun a b hedge => hsub a b (DependencyGraph.edge_removeNodes.mp hedge).1)
            hauto.2 hone.2
          refine .removed hfind ((hr.ne_auto_iff hfind).mpr (Ne.symm hauto.1)) hfirst ?_
          rw [hs]
          convert hrest using 1
          rw [drop_drop]
          refine hr.drop_congr fun x _ => ?_
          have hclosed (x y : Identity) (hy : y ∈ r.graph.closure id) (hxy : r.graph.Reaches x y) :
              x ∈ r.graph.closure id := by
            rw [DependencyGraph.mem_closure hr.ordered] at hy ⊢
            exact hxy.trans hy
          rw [List.flatMap_cons, List.mem_append, List.mem_append]
          refine or_congr_right' fun hx => ?_
          simp only [List.mem_flatMap]
          refine exists_congr fun y => and_congr_right fun _ => ?_
          rw [DependencyGraph.mem_closure hr.ordered, DependencyGraph.mem_closure hnext.ordered]
          exact (DependencyGraph.reaches_removeNodes hclosed hx).symm

/-- A removal comes to an end without an error, whatever the order, and all that leads to the
removed type is gone then. -/
theorem Valid.cascade (hr : r.Valid) (hvisit : ∀ g id, (visit g id).Perm (g.dependents id))
    (hauto : id ≠ Ty.auto.identity) :
    Cascade visit r [id] (r.drop (r.graph.closure id)) none := by
  -- Types built from a type come after it, so the number of types from there on falls.
  have hwf : WellFounded r.graph.Edge := by
    refine Subrelation.wf
      (r := InvImage (· < ·) fun x => r.graph.nodes.length - r.graph.nodes.idxOf x) ?_
      (InvImage.wf _ Nat.lt_wfRel.wf)
    intro a b hedge
    have hlt := hr.ordered.idxOf_lt hedge
    have hlength := List.idxOf_lt_length_of_mem (hr.ordered.source_mem hedge)
    simp only [InvImage]
    omega
  have hone (id : Identity) : ∀ s : Registry, s.Valid →
      (∀ a b, s.graph.Edge a b → r.graph.Edge a b) →
      ∃ t, Cascade visit s (visit s.graph id) t none ∧
          t.drop [id] = s.drop (s.graph.closure id) := by
    induction id using hwf.induction with
    | h id ih =>
      intro s hs hsub
      have hmem {x : Identity} : x ∈ visit s.graph id ↔ s.graph.Edge x id :=
        (hvisit s.graph id).mem_iff.trans DependencyGraph.mem_dependents
      refine ⟨_, cascade_of_forall hs hsub (fun hx => hs.sources _ _ (hmem.mp hx) rfl)
        (fun x hx => ih x (hsub x id (hmem.mp hx))), ?_⟩
      rw [drop_drop]
      refine hs.drop_congr fun x _ => ?_
      rw [DependencyGraph.mem_closure hs.ordered, DependencyGraph.Reaches,
        Relation.ReflTransGen.cases_tail_iff, List.mem_append, List.mem_flatMap, List.mem_singleton,
          or_comm]
      refine or_congr eq_comm (exists_congr fun y => ?_)
      rw [hmem, DependencyGraph.mem_closure hs.ordered, and_comm, DependencyGraph.Reaches]
  have hlist : Cascade visit r [id] (r.drop ([id].flatMap r.graph.closure)) none :=
    cascade_of_forall hr (fun _ _ hedge => hedge) (by simpa using Ne.symm hauto) fun x _ => hone x
  rwa [List.flatMap_singleton] at hlist

/-- A removal succeeds for a registered type other than `AUTO`, if nothing is built from it or that
goes with it. -/
theorem Valid.unregister_ok_iff (h : r.Valid) {cascade : Bool} :
    r.unregister id cascade = .ok s ↔
      r.contains id = true ∧ id ≠ Ty.auto.identity ∧ (cascade = false → ∀ a, ¬ r.graph.Edge a id) ∧
        r.drop (if cascade then r.graph.closure id else [id]) = s := by
  have hdependents : (∀ a, ¬ r.graph.Edge a id) ↔ r.graph.dependents id = [] := by
    simp only [List.eq_nil_iff_forall_not_mem, DependencyGraph.mem_dependents]
  rw [hdependents]
  cases hfind : r.find? id with
  | none => simp [unregister, contains, hfind]
  | some ty =>
      rw [← h.ne_auto_iff hfind]
      cases hty : ty == .auto with
      | true => simp [unregister, hfind, hty]
      | false =>
          cases cascade with
          | true => simp [unregister, contains, hfind, hty]
          | false =>
              cases hids : r.graph.dependents id <;> simp [unregister, contains, hfind, hty, hids]

theorem Valid.not_mem_closure (h : r.Valid) (hauto : id ≠ Ty.auto.identity) :
    Ty.auto.identity ∉ r.graph.closure id := by
  rw [DependencyGraph.mem_closure h.ordered]
  exact fun hpath => hauto (h.eq_auto_of_reaches hpath)

end Registry
end GameScript
