import GameScript.Proofs.Outcomes
import GameScript.Proofs.RegistryHistory

/-!
# What the edges of a registry stand for

A type gets its edges when it is registered, to those of its parts that are registered by then. An
edge is therefore there if and only if a type has a part that was registered before it, after every
history: removals take an edge away only with one of its ends. A part that comes later gets no edge,
so it can be removed from under the types that are built from it. Where every type is registered
after its parts, edges and parts are the same, and this lasts: a part leaves only with the types
that are built from it.
-/
namespace GameScript

theorem pair_sublist_concat {α : Type} {xs : List α} {x y z : α} :
    [x, y].Sublist (xs ++ [z]) ↔ [x, y].Sublist xs ∨ y = z ∧ x ∈ xs := by
  constructor
  · intro hpair
    obtain ⟨front, back, hsplit, hfront, hback⟩ := List.sublist_append_iff.mp hpair
    rcases List.sublist_singleton.mp hback with rfl | rfl
    · rw [List.append_nil] at hsplit
      exact .inl (hsplit ▸ hfront)
    · obtain ⟨rfl, hlast⟩ : [x] = front ∧ [y] = [z] := List.append_inj' hsplit rfl
      exact .inr ⟨(List.cons.inj hlast).1, List.singleton_sublist.mp hfront⟩
  · rintro (hpair | ⟨rfl, hx⟩)
    · exact hpair.trans (List.sublist_append_left _ _)
    · exact (List.singleton_sublist.mpr hx).append_right [y]

def RegistryCall.type? : RegistryCall → Option Ty
  | register ty => some ty
  | registerArray item length => some (.array item length)
  | unregister _ _ => none

namespace Registry

variable {visit : DependencyGraph → Identity → List Identity} {r s : Registry} {call : RegistryCall}
variable {a b : Identity} {ids : List Identity} {ty : Ty}

/-- The type with the identity `a` has a part with the identity `b`. -/
def BuiltFrom (r : Registry) (a b : Identity) : Prop :=
  ∃ ty, r.find? a = some ty ∧ ∃ part ∈ ty.children, part.identity = b

/-- Both types are registered, and `a` has been longer. Types are listed in the order in which they
came. -/
def Earlier (r : Registry) (a b : Identity) : Prop := [a, b].Sublist (r.entries.map Prod.fst)

/-- All parts of a type are registered. A part with the type's own identity can never be, as they
could not both be. -/
def HasParts (r : Registry) (ty : Ty) : Prop :=
  ∀ part ∈ ty.children, part.identity ≠ ty.identity → r.contains part.identity = true

instance : Decidable (r.BuiltFrom a b) :=
  decidable_of_iff ((r.find? a).any fun ty => ty.children.any fun part => part.identity == b) (by
    simp [BuiltFrom, Option.any_eq_true])

instance : Decidable (r.Earlier a b) := inferInstanceAs (Decidable ([a, b].Sublist _))

instance : Decidable (r.HasParts ty) := inferInstanceAs (Decidable (∀ part ∈ ty.children, _))

/-- Edges lead from types to parts that were registered before them. -/
def Linked (r : Registry) : Prop := ∀ a b, r.graph.Edge a b ↔ r.BuiltFrom a b ∧ r.Earlier b a

def PartsEarlier (r : Registry) : Prop := ∀ a b, a ≠ b → r.BuiltFrom a b → r.Earlier b a

/-- The registry can be reached by calls of which none registers a type before its parts. -/
inductive PartsFirst (visit : DependencyGraph → Identity → List Identity) : Registry → Prop
  | base : PartsFirst visit base
  | withBuiltins : PartsFirst visit withBuiltins
  | call {r s : Registry} {call : RegistryCall} {fault : Option DeclarationError}
      (hr : PartsFirst visit r)
      (hparts : ∀ ty, call.type? = some ty → r.HasParts ty) (hcall : call.Leaves visit r s fault) :
      PartsFirst visit s

/-- The registry with one more type at the end of the list, linked to those of its parts that are
there. -/
def stored (r : Registry) (ty : Ty) : Registry :=
  { entries := r.entries ++ [(ty.identity, ty)], graph := r.link ty.identity ty.children }

/-! ## One call -/

theorem register_cases {given : Ty} (hreg : r.register ty = .ok (given, s)) :
    s = r ∨ r.find? ty.identity = none ∧ s = r.stored ty := by
  unfold register at hreg
  cases hfind : r.find? ty.identity with
  | some existing =>
      simp only [hfind] at hreg
      split at hreg
      · exact .inl (Prod.mk.inj (Except.ok.inj hreg)).2.symm
      · contradiction
  | none =>
      simp only [hfind] at hreg
      exact .inr ⟨rfl, (Prod.mk.inj (Except.ok.inj hreg)).2.symm⟩

namespace Valid

/-- What a call that is not refused can do: nothing, store its type, or forget types together with
all that is built from them. -/
theorem run_cases (h : r.Valid) (hrun : call.run r = .ok s) :
    s = r ∨ (∃ ty, call.type? = some ty ∧ ty.identity ∉ r.graph.nodes ∧ s = r.stored ty) ∨
      ∃ ids, Ty.auto.identity ∉ ids ∧ (∀ a b, r.graph.Edge a b → b ∈ ids → a ∈ ids) ∧
        s = r.drop ids := by
  have hregister {ty given : Ty} (hty : call.type? = some ty)
      (hreg : r.register ty = .ok (given, s)) :
      s = r ∨ ∃ ty, call.type? = some ty ∧ ty.identity ∉ r.graph.nodes ∧ s = r.stored ty := by
    rcases register_cases hreg with hsame | ⟨hfresh, hstored⟩
    · exact .inl hsame
    · exact .inr ⟨ty, hty, h.nodes ▸ not_mem_keys_of_lookup hfresh, hstored⟩
  cases call with
  | register ty =>
      obtain ⟨⟨given, _⟩, hreg, rfl⟩ := map_eq_ok.mp hrun
      exact (hregister rfl hreg).imp_right .inl
  | registerArray item length =>
      obtain ⟨⟨given, _⟩, hreg, rfl⟩ := map_eq_ok.mp hrun
      exact (hregister rfl hreg).imp_right .inl
  | unregister id cascade =>
      obtain ⟨-, hauto, halone, rfl⟩ := h.unregister_ok_iff.mp hrun
      refine .inr (.inr ⟨_, ?_, fun a b hedge hb => ?_, rfl⟩)
      · cases cascade with
        | true => exact h.not_mem_closure hauto
        | false => simpa using Ne.symm hauto
      · cases cascade with
        | true =>
            simp only [if_true, DependencyGraph.mem_closure h.ordered] at hb ⊢
            exact .head hedge hb
        | false =>
            obtain rfl : b = id := by simpa using hb
            exact absurd hedge (halone rfl a)

theorem builtFrom_iff (h : r.Valid) :
    r.BuiltFrom a b ↔ ∃ ty, (a, ty) ∈ r.entries ∧ ∃ part ∈ ty.children, part.identity = b := by
  simp only [BuiltFrom, h.find?_iff]

theorem earlier_iff (h : r.Valid) : r.Earlier a b ↔ [a, b].Sublist r.graph.nodes := by
  rw [Earlier, h.nodes]

theorem source_mem (h : r.Valid) (hab : r.BuiltFrom a b) : a ∈ r.graph.nodes := by
  obtain ⟨ty, hty, -⟩ := h.builtFrom_iff.mp hab
  exact h.nodes ▸ List.mem_map_of_mem hty

/-! ## Storing a type -/

section
variable (h : r.Valid) (hfresh : ty.identity ∉ r.graph.nodes)
include h hfresh

theorem stored : (r.stored ty).Valid := valid_link h hfresh ty.children

/-- The stored type is built from its parts, and the others are built from what they were built
from. -/
theorem builtFrom_stored : (r.stored ty).BuiltFrom a b ↔
    r.BuiltFrom a b ∨ a = ty.identity ∧ ∃ part ∈ ty.children, part.identity = b := by
  rw [(h.stored hfresh).builtFrom_iff, h.builtFrom_iff]
  simp only [Registry.stored, List.mem_append, List.mem_singleton, Prod.mk.injEq]
  grind

end

/-- The stored type comes after all others. -/
theorem earlier_stored (h : r.Valid) : (r.stored ty).Earlier b a ↔
    r.Earlier b a ∨ a = ty.identity ∧ b ∈ r.graph.nodes := by
  rw [Earlier, Registry.stored, List.map_append, List.map_singleton, ← h.nodes, h.earlier_iff,
    pair_sublist_concat]

/-! ## Forgetting types -/

theorem builtFrom_drop (h : r.Valid) (hauto : Ty.auto.identity ∉ ids) :
    (r.drop ids).BuiltFrom a b ↔ r.BuiltFrom a b ∧ a ∉ ids := by
  rw [(h.drop hauto).builtFrom_iff, h.builtFrom_iff]
  simp only [Registry.drop, List.mem_filter]
  grind

theorem earlier_drop (h : r.Valid) (hauto : Ty.auto.identity ∉ ids) :
    (r.drop ids).Earlier b a ↔ r.Earlier b a ∧ b ∉ ids ∧ a ∉ ids := by
  rw [(h.drop hauto).earlier_iff, h.earlier_iff]
  constructor
  · intro hpair
    have hkept {x : Identity} (hx : x ∈ [b, a]) : x ∉ ids :=
      (DependencyGraph.mem_nodes_removeNodes.mp (hpair.subset hx)).2
    exact ⟨hpair.trans List.filter_sublist, hkept (by simp), hkept (by simp)⟩
  · rintro ⟨hpair, hb, ha⟩
    have hfiltered := hpair.filter fun n => !ids.contains n
    simpa [Registry.drop, DependencyGraph.removeNodes, hb, ha] using hfiltered

end Valid

/-! ## Histories -/

theorem Linked.run (hlinked : r.Linked) (h : r.Valid) (hrun : call.run r = .ok s) : s.Linked := by
  rcases h.run_cases hrun with rfl | ⟨ty, -, hfresh, rfl⟩ | ⟨ids, hauto, -, rfl⟩
  · exact hlinked
  · intro a b
    have hedge : (r.stored ty).graph.Edge a b ↔ _ := edge_link
    have hbuilt : r.BuiltFrom a b → a ≠ ty.identity :=
      fun hab heq => hfresh (heq ▸ h.source_mem hab)
    have hearlier : r.Earlier b a → a ≠ ty.identity := fun hba heq =>
      hfresh (heq ▸ (h.earlier_iff.mp hba).subset (by simp))
    rw [hedge, hlinked, h.contains_iff, h.builtFrom_stored hfresh, h.earlier_stored]
    constructor
    · rintro (⟨hold, hbefore⟩ | ⟨rfl, -, hb, hpart⟩)
      · exact ⟨.inl hold, .inl hbefore⟩
      · exact ⟨.inr ⟨rfl, hpart⟩, .inr ⟨rfl, hb⟩⟩
    · rintro ⟨hold | ⟨rfl, hpart⟩, hbefore | ⟨heq, hb⟩⟩
      · exact .inl ⟨hold, hbefore⟩
      · exact absurd heq (hbuilt hold)
      · exact absurd rfl (hearlier hbefore)
      · exact .inr ⟨rfl, fun heq => hfresh (heq ▸ hb), hb, hpart⟩
  · intro a b
    have hedge : (r.drop ids).graph.Edge a b ↔ _ := DependencyGraph.edge_removeNodes
    rw [hedge, hlinked, h.builtFrom_drop hauto, h.earlier_drop hauto]
    tauto

/-- A type that leaves takes those with it that are built from it, so no type is left without its
parts. -/
theorem PartsEarlier.run (hparts : r.PartsEarlier) (hlinked : r.Linked) (h : r.Valid)
    (hready : ∀ ty, call.type? = some ty → r.HasParts ty) (hrun : call.run r = .ok s) :
    s.PartsEarlier := by
  rcases h.run_cases hrun with rfl | ⟨ty, hty, hfresh, rfl⟩ | ⟨ids, hauto, hclosed, rfl⟩
  · exact hparts
  · intro a b hab hbuilt
    rw [h.earlier_stored]
    rcases (h.builtFrom_stored hfresh).mp hbuilt with hold | ⟨rfl, part, hpart, rfl⟩
    · exact .inl (hparts a b hab hold)
    · exact .inr ⟨rfl, h.contains_iff.mp (hready ty hty part hpart hab.symm)⟩
  · intro a b hab hbuilt
    obtain ⟨hold, ha⟩ := (h.builtFrom_drop hauto).mp hbuilt
    have hearlier := hparts a b hab hold
    have hedge : r.graph.Edge a b := (hlinked a b).mpr ⟨hold, hearlier⟩
    exact (h.earlier_drop hauto).mpr ⟨hearlier, fun hb => ha (hclosed a b hedge hb), ha⟩

theorem edges_foldl_seed (tys : List Ty) (r : Registry) :
    (tys.foldl seed r).graph.edges = r.graph.edges := by
  induction tys generalizing r with
  | nil => rfl
  | cons ty tys ih =>
      rw [List.foldl_cons, ih, seed, DependencyGraph.addNode]
      split <;> rfl

/-- Built-in types have no parts. -/
theorem noParts_withBuiltins : ∀ e ∈ withBuiltins.entries, e.2.children = [] := by
  have hall : withBuiltins.entries.all (fun e => e.2.children.isEmpty) = true := by decide +kernel
  exact fun e he => List.isEmpty_iff.mp (List.all_eq_true.mp hall e he)

theorem noParts_base : ∀ e ∈ base.entries, e.2.children = [] :=
  fun _ he => List.mem_singleton.mp he ▸ rfl

theorem not_builtFrom_of_noParts (hparts : ∀ e ∈ r.entries, e.2.children = []) :
    ¬ r.BuiltFrom a b := by
  rintro ⟨ty, hfind, part, hpart, -⟩
  rw [hparts _ (mem_of_lookup hfind)] at hpart
  cases hpart

theorem linked_of_noParts (hedges : r.graph.edges = [])
    (hparts : ∀ e ∈ r.entries, e.2.children = []) :
    r.Linked := by
  intro a b
  rw [DependencyGraph.Edge, hedges]
  exact ⟨fun hedge => absurd hedge List.not_mem_nil,
    fun h => absurd h.1 (not_builtFrom_of_noParts hparts)⟩

theorem PartsFirst.reachable (h : PartsFirst visit r) : Reachable visit r := by
  induction h with
  | base => exact .base
  | withBuiltins => exact .withBuiltins
  | call _ _ hcall ih => exact .call ih hcall

section
variable (hvisit : ∀ g id, (visit g id).Perm (g.dependents id))
include hvisit

theorem Reachable.linked (h : Reachable visit r) : r.Linked := by
  induction h with
  | base => exact linked_of_noParts rfl noParts_base
  | withBuiltins =>
      exact linked_of_noParts (edges_foldl_seed Ty.builtins Registry.base) noParts_withBuiltins
  | call hr hcall ih =>
      have hvalid := hr.valid hvisit
      rcases (hvalid.leaves_iff hvisit).mp hcall with ⟨hrun, -⟩ | ⟨_, -, rfl, -⟩
      · exact ih.run hvalid hrun
      · exact ih

theorem PartsFirst.partsEarlier (h : PartsFirst visit r) : r.PartsEarlier := by
  induction h with
  | base => exact fun a b _ hbuilt => absurd hbuilt (not_builtFrom_of_noParts noParts_base)
  | withBuiltins =>
      exact fun a b _ hbuilt => absurd hbuilt (not_builtFrom_of_noParts noParts_withBuiltins)
  | call hr hready hcall ih =>
      have hvalid := hr.reachable.valid hvisit
      rcases (hvalid.leaves_iff hvisit).mp hcall with ⟨hrun, -⟩ | ⟨_, -, rfl, -⟩
      · exact ih.run (hr.reachable.linked hvisit) hvalid hready hrun
      · exact ih

theorem PartsFirst.after (h : PartsFirst visit r)
    (hready : ∀ ty, call.type? = some ty → r.HasParts ty) :
    PartsFirst visit (call.after r) := by
  rw [RegistryCall.after]
  cases hrun : call.run r with
  | ok s => exact .call h hready ((h.reachable.valid hvisit).leaves_ok hvisit hrun)
  | error error => exact .call h hready (leaves_error hrun)

/-- After every history, an edge leads from a type to each part that was registered before it and to
nothing else, so a type can be removed alone if and only if none that came after it is built from
it. If types were only registered after their parts, the edges are exactly the dependencies, and no
type is removed alone while another is built from it. -/
theorem Reachable.edges_exact (h : Reachable visit r) :
    (∀ a b, r.graph.Edge a b ↔ r.BuiltFrom a b ∧ r.Earlier b a) ∧
    (∀ b, r.contains b = true → b ≠ Identity.ofName "AUTO" →
      ((∃ s, r.unregister b false = .ok s) ↔ ∀ a, r.BuiltFrom a b → ¬ r.Earlier b a)) ∧
    (PartsFirst visit r →
      (∀ a b, a ≠ b → r.contains a = true → r.contains b = true →
        (r.graph.Edge a b ↔ r.BuiltFrom a b)) ∧
      ∀ a b s, a ≠ b → r.BuiltFrom a b → r.unregister b false ≠ .ok s) := by
  have hvalid := h.valid hvisit
  have hlinked := h.linked hvisit
  refine ⟨hlinked, fun b hb hauto => ?_, fun hfirst => ?_⟩
  · rw [(hvalid.unregister_alone hb hauto).1]
    refine forall_congr' fun a => ?_
    rw [hlinked, not_and]
  · have hparts := hfirst.partsEarlier hvisit
    constructor
    · exact fun a b hab _ _ => (hlinked a b).trans (and_iff_left_of_imp (hparts a b hab))
    · intro a b s hab hbuilt hrun
      obtain ⟨-, -, halone, -⟩ := hvalid.unregister_ok_iff.mp hrun
      exact halone rfl a ((hlinked a b).mpr ⟨hbuilt, hparts a b hab hbuilt⟩)

end

def stopType : Ty := .struct "STOP" (.cons "place" .vector none .nil)

def lineType : Ty := .struct "LINE" (.cons "start" stopType none .nil)

def lateStop : Registry := [.register lineType, .register stopType].foldl RegistryCall.after base

/-- A registry with a stop, a line from it, and a refused removal of the stop. -/
def earlyStop : Registry :=
  RegistryCall.after (RegistryCall.after (RegistryCall.after (RegistryCall.after base
    (.register .vector)) (.register stopType)) (.register lineType))
      (.unregister stopType.identity false)

/-- The late stop has no edge from its line and can be removed from under it. The early stop has one
and stays. -/
theorem edges_exact_stops :
    let visit (g : DependencyGraph) (id : Identity) : List Identity := (g.dependents id).reverse
    let stop := Identity.ofName "STOP"
    let line := Identity.ofName "LINE"
    Reachable visit lateStop ∧ lateStop.BuiltFrom line stop ∧ ¬ lateStop.graph.Edge line stop ∧
    (∃ s, lateStop.unregister stop false = .ok s) ∧
      (∀ a, lateStop.BuiltFrom a stop → ¬ lateStop.Earlier stop a) ∧
    PartsFirst visit earlyStop ∧ earlyStop.graph.Edge line stop ∧
    ∀ s, earlyStop.unregister stop false ≠ .ok s := by
  intro visit stop line
  have hvisit (g : DependencyGraph) (id : Identity) : (visit g id).Perm (g.dependents id) :=
    List.reverse_perm _
  have hlate : Reachable visit lateStop := Reachable.foldl hvisit .base _
  have hearly : PartsFirst visit earlyStop := by
    refine .after hvisit (.after hvisit (.after hvisit (.after hvisit .base ?_) ?_) ?_) nofun
    · rintro _ ⟨⟩
      decide +kernel
    · rintro _ ⟨⟩
      decide +kernel
    · rintro _ ⟨⟩
      decide +kernel
  have hfacts : lateStop.BuiltFrom line stop ∧ ¬ lateStop.Earlier stop line ∧
      lateStop.contains stop = true ∧ (lateStop.unregister stop false).toOption.isSome = true ∧
      earlyStop.BuiltFrom line stop ∧ earlyStop.Earlier stop line ∧
      line ≠ stop ∧ stop ≠ Identity.ofName "AUTO" := by
    decide +kernel
  obtain ⟨hbuilt, hbefore, hstop, hremoved, hbuilt', hbefore', hne, hauto⟩ := hfacts
  obtain ⟨s, hs⟩ := Option.isSome_iff_exists.mp hremoved
  obtain ⟨hedges, halone, -⟩ := Reachable.edges_exact hvisit hlate
  obtain ⟨hedges', -, hfirst⟩ := Reachable.edges_exact hvisit hearly.reachable
  have hok := ok_of_toOption hs
  exact ⟨hlate, hbuilt, fun hedge => hbefore ((hedges line stop).mp hedge).2, ⟨s, hok⟩,
    (halone stop hstop hauto).mp ⟨s, hok⟩, hearly, (hedges' line stop).mpr ⟨hbuilt', hbefore'⟩,
    fun s => (hfirst hearly).2 line stop s hne hbuilt'⟩

end Registry
end GameScript
