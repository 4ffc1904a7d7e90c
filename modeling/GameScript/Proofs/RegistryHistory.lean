import GameScript.Proofs.RegistryRemoval

/-!
# Histories of a registry

A registry starts with `AUTO` alone or with the built-in types as well, and changes by calls: a type
or an array of one is registered, or a type is removed. A refused call is part of the history too,
with whatever it leaves behind. The theorem says what holds of every registry reached in this way
and what a removal does to it, for any order in which the types built from a type are visited.
-/
namespace GameScript

inductive RegistryCall where
  | register (ty : Ty)
  | registerArray (item : Ty) (length : UInt32)
  | unregister (id : Identity) (cascade : Bool)

namespace RegistryCall

def run (r : Registry) : RegistryCall → Except DeclarationError Registry
  | register ty => (r.register ty).map Prod.snd
  | registerArray item length => (r.registerArray item length).map Prod.snd
  | unregister id cascade => r.unregister id cascade

def after (r : Registry) (call : RegistryCall) : Registry := (call.run r).toOption.getD r

/-- A call leaves the registry `s` behind and ends with the given error, if any. Only a removal with
all that is built from a type has several steps, and so could leave something half done behind. -/
inductive Leaves (visit : DependencyGraph → Identity → List Identity) (r : Registry) :
    RegistryCall → Registry → Option DeclarationError → Prop
  | done {call : RegistryCall} {s : Registry} (hcall : ∀ id, call ≠ .unregister id true)
      (hrun : call.run r = .ok s) : Leaves visit r call s none
  | refused {call : RegistryCall} {error : DeclarationError}
      (hcall : ∀ id, call ≠ .unregister id true)
      (hrun : call.run r = .error error) : Leaves visit r call r (some error)
  | unknown {id : Identity} (hfind : r.find? id = none) :
      Leaves visit r (.unregister id true) r (some (.unknownType id.text))
  | cascade {id : Identity} {s : Registry} {fault : Option DeclarationError}
      (hfind : r.contains id = true)
      (hsteps : Registry.Cascade visit r [id] s fault) :
      Leaves visit r (.unregister id true) s fault

end RegistryCall

namespace Registry

variable {visit : DependencyGraph → Identity → List Identity} {r s : Registry}

/-- The registry can be reached from one of the two initial ones by calls, refused ones included. -/
inductive Reachable (visit : DependencyGraph → Identity → List Identity) : Registry → Prop
  | base : Reachable visit base
  | withBuiltins : Reachable visit withBuiltins
  | call {r s : Registry} {call : RegistryCall} {fault : Option DeclarationError}
      (hr : Reachable visit r) (hcall : call.Leaves visit r s fault) : Reachable visit s

variable {call : RegistryCall} {fault : Option DeclarationError}

theorem Valid.run (h : r.Valid) (hrun : call.run r = .ok s) : s.Valid := by
  have hmap {result : Except DeclarationError (Ty × Registry)}
      (hresult : result.map Prod.snd = .ok s) :
      ∃ ty, result = .ok (ty, s) := by
    cases result with
    | error e => cases hresult
    | ok given => exact ⟨given.1, by rw [← Except.ok.inj hresult]⟩
  cases call with
  | register ty =>
      obtain ⟨given, hreg⟩ := hmap hrun
      exact h.register hreg
  | registerArray item length =>
      obtain ⟨given, hreg⟩ := hmap hrun
      exact h.register hreg
  | unregister id cascade =>
      obtain ⟨-, hauto, -, rfl⟩ := h.unregister_ok_iff.mp hrun
      apply h.drop
      split
      · exact h.not_mem_closure hauto
      · simpa using Ne.symm hauto

theorem leaves_unique {t : Registry} {fault' : Option DeclarationError}
    (h : call.Leaves visit r s fault) (h' : call.Leaves visit r t fault') :
    s = t ∧ fault = fault' := by
  cases h with
  | done hcall hrun => cases h' <;> grind
  | refused hcall hrun => cases h' <;> grind
  | unknown hfind => cases h' <;> grind [contains]
  | cascade hfind hsteps =>
      cases h' with
      | cascade _ hsteps' => exact hsteps.unique hsteps'
      | _ => grind [contains]

theorem Valid.leaves_ok (h : r.Valid) (hvisit : ∀ g id, (visit g id).Perm (g.dependents id))
    (hrun : call.run r = .ok s) : call.Leaves visit r s none := by
  by_cases hcall : ∃ id, call = .unregister id true
  · obtain ⟨id, rfl⟩ := hcall
    obtain ⟨hcontains, hauto, -, rfl⟩ := h.unregister_ok_iff.mp hrun
    exact .cascade hcontains (h.cascade hvisit hauto)
  · exact .done (not_exists.mp hcall) hrun

theorem leaves_error {error : DeclarationError} (hrun : call.run r = .error error) :
    call.Leaves visit r r (some error) := by
  by_cases hcall : ∃ id, call = .unregister id true
  · obtain ⟨id, rfl⟩ := hcall
    simp only [RegistryCall.run, unregister] at hrun
    cases hfind : r.find? id with
    | none =>
        rw [hfind] at hrun
        obtain rfl := Except.error.inj hrun
        exact .unknown hfind
    | some ty =>
        simp only [hfind] at hrun
        cases hty : ty == .auto with
        | false => simp [hty] at hrun
        | true =>
            obtain rfl : DeclarationError.permanentType ty.name = error := by simpa [hty] using hrun
            exact .cascade (by rw [contains, hfind, Option.isSome_some]) (.permanent hfind hty)
  · exact .refused (not_exists.mp hcall) hrun

/-- What a call leaves behind is its result, or the registry as it was together with its error. -/
theorem Valid.leaves_iff (h : r.Valid) (hvisit : ∀ g id, (visit g id).Perm (g.dependents id)) :
    call.Leaves visit r s fault ↔
      call.run r = .ok s ∧ fault = none ∨ ∃ error, call.run r = .error error ∧ s = r ∧
        fault = some error := by
  constructor
  · intro hleaves
    cases hrun : call.run r with
    | ok t =>
        obtain ⟨rfl, rfl⟩ := leaves_unique hleaves (h.leaves_ok hvisit hrun)
        exact .inl ⟨rfl, rfl⟩
    | error error =>
        obtain ⟨rfl, rfl⟩ := leaves_unique hleaves (leaves_error hrun)
        exact .inr ⟨error, rfl, rfl, rfl⟩
  · rintro (⟨hrun, rfl⟩ | ⟨error, hrun, rfl, rfl⟩)
    · exact h.leaves_ok hvisit hrun
    · exact leaves_error hrun

theorem Reachable.valid (hvisit : ∀ g id, (visit g id).Perm (g.dependents id))
    (h : Reachable visit r) :
    r.Valid := by
  induction h with
  | base => exact valid_base
  | withBuiltins => exact valid_withBuiltins
  | call _ hcall ih =>
      rcases (ih.leaves_iff hvisit).mp hcall with ⟨hrun, -⟩ | ⟨_, -, rfl, -⟩
      · exact ih.run hrun
      · exact ih

/-- Every list of calls makes a history. -/
theorem Reachable.foldl (hvisit : ∀ g id, (visit g id).Perm (g.dependents id))
    (h : Reachable visit r) (calls : List RegistryCall) :
    Reachable visit (calls.foldl RegistryCall.after r) := by
  induction calls generalizing r with
  | nil => exact h
  | cons call calls ih =>
      apply ih
      rw [RegistryCall.after]
      cases hrun : call.run r with
      | ok s => exact .call h ((h.valid hvisit).leaves_ok hvisit hrun)
      | error error => exact .call h (leaves_error hrun)

/-- What the tables of a registry have to do with each other. -/
structure Consistent (r : Registry) : Prop where
  keys : ∀ id ty, r.find? id = some ty → id = Identity.ofName ty.name
  auto : r.find? (Identity.ofName "AUTO") = some .auto
  nodes : ∀ id, id ∈ r.graph.nodes ↔ r.contains id = true
  acyclic : r.graph.Acyclic

theorem Valid.consistent (h : r.Valid) : r.Consistent where
  keys := fun _ _ hfind => h.keys _ (h.find?_iff.mp hfind)
  auto := h.find?_iff.mpr h.auto
  nodes := fun _ => h.contains_iff.symm
  acyclic := h.ordered.acyclic

/-- A registered type other than `AUTO` can be removed with all from which it can be reached, and it
makes no difference in which order they are visited. -/
theorem Valid.unregister_cascade (h : r.Valid)
    (hvisit : ∀ g id, (visit g id).Perm (g.dependents id)) {id : Identity}
    (hid : r.contains id = true) (hauto : id ≠ Ty.auto.identity) :
    ∃ s, r.unregister id true = .ok s ∧ r.Without (fun a => r.graph.Reaches a id) s ∧
      ∀ t fault, (RegistryCall.unregister id true).Leaves visit r t fault ↔ t = s ∧
        fault = none := by
  have hrun : r.unregister id true = .ok (r.drop (r.graph.closure id)) :=
    h.unregister_ok_iff.mpr ⟨hid, hauto, Bool.noConfusion, rfl⟩
  refine ⟨_, hrun, ?_, fun t fault => ?_⟩
  · exact h.without_drop (h.not_mem_closure hauto) fun _ => DependencyGraph.mem_closure h.ordered
  · constructor
    · exact fun hleaves => leaves_unique hleaves (h.leaves_ok hvisit hrun)
    · rintro ⟨rfl, rfl⟩
      exact h.leaves_ok hvisit hrun

/-- It can be removed alone if nothing is built from it. -/
theorem Valid.unregister_alone (h : r.Valid) {id : Identity} (hid : r.contains id = true)
    (hauto : id ≠ Ty.auto.identity) :
    ((∃ s, r.unregister id false = .ok s) ↔ ∀ a, ¬ r.graph.Edge a id) ∧
      ∀ s, r.unregister id false = .ok s → r.Without (fun a => a = id) s := by
  constructor
  · constructor
    · rintro ⟨s, hrun⟩
      exact (h.unregister_ok_iff.mp hrun).2.2.1 rfl
    · exact fun hnone => ⟨_, h.unregister_ok_iff.mpr ⟨hid, hauto, fun _ => hnone, rfl⟩⟩
  · intro s hrun
    obtain ⟨-, -, -, rfl⟩ := h.unregister_ok_iff.mp hrun
    exact h.without_drop (by simpa using Ne.symm hauto) fun _ => List.mem_singleton

/-- A registry is consistent after every history. A registered type other than `AUTO` can then be
removed together with exactly those from which it can be reached, however they are visited, and it
can be removed alone if and only if nothing is built from it. A call that is refused changes
nothing. -/
theorem Reachable.removal_exact (hvisit : ∀ g id, (visit g id).Perm (g.dependents id))
    (h : Reachable visit r) :
    r.Consistent ∧
    (∀ id, r.contains id = true → id ≠ Identity.ofName "AUTO" →
      (∃ s, r.unregister id true = .ok s ∧ r.Without (fun a => r.graph.Reaches a id) s ∧
        ∀ t fault, (RegistryCall.unregister id true).Leaves visit r t fault ↔ t = s ∧
          fault = none) ∧
      ((∃ s, r.unregister id false = .ok s) ↔ ∀ a, ¬ r.graph.Edge a id) ∧
      ∀ s, r.unregister id false = .ok s → r.Without (fun a => a = id) s) ∧
    ∀ (call : RegistryCall) (s : Registry) (error : DeclarationError),
      call.Leaves visit r s (some error) ↔ call.run r = .error error ∧ s = r := by
  have hr := h.valid hvisit
  refine ⟨hr.consistent, fun id hid hauto => ?_, fun call s error => ?_⟩
  · exact ⟨hr.unregister_cascade hvisit hid hauto, hr.unregister_alone hid hauto⟩
  · rw [hr.leaves_iff hvisit]
    simp

/-- A harbour of berths, built from arrays of two lengths of the same type, and a refused
removal. -/
def harbour : Registry :=
  let berth := Ty.struct "BERTH" (.cons "depth" .int none .nil)
  let short := Ty.array berth 2
  let long := Ty.array berth 3
  [.register .int, .register berth, .registerArray berth 2, .registerArray berth 3,
    .register (.struct "HARBOUR" (.cons "east" short none (.cons "west" long none .nil))),
    .unregister berth.identity false].foldl RegistryCall.after base

/-- The harbour depends on berths in two ways, and on one of them after it is removed in the
other. -/
theorem removal_exact_harbour :
    let visit (g : DependencyGraph) (id : Identity) : List Identity := (g.dependents id).reverse
    let berth := Identity.ofName "BERTH"
    Reachable visit harbour ∧ harbour.size = 6 ∧ harbour.graph.edges.length = 5 ∧
    harbour.contains berth = true ∧ berth ≠ Identity.ofName "AUTO" ∧
    harbour.Consistent ∧
    (∃ s, harbour.unregister berth true = .ok s ∧
      harbour.Without (fun a => harbour.graph.Reaches a berth) s ∧
      ∀ t fault, (RegistryCall.unregister berth true).Leaves visit harbour t fault ↔ t = s ∧
        fault = none) ∧
    ∀ s, harbour.unregister berth false ≠ .ok s := by
  intro visit berth
  have hvisit (g : DependencyGraph) (id : Identity) : (visit g id).Perm (g.dependents id) :=
    List.reverse_perm _
  have hreach : Reachable visit harbour := Reachable.foldl hvisit .base _
  have hfacts : harbour.size = 6 ∧ harbour.graph.edges.length = 5 ∧ harbour.contains berth = true ∧
      berth ≠ Identity.ofName "AUTO" ∧
          (Identity.ofName "BERTH[2]", berth) ∈ harbour.graph.edges := by
    decide +kernel
  obtain ⟨hconsistent, hremoval, -⟩ := Reachable.removal_exact hvisit hreach
  obtain ⟨hcascade, halone, -⟩ := hremoval berth hfacts.2.2.1 hfacts.2.2.2.1
  refine ⟨hreach, hfacts.1, hfacts.2.1, hfacts.2.2.1, hfacts.2.2.2.1, hconsistent, hcascade,
    fun s hs => ?_⟩
  exact halone.mp ⟨s, hs⟩ _ hfacts.2.2.2.2

end Registry
end GameScript
