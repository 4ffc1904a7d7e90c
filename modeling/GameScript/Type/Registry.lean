import GameScript.Type.Compatible

/-!
# The type registry

A registry holds one instance of every type a script uses, under the identity of its name. Types
built from other registered types depend on them; these dependencies form a directed graph from
the dependent type to what it is built from. A type that others depend on is removed only together
with all of them.
-/
namespace GameScript

/-- A directed graph on identities. An edge `(a, b)` says that `a` is built from `b`. -/
structure DependencyGraph where
  nodes : List Identity := []
  edges : List (Identity × Identity) := []
deriving DecidableEq, Repr

namespace DependencyGraph

def addNode (g : DependencyGraph) (id : Identity) : DependencyGraph :=
  if g.nodes.contains id then g else { g with nodes := g.nodes ++ [id] }

def addEdge (g : DependencyGraph) (source target : Identity) : DependencyGraph :=
  if g.edges.contains (source, target) then g
  else { g with edges := g.edges ++ [(source, target)] }

/-- Remove nodes with every edge that touches one of them. -/
def removeNodes (g : DependencyGraph) (ids : List Identity) : DependencyGraph :=
  { nodes := g.nodes.filter fun n => !ids.contains n
    edges := g.edges.filter fun e => !ids.contains e.1 && !ids.contains e.2 }

def dependents (g : DependencyGraph) (id : Identity) : List Identity :=
  (g.edges.filter fun e => e.2 == id).map Prod.fst

/-- The nodes outside `found` with an edge into it. -/
def fringe (g : DependencyGraph) (found : List Identity) : List Identity :=
  g.nodes.filter fun n => !found.contains n && g.edges.any fun e => e.1 == n && found.contains e.2

/-- Add the fringe at most `steps` times, or until there is none. -/
def grow (g : DependencyGraph) : Nat → List Identity → List Identity
  | 0, found => found
  | steps + 1, found =>
    match g.fringe found with
    | [] => found
    | new => grow g steps (found ++ new)

/-- Everything from which `id` can be reached, `id` itself included. Each step of the search adds a
node, so there are at most as many steps as nodes. -/
def closure (g : DependencyGraph) (id : Identity) : List Identity :=
  g.grow g.nodes.length [id]

end DependencyGraph

/-- Types by identity, with the graph of their dependencies. -/
structure Registry where
  entries : List (Identity × Ty) := []
  graph : DependencyGraph := {}

namespace Registry

def find? (r : Registry) (id : Identity) : Option Ty := r.entries.lookup id

def findName? (r : Registry) (name : String) : Option Ty := r.find? (Identity.ofName name)

def contains (r : Registry) (id : Identity) : Bool := (r.find? id).isSome

def size (r : Registry) : Nat := r.entries.length

/-- Store a type under a fresh identity, without dependencies. -/
def seed (r : Registry) (ty : Ty) : Registry :=
  { entries := r.entries ++ [(ty.identity, ty)], graph := r.graph.addNode ty.identity }

/-- The registry that holds only `AUTO`. -/
def base : Registry := seed {} .auto

def withBuiltins : Registry := Ty.builtins.foldl seed base

/-- The error for a second declaration under an identity that is taken: the same name again, or
another name with the same hash. -/
def clash (name existing : String) (id : Identity) : DeclarationError :=
  if sameName existing name then .duplicateIdentity name else .hashCollision name existing id

/-- Edges from `id` to the registered types among `children`. -/
def link (r : Registry) (id : Identity) (children : List Ty) : DependencyGraph :=
  children.foldl (fun g child =>
    if child.identity != id && r.contains child.identity then g.addEdge id child.identity else g)
    (r.graph.addNode id)

/-- Register a type, or give back the instance of an equal type registered before. -/
def register (r : Registry) (ty : Ty) : Except DeclarationError (Ty × Registry) :=
  let id := ty.identity
  match r.find? id with
  | some existing =>
    if existing == ty then .ok (existing, r) else .error (clash ty.name existing.name id)
  | none =>
    .ok (ty, { entries := r.entries ++ [(id, ty)], graph := r.link id ty.children })

def registerArray (r : Registry) (item : Ty) (length : UInt32) :
    Except DeclarationError (Ty × Registry) :=
  r.register (.array item length)

def drop (r : Registry) (ids : List Identity) : Registry :=
  { entries := r.entries.filter fun e => !ids.contains e.1, graph := r.graph.removeNodes ids }

/-- Remove a type. `AUTO` stays for ever, and a type that others are built from goes only with
`cascade`, and they go with it. -/
def unregister (r : Registry) (id : Identity) (cascade : Bool) :
    Except DeclarationError Registry :=
  match r.find? id with
  | none => .error (.unknownType id.text)
  | some ty =>
    if ty == .auto then .error (.permanentType ty.name)
    else if cascade then .ok (r.drop (r.graph.closure id))
    else
      match r.graph.dependents id with
      | [] => .ok (r.drop [id])
      | ids =>
        let names := ids.filterMap fun d => (r.find? d).map Ty.name
        .error (.hasDependents ty.name (names.mergeSort fun a b => !decide (b < a)))

/-- Names and sizes of all registered types, in ascending order. -/
def summary (r : Registry) : List (String × Nat) :=
  (r.entries.map fun e => (e.2.name, e.2.size)).mergeSort fun a b =>
    if a.1 == b.1 then decide (a.2 ≤ b.2) else !decide (b.1 < a.1)

/-- The types that a script can name, in the order of their identities. Arrays, signatures and types
of type names have no name of their own in a script. -/
def nameable (r : Registry) : List (Identity × Ty) :=
  (r.entries.filter fun e =>
    match e.2 with
    | .array _ _ | .function _ _ | .typeName _ => false
    | _ => true).mergeSort fun a b => decide (a.1.value ≤ b.1.value)

end Registry
end GameScript
