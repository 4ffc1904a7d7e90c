import Mathlib.Data.List.Nodup
import Mathlib.Logic.Relation
import GameScript.Type.Registry

/-!
# Reachability in dependency graphs

The search for everything that is built from a node finds exactly the nodes from which it can be
reached: each round adds a node, so there are enough rounds. No cycle is looked for anywhere. That
there is none follows from an order: nodes are listed so that every edge leads to an earlier one,
and taking nodes out keeps the order of the others. Where the order comes from is not discussed
here.
-/
namespace GameScript
namespace DependencyGraph

variable {g : DependencyGraph} {a b id : Identity} {ids : List Identity}

def Edge (g : DependencyGraph) (a b : Identity) : Prop := (a, b) ∈ g.edges

/-- `a` is `b` or is built from it, directly or through others. -/
def Reaches (g : DependencyGraph) : Identity → Identity → Prop := Relation.ReflTransGen g.Edge

def Acyclic (g : DependencyGraph) : Prop := ∀ id, ¬ Relation.TransGen g.Edge id id

/-- Nodes are listed once, and every edge leads to a node before the one it starts from. -/
structure Ordered (g : DependencyGraph) : Prop where
  nodup : g.nodes.Nodup
  edges : ∀ a b, g.Edge a b → [b, a].Sublist g.nodes

theorem mem_dependents : a ∈ g.dependents id ↔ g.Edge a id := by
  simp [dependents, Edge]

/-! ## The order of nodes -/

theorem idxOf_lt_of_sublist {xs : List Identity} (hnodup : xs.Nodup) (h : [b, a].Sublist xs) :
    xs.idxOf b < xs.idxOf a := by
  obtain ⟨front, back, rfl, hb, ha⟩ := List.cons_sublist_iff.mp h
  have hback : a ∈ back := List.singleton_sublist.mp ha
  have hfront : a ∉ front := fun hmem => (List.nodup_append.mp hnodup).2.2 a hmem a hback rfl
  rw [List.idxOf_append_of_mem hb, List.idxOf_append_of_notMem hfront]
  exact Nat.lt_add_right _ (List.idxOf_lt_length_of_mem hb)

namespace Ordered

theorem source_mem (h : g.Ordered) (he : g.Edge a b) : a ∈ g.nodes :=
  (h.edges a b he).subset (by simp)

theorem target_mem (h : g.Ordered) (he : g.Edge a b) : b ∈ g.nodes :=
  (h.edges a b he).subset (by simp)

theorem idxOf_lt (h : g.Ordered) (he : g.Edge a b) : g.nodes.idxOf b < g.nodes.idxOf a :=
  idxOf_lt_of_sublist h.nodup (h.edges a b he)

/-- A path only goes back in the list, so it never returns. -/
theorem acyclic (h : g.Ordered) : g.Acyclic := by
  intro id hpath
  have hlt {a b : Identity} (hab : Relation.TransGen g.Edge a b) :
      g.nodes.idxOf b < g.nodes.idxOf a := by
    induction hab with
    | single he => exact h.idxOf_lt he
    | tail _ he ih => exact Nat.lt_trans (h.idxOf_lt he) ih
  exact Nat.lt_irrefl _ (hlt hpath)

end Ordered

/-! ## The search -/

theorem mem_fringe : a ∈ g.fringe ids ↔ a ∈ g.nodes ∧ a ∉ ids ∧ ∃ b ∈ ids, g.Edge a b := by
  simp only [fringe, List.mem_filter, Bool.and_eq_true, Bool.not_eq_true', List.any_eq_true,
    beq_iff_eq, List.contains_eq_mem, decide_eq_false_iff_not, decide_eq_true_eq, Edge]
  constructor
  · rintro ⟨hnode, hnew, ⟨a', b⟩, hedge, rfl, hb⟩
    exact ⟨hnode, hnew, b, hb, hedge⟩
  · rintro ⟨hnode, hnew, b, hb, hedge⟩
    exact ⟨hnode, hnew, (a, b), hedge, rfl, hb⟩

theorem subset_grow (steps : Nat) : ids ⊆ g.grow steps ids := by
  induction steps generalizing ids with
  | zero => exact List.Subset.refl ids
  | succ steps ih =>
      rw [grow]
      split
      · exact List.Subset.refl ids
      · exact List.Subset.trans (List.subset_append_left ids _) ih

/-- Whatever the search finds leads to where it started. -/
theorem reaches_of_mem_grow {steps : Nat} (hids : ∀ x ∈ ids, g.Reaches x id) :
    ∀ x ∈ g.grow steps ids, g.Reaches x id := by
  induction steps generalizing ids with
  | zero => exact hids
  | succ steps ih =>
      rw [grow]
      split
      · exact hids
      · next hfringe =>
          apply ih
          rw [List.forall_mem_append]
          refine ⟨hids, fun x hx => ?_⟩
          obtain ⟨-, -, y, hy, hedge⟩ := mem_fringe.mp hx
          exact .head hedge (hids y hy)

/-- The search ends with an empty fringe if it has a round for each node that is not found yet. -/
theorem fringe_grow {steps : Nat} (h : (g.nodes.filter (· ∉ ids)).length ≤ steps) :
    g.fringe (g.grow steps ids) = [] := by
  induction steps generalizing ids with
  | zero =>
      apply List.eq_nil_iff_forall_not_mem.mpr
      intro x hx
      obtain ⟨hnode, hnew, -⟩ := mem_fringe.mp hx
      have hleft : x ∈ g.nodes.filter (· ∉ ids) := List.mem_filter.mpr ⟨hnode, decide_eq_true hnew⟩
      rw [List.eq_nil_of_length_eq_zero (Nat.le_zero.mp h)] at hleft
      cases hleft
  | succ steps ih =>
      rw [grow]
      split
      · next hempty => exact hempty
      · next hfringe =>
          obtain ⟨x, hx⟩ := List.exists_mem_of_ne_nil _ hfringe
          obtain ⟨hnode, hnew, -⟩ := mem_fringe.mp hx
          apply ih
          -- What is left after this round is what was left before, without the fringe.
          have hsplit : g.nodes.filter (· ∉ ids ++ g.fringe ids) =
              (g.nodes.filter (· ∉ ids)).filter (· ∉ g.fringe ids) := by
            rw [List.filter_filter]
            congr 1
            funext y
            simp [Bool.and_comm]
          have hfewer : ((g.nodes.filter (· ∉ ids)).filter (· ∉ g.fringe ids)).length <
              (g.nodes.filter (· ∉ ids)).length := by
            rw [List.length_filter_lt_length_iff_exists]
            exact ⟨x, List.mem_filter.mpr ⟨hnode, decide_eq_true hnew⟩, by simpa using hx⟩
          rw [hsplit]
          omega

/-- The search finds exactly the nodes from which its start can be reached. -/
theorem mem_closure (h : g.Ordered) : a ∈ g.closure id ↔ g.Reaches a id := by
  constructor
  · exact reaches_of_mem_grow (fun x hx => List.mem_singleton.mp hx ▸ .refl) a
  · intro hpath
    have hend : g.fringe (g.closure id) = [] := fringe_grow (List.length_filter_le _ _)
    induction hpath using Relation.ReflTransGen.head_induction_on with
    | refl => exact subset_grow _ List.mem_cons_self
    | @head x y hedge _ ih =>
        by_contra hnot
        have hx : x ∈ g.fringe (g.closure id) :=
          mem_fringe.mpr ⟨h.source_mem hedge, hnot, y, ih, hedge⟩
        rw [hend] at hx
        cases hx

/-! ## Taking nodes out -/

theorem mem_nodes_removeNodes : a ∈ (g.removeNodes ids).nodes ↔ a ∈ g.nodes ∧ a ∉ ids := by
  simp [removeNodes]

theorem edge_removeNodes : (g.removeNodes ids).Edge a b ↔ g.Edge a b ∧ a ∉ ids ∧ b ∉ ids := by
  simp [removeNodes, Edge]

theorem Ordered.removeNodes (h : g.Ordered) (ids : List Identity) :
    (g.removeNodes ids).Ordered := by
  refine ⟨h.nodup.filter _, fun a b he => ?_⟩
  obtain ⟨he, ha, hb⟩ := edge_removeNodes.mp he
  have hsublist := (h.edges a b he).filter (fun n => !ids.contains n)
  simpa [DependencyGraph.removeNodes, ha, hb] using hsublist

/-- What does not lead into the nodes that are taken out leads where it led before. -/
theorem reaches_removeNodes (hids : ∀ x y, y ∈ ids → g.Reaches x y → x ∈ ids) (ha : a ∉ ids) :
    (g.removeNodes ids).Reaches a b ↔ g.Reaches a b := by
  constructor
  · intro hpath
    induction hpath with
    | refl => exact .refl
    | tail _ hedge ih => exact .tail ih (edge_removeNodes.mp hedge).1
  · intro hpath
    induction hpath using Relation.ReflTransGen.head_induction_on with
    | refl => exact .refl
    | @head x y hedge _ ih =>
        have hy : y ∉ ids := fun hmem => ha (hids x y hmem (.single hedge))
        exact .head (edge_removeNodes.mpr ⟨hedge, ha, hy⟩) (ih hy)

end DependencyGraph
end GameScript
