import Mathlib.Data.List.Sort
import GameScript.Proofs.ScriptTyping

/-!
# Evaluating the checker

The table of built-in types is sorted by identity. The kernel cannot run the sort that the table is
defined with, but the result of sorting by distinct keys does not depend on how it is done. With the
table given by insertion, checking a given script is a computation that the kernel can carry out.
-/
namespace GameScript

def Registry.entryLE (a b : Identity × Ty) : Prop := a.1.value ≤ b.1.value

instance : DecidableRel Registry.entryLE := fun a b =>
  inferInstanceAs (Decidable (a.1.value ≤ b.1.value))

instance : Std.Total Registry.entryLE := ⟨fun _ _ => Std.le_total⟩

instance : IsTrans (Identity × Ty) Registry.entryLE := ⟨fun _ _ _ => UInt32.le_trans⟩

def Registry.isNameable (e : Identity × Ty) : Bool :=
  match e.2 with
  | .array _ _ | .function _ _ | .typeName _ => false
  | _ => true

theorem Registry.nameable_eq {r : Registry} (h : (r.entries.map Prod.fst).Nodup) :
    r.nameable = (r.entries.filter isNameable).insertionSort entryLE := by
  have hmerge : r.nameable.Perm (r.entries.filter isNameable) := List.mergeSort_perm _ _
  have hinsert := List.perm_insertionSort entryLE (r.entries.filter isNameable)
  have hsorted : r.nameable.Pairwise fun a b => decide (a.1.value ≤ b.1.value) = true := by
    apply List.pairwise_mergeSort
    · intro a b c hab hbc
      exact decide_eq_true (UInt32.le_trans (of_decide_eq_true hab) (of_decide_eq_true hbc))
    · intro a b
      rw [Bool.or_eq_true, decide_eq_true_iff, decide_eq_true_iff]
      exact Std.le_total
  refine List.Perm.eq_of_pairwise (fun a b ha hb hab hba => ?_)
    (hsorted.imp of_decide_eq_true) (List.pairwise_insertionSort entryLE _)
    (hmerge.trans hinsert.symm)
  have hkey : a.1 = b.1 := congrArg Identity.mk (UInt32.le_antisymm hab hba)
  exact List.inj_on_of_nodup_map h (List.mem_of_mem_filter (hmerge.mem_iff.mp ha))
    (List.mem_of_mem_filter (hinsert.mem_iff.mp hb)) hkey

/-- The table of built-in types, sorted by insertion. -/
def builtinTable : GlobalTable :=
  ⟨((Registry.withBuiltins.entries.filter Registry.isNameable).insertionSort Registry.entryLE).map
    fun e => (e.1, Symbol.ofType e.2)⟩

theorem ofRegistry_withBuiltins : GlobalTable.ofRegistry Registry.withBuiltins = builtinTable := by
  have hkeys : (Registry.withBuiltins.entries.map Prod.fst).Nodup := by decide +kernel
  rw [GlobalTable.ofRegistry, Registry.nameable_eq hkeys, builtinTable]

def checkFrom (symbols : GlobalTable) (script : Script) : CheckResult :=
  let first := declareScript script { registry := Registry.withBuiltins, symbols := symbols }
  let second := checkBodies first.1 first.2.symbols ⟨first.2.registry, first.2.diagnostics⟩
  ⟨⟨second.2.registry, first.2.symbols, second.1.1, second.1.2.1, first.1.natives, second.1.2.2⟩,
    second.2.diagnostics⟩

theorem check_eq_checkFrom (script : Script) : check script = checkFrom builtinTable script := by
  rw [← ofRegistry_withBuiltins]
  rfl

end GameScript
