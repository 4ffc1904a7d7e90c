import Mathlib.Data.List.Nodup
import Mathlib.Data.List.Pairwise
import GameScript.Code.Encode
import GameScript.Proofs.GeneratedProgram

/-!
# Keys of the label table

All functions and labels share one table, in which a label stands under the name of its function, a
full stop and its own name. Functions that can be told apart, with labels that can be told apart
inside each, are not enough to keep these keys apart: names are arbitrary texts, so a function can
have a name that looks like the key of a label of another. Two keys are the same exactly if one
function's label continues its name to the name of another function, or to the name of one of its
labels. That needs a full stop in the name of a function.
-/
namespace GameScript

open Lowering (codeLabels)

/-! ## Texts joined by a full stop -/

theorem toList_append_stop (a b : String) :
    (a ++ "." ++ b).toList = a.toList ++ '.' :: b.toList := by
  rw [String.toList_append, String.toList_append, List.append_assoc]
  rfl

theorem eq_append_stop {a b : String} {rest : List Char} (h : a.toList = b.toList ++ '.' :: rest) :
    a = b ++ "." ++ String.ofList rest := by
  rw [← String.toList_inj, toList_append_stop, String.toList_ofList, h]

/-- Texts that are joined by a full stop are divided in the same place, or one of the first parts is
longer and ends in what the other second part begins with. -/
theorem append_stop_cases {a b c d : String} (h : a ++ "." ++ b = c ++ "." ++ d) :
    a = c ∨ (∃ rest, c = a ++ "." ++ rest ∧ b = rest ++ "." ++ d) ∨
      ∃ rest, a = c ++ "." ++ rest ∧ d = rest ++ "." ++ b := by
  have hlist := congrArg String.toList h
  rw [toList_append_stop, toList_append_stop] at hlist
  -- What one first part has more than the other is empty or begins with the full stop of the other.
  have hmore {a b c d : String} {more : List Char} (hc : c.toList = a.toList ++ more)
      (hb : '.' :: b.toList = more ++ '.' :: d.toList) :
      a = c ∨ ∃ rest, c = a ++ "." ++ rest ∧ b = rest ++ "." ++ d := by
    cases more with
    | nil => exact .inl (String.toList_inj.mp (hc.trans (List.append_nil _)).symm)
    | cons x rest =>
        obtain ⟨rfl, hrest⟩ := List.cons.inj hb
        refine .inr ⟨String.ofList rest, eq_append_stop hc, ?_⟩
        rw [← String.toList_inj, toList_append_stop, String.toList_ofList]
        exact hrest
  rcases List.append_eq_append_iff.mp hlist with ⟨more, hc, hb⟩ | ⟨more, ha, hd⟩
  · exact (hmore hc hb).imp_right .inl
  · exact (hmore ha hd).imp Eq.symm .inr

/-! ## Keys of one function -/

def FunctionDef.keys (f : FunctionDef) : List String :=
  functionKey f.name :: (codeLabels f.body).map (labelKey f.name)

theorem toList_labelKey (function label : String) :
    (labelKey function label).toList =
      (foldName function).toList ++ '.' :: (foldName label).toList := by
  rw [labelKey, toList_append_stop]

/-- A label's key is longer than the key of its function. -/
theorem functionKey_ne_labelKey (name label : String) : functionKey name ≠ labelKey name label := by
  intro h
  have hlist := congrArg (List.length ∘ String.toList) h
  simp only [Function.comp_apply, toList_labelKey, List.length_append, List.length_cons,
    functionKey] at hlist
  omega

theorem labelKey_ne {function a b : String} (h : foldName a ≠ foldName b) :
    labelKey function a ≠ labelKey function b := by
  intro heq
  have hlist := congrArg String.toList heq
  rw [toList_labelKey, toList_labelKey] at hlist
  have hcons := List.append_cancel_left hlist
  exact h (String.toList_inj.mp (List.cons.inj hcons).2)

theorem FunctionDef.mem_keys {f : FunctionDef} {key : String} :
    key ∈ f.keys ↔ key = functionKey f.name ∨ ∃ label ∈ codeLabels f.body,
      key = labelKey f.name label := by
  rw [keys, List.mem_cons, List.mem_map]
  simp only [eq_comm]

theorem FunctionDef.nodup_keys {f : FunctionDef}
    (hlabels : ((codeLabels f.body).map foldName).Nodup) :
    f.keys.Nodup := by
  apply List.nodup_cons.mpr
  constructor
  · intro h
    obtain ⟨label, _, heq⟩ := List.mem_map.mp h
    exact functionKey_ne_labelKey f.name label heq.symm
  · exact List.pairwise_map.mpr ((List.pairwise_map.mp hlabels).imp labelKey_ne)

/-! ## Keys that are written alike -/

/-- A label of `f`, after the name of `f` and a full stop, spells the name of `g` or of a label of
`g` after it. -/
def FunctionDef.SpellsOut (f g : FunctionDef) : Prop :=
  ∃ rest, foldName g.name = foldName f.name ++ "." ++ rest ∧ ∃ label ∈ codeLabels f.body,
    foldName label = rest ∨ ∃ other ∈ codeLabels g.body,
      foldName label = rest ++ "." ++ foldName other

namespace FunctionDef

variable {f g : FunctionDef}

theorem SpellsOut.name_ne (h : f.SpellsOut g) : foldName f.name ≠ foldName g.name := by
  obtain ⟨rest, hname, -⟩ := h
  intro heq
  have hlength := congrArg String.length (heq.trans hname)
  simp only [String.length_append] at hlength
  have hstop : ".".length = 1 := rfl
  omega

theorem SpellsOut.stop_mem (h : f.SpellsOut g) : '.' ∈ g.name.toList := by
  obtain ⟨rest, hname, -⟩ := h
  refine mem_of_mem_foldName rfl ?_
  rw [hname, toList_append_stop]
  exact List.mem_append_right _ List.mem_cons_self

theorem SpellsOut.shares (h : f.SpellsOut g) : ∃ key, key ∈ f.keys ∧ key ∈ g.keys := by
  obtain ⟨rest, hname, label, hlabel, hrest⟩ := h
  refine ⟨labelKey f.name label, mem_keys.mpr (.inr ⟨label, hlabel, rfl⟩), mem_keys.mpr ?_⟩
  rcases hrest with rfl | ⟨other, hother, hrest⟩
  · exact .inl hname.symm
  · refine .inr ⟨other, hother, ?_⟩
    rw [labelKey, labelKey, hname, hrest]
    simp only [String.append_assoc]

/-- Different functions have a key in common only if one spells out the other. -/
theorem spellsOut_of_shares (hne : foldName f.name ≠ foldName g.name) {key : String}
    (hf : key ∈ f.keys) (hg : key ∈ g.keys) : f.SpellsOut g ∨ g.SpellsOut f := by
  rcases mem_keys.mp hf with rfl | ⟨label, hlabel, rfl⟩ <;>
    rcases mem_keys.mp hg with heq | ⟨other, hother, heq⟩
  · exact absurd heq hne
  · exact .inr ⟨foldName other, heq, other, hother, .inl rfl⟩
  · exact .inl ⟨foldName label, heq.symm, label, hlabel, .inl rfl⟩
  · rcases append_stop_cases heq with hsame | ⟨rest, hname, hrest⟩ | ⟨rest, hname, hrest⟩
    · exact absurd hsame hne
    · exact .inl ⟨rest, hname, label, hlabel, .inr ⟨other, hother, hrest⟩⟩
    · exact .inr ⟨rest, hname, other, hother, .inr ⟨label, hlabel, hrest⟩⟩

end FunctionDef

/-- Keys are defined once exactly if no function spells out another. -/
theorem nodup_keys_iff {fs : List FunctionDef} (hdistinct : (fs.map fun f => foldName f.name).Nodup)
    (hlabels : ∀ f ∈ fs, ((codeLabels f.body).map foldName).Nodup) :
    (fs.flatMap FunctionDef.keys).Nodup ↔ ∀ f ∈ fs, ∀ g ∈ fs, ¬ f.SpellsOut g := by
  rw [List.nodup_flatMap]
  constructor
  · rintro ⟨-, hdisjoint⟩ f hf g hg hspells
    obtain ⟨key, hkey, hkey'⟩ := hspells.shares
    have hne : f ≠ g := fun heq => hspells.name_ne (heq ▸ rfl)
    have hsymm : Std.Symm (Function.onFun List.Disjoint FunctionDef.keys) :=
      ⟨fun _ _ h _ hkey hkey' => h hkey' hkey⟩
    exact hdisjoint.forall hf hg hne hkey hkey'
  · intro hspells
    refine ⟨fun f hf => f.nodup_keys (hlabels f hf), ?_⟩
    refine (List.pairwise_map.mp hdistinct).imp_of_mem fun {f g} hf hg hne key hkey hkey' => ?_
    rcases FunctionDef.spellsOut_of_shares hne hkey hkey' with h | h
    · exact hspells f hf g hg h
    · exact hspells g hg f hf h

/-- No key is defined twice in a script whose functions can be told apart and have no full stop in
their names. -/
theorem nodup_flatMap_keys {fs : List FunctionDef} (hnames : ∀ f ∈ fs, '.' ∉ f.name.toList)
    (hlabels : ∀ f ∈ fs, ((codeLabels f.body).map foldName).Nodup)
    (hdistinct : (fs.map fun f => foldName f.name).Nodup) : (fs.flatMap FunctionDef.keys).Nodup :=
  (nodup_keys_iff hdistinct hlabels).mpr fun _ _ g hg hspells => hnames g hg hspells.stop_mem

end GameScript
