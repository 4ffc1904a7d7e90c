import GameScript.Proofs.DataContents
import GameScript.Proofs.EncodingErrors
import GameScript.Proofs.LabelKeys

/-!
# Assembling generated code

Generated code can be assembled unless it is too large: an operand may not fit its field, and a
label may stand too far away to be addressed. Every other error of the assembler is ruled out.
Mnemonics and operands are those of known instructions, no label is defined twice, and every label
and function that is referred to is defined by the time the references are resolved.
-/
namespace GameScript

/-! ## Instructions -/

namespace Encode

end Encode

open Lowering (codeLabels Linkable)

/-! ## Buffers -/

theorem Fixup.fill_unlessTooLarge (f : Fixup) (target : Nat) :
    UnlessTooLarge (f.fill target) fun _ => True := by
  unfold Fixup.fill
  split
  · exact .ite rfl
  · exact .ite rfl
  · exact .ite rfl

/-- The labels of a buffer are `keys`, and its references are to labels that are known. -/
structure CodeBuffer.Defines (known : String → Prop) (keys : List String) (b : CodeBuffer) :
    Prop where
  labels : b.labels.map Prod.fst = keys
  refs : ∀ f ∈ b.recent, known f.key

namespace CodeBuffer

variable {known : String → Prop} {keys : List String} {b : CodeBuffer}

theorem defines_empty : Defines known [] {} := ⟨rfl, fun _ hf => absurd hf List.not_mem_nil⟩

/-- A key can be defined unless it is defined already. -/
theorem Defines.define (h : b.Defines known keys) (key : String) :
    Ends (fun e : EncodingError => e.isDuplicateLabel = true ∧ key ∈ keys) (b.define key)
      (Defines known (keys ++ [key])) := by
  rw [CodeBuffer.define, defineAt]
  cases hfound : b.address? key with
  | none =>
      refine .ok ⟨?_, h.refs⟩
      rw [List.map_append, h.labels]
      rfl
  | some ip =>
      have hmem : key ∈ b.labels.map Prod.fst :=
        List.mem_map_of_mem (f := Prod.fst) (mem_of_lookup hfound)
      exact .error ⟨rfl, h.labels ▸ hmem⟩

theorem Defines.write (h : b.Defines known keys) (bytes : Bytes) :
    (b.write bytes).Defines known keys :=
  ⟨h.labels, h.refs⟩

theorem Defines.writePieces (h : b.Defines known keys) {pieces : List Piece}
    (hpieces : RefersTo known pieces) : (b.writePieces pieces).Defines known keys := by
  induction pieces generalizing b with
  | nil => exact h
  | cons piece pieces ih =>
      have hrest : RefersTo known pieces := fun key name hmem =>
        hpieces key name (List.mem_cons_of_mem _ hmem)
      cases piece with
      | bytes value => exact ih (h.write value) hrest
      | address key name =>
          refine ih (b := b.writeRef key name .absolute32) ⟨h.labels, ?_⟩ hrest
          exact List.forall_mem_cons.mpr ⟨hpieces key name List.mem_cons_self, h.refs⟩

theorem forall_mem_closeAll {ip : Nat} {fixups : List Fixup} (h : ∀ f ∈ fixups, known f.key) :
    ∀ f ∈ closeAll ip fixups, known f.key := by
  induction fixups with
  | nil => exact h
  | cons f fixups ih =>
      rw [List.forall_mem_cons] at h
      rw [closeAll]
      split
      · exact List.forall_mem_cons.mpr h
      · exact List.forall_mem_cons.mpr ⟨h.1, ih h.2⟩

theorem Defines.endInstruction (h : b.Defines known keys) : b.endInstruction.Defines known keys :=
  ⟨h.labels, forall_mem_closeAll h.refs⟩

/-- References to defined labels can be resolved. -/
theorem Defines.resolve (h : b.Defines (· ∈ keys) keys) :
    UnlessTooLarge b.resolve fun _ => True := by
  refine Ends.foldlM (I := fun _ _ => True) b.fixups trivial fun before f after code hf _ => ?_
  have hmem : f ∈ b.fixups := hf ▸ List.mem_append_right before List.mem_cons_self
  cases haddress : b.address? f.key with
  | none =>
      exact absurd (h.labels ▸ h.refs f (List.mem_reverse.mp hmem))
        (not_mem_keys_of_lookup haddress)
  | some target =>
      exact (f.fill_unlessTooLarge target).map fun _ h => h

end CodeBuffer

/-! ## Functions -/

/-- The frame opening and the statements of a function are encoded with references to known labels,
or fail with an error in `E`. -/
structure FunctionDef.Encodes (E : EncodingError → Prop) (known : String → Prop) (withNames : Bool)
    (f : FunctionDef) : Prop where
  opening : Ends E (Assemble.prologue f withNames) fun _ => True
  body : ∀ s ∈ f.body, ∀ mnemonic ∈ s.mnemonic,
    Ends E (Encode.instruction (referenceKey f.name (ownLabels f.body)) mnemonic s.operands)
      (RefersTo known)

namespace Assemble

variable {E : EncodingError → Prop} {known : String → Prop} {keys : List String} {b : CodeBuffer}

/-- An error in `E`, or a label that is defined twice because keys are not distinct. -/
def ErrorOrClash (E : EncodingError → Prop) (keys : List String) (e : EncodingError) : Prop :=
  E e ∨ e.isDuplicateLabel = true ∧ ¬ keys.Nodup

theorem ErrorOrClash.append {more : List String} {e : EncodingError} (h : ErrorOrClash E keys e) :
    ErrorOrClash E (keys ++ more) e :=
  h.imp_right fun hclash => ⟨hclash.1, fun hnodup => hclash.2 (List.nodup_append.mp hnodup).1⟩

theorem ErrorOrClash.of_mem {key : String} {e : EncodingError}
    (he : e.isDuplicateLabel = true ∧ key ∈ keys) :
    ErrorOrClash E (keys ++ [key]) e :=
  .inr ⟨he.1, fun hnodup => (List.nodup_append.mp hnodup).2.2 _ he.2 _ List.mem_cons_self rfl⟩

theorem statement_ends {function : String} {own : List String} {s : Statement}
    (hs : ∀ mnemonic ∈ s.mnemonic,
      Ends E (Encode.instruction (referenceKey function own) mnemonic s.operands) (RefersTo known))
    (hb : b.Defines known keys) :
    Ends (ErrorOrClash E (keys ++ (codeLabels [s]).map (labelKey function)))
      (statement function own b s)
      (CodeBuffer.Defines known (keys ++ (codeLabels [s]).map (labelKey function))) := by
  have hcode {marked : CodeBuffer} {keys : List String} (hmarked : marked.Defines known keys) :
      Ends (ErrorOrClash E keys) (statement function own marked { s with label := none })
        (CodeBuffer.Defines known keys) := by
    cases hm : s.mnemonic with
    | none =>
        simp only [statement]
        exact .ok hmarked
    | some mnemonic =>
        simp only [statement]
        refine ((hs mnemonic hm).mono fun _ => .inl).bind fun pieces hpieces => ?_
        exact .ok (hmarked.writePieces hpieces).endInstruction
  cases hlabel : s.label with
  | none =>
      have hlabels : codeLabels [s] = [] := by
        rw [codeLabels, List.filterMap_cons, hlabel, List.filterMap_nil]
      rw [hlabels, List.map_nil, List.append_nil]
      simp only [statement, hlabel]
      exact hcode hb
  | some label =>
      have hlabels : codeLabels [s] = [label] := by
        rw [codeLabels, List.filterMap_cons, hlabel, List.filterMap_nil]
      rw [hlabels, List.map_singleton]
      rcases hb.define (labelKey function label) with ⟨marked, hdefine, hmarked⟩ | ⟨e, hdefine, he⟩
      · simp only [statement, hlabel, hdefine]
        exact hcode hmarked
      · simp only [statement, hlabel, hdefine]
        exact .error (.of_mem ⟨rfl, he.2⟩)

theorem function_ends {f : FunctionDef} {withNames : Bool} (hf : f.Encodes E known withNames)
    (hb : b.Defines known keys) :
    Ends (ErrorOrClash E (keys ++ f.keys)) (function withNames b f)
      (CodeBuffer.Defines known (keys ++ f.keys)) := by
  have hkeysEq : keys ++ f.keys = (keys ++ [functionKey f.name]) ++
      (codeLabels f.body).map (labelKey f.name) := List.append_cons _ _ _
  rw [hkeysEq]
  refine ((hb.define (functionKey f.name)).mono fun _ he => (ErrorOrClash.of_mem he).append).bind
    fun b' hb' => ?_
  refine (hf.opening.mono fun _ => .inl).bind fun opening _ => ?_
  have hopened := (hb'.write opening).endInstruction
  refine Ends.foldlM
    (I := fun before => CodeBuffer.Defines known
      ((keys ++ [functionKey f.name]) ++ (codeLabels before).map (labelKey f.name)))
    f.body ?_ fun before s after b hbody hb => ?_
  · rw [Lowering.codeLabels_nil, List.map_nil, List.append_nil]
    exact hopened
  · have hs : s ∈ f.body := hbody ▸ List.mem_append_right before List.mem_cons_self
    have hlabels : (codeLabels f.body).map (labelKey f.name) =
        (codeLabels before).map (labelKey f.name) ++
        (codeLabels [s]).map (labelKey f.name) ++ (codeLabels after).map (labelKey f.name) := by
      rw [hbody, ← List.singleton_append, Lowering.codeLabels_append, Lowering.codeLabels_append,
        List.map_append, List.map_append, List.append_assoc]
    rw [Lowering.codeLabels_append, List.map_append, ← List.append_assoc, hlabels,
      ← List.append_assoc, ← List.append_assoc]
    exact (statement_ends (hf.body s hs) hb).mono fun _ => .append

/-- Functions are written one after the other, unless one of them cannot be encoded or a key is
defined twice. -/
theorem functions_ends_orClash {fs : List FunctionDef} {withNames : Bool}
    (hfs : ∀ f ∈ fs, f.Encodes E known withNames) (hb : b.Defines known keys) :
    Ends (ErrorOrClash E (keys ++ fs.flatMap FunctionDef.keys)) (functions withNames b fs) fun r =>
      r.1.Defines known (keys ++ fs.flatMap FunctionDef.keys) := by
  induction fs generalizing b keys with
  | nil =>
      rw [List.flatMap_nil, List.append_nil]
      exact .ok hb
  | cons f fs ih =>
      rw [List.flatMap_cons, ← List.append_assoc]
      rw [List.forall_mem_cons] at hfs
      rw [functions]
      refine ((function_ends hfs.1 hb).mono fun _ => .append).bind fun b' hb' => ?_
      exact (ih hfs.2 hb').bind fun r hr => .ok hr

theorem functions_ends {fs : List FunctionDef} {withNames : Bool}
    (hfs : ∀ f ∈ fs, f.Encodes E known withNames) (hb : b.Defines known keys)
    (hfree : (keys ++ fs.flatMap FunctionDef.keys).Nodup) :
    Ends E (functions withNames b fs) fun r =>
      r.1.Defines known (keys ++ fs.flatMap FunctionDef.keys) :=
  (functions_ends_orClash hfs hb).mono fun _ he => he.resolve_right fun hclash => hclash.2 hfree

theorem prologue_unlessTooLarge (f : FunctionDef) (withName : Bool) :
    UnlessTooLarge (prologue f withName) fun _ => True := by
  unfold prologue
  split
  · exact .ok trivial
  · exact (Encode.byteOf_unlessTooLarge _ _).bind fun _ _ =>
      (Encode.halfOf_unlessTooLarge _ _).bind fun _ _ => .ok trivial

theorem ownLabels_eq (code : List Statement) : ownLabels code = (codeLabels code).map foldName := by
  rw [ownLabels, codeLabels, List.map_filterMap]

end Assemble

/-! ## Scripts -/

theorem perm_set {α : Type} {xs : List α} {i : Nat} {x : α} (h : xs[i]? = some x) (a : α) :
    (x :: xs.set i a).Perm (a :: xs) := by
  induction xs generalizing i with
  | nil => cases h
  | cons y xs ih =>
      cases i with
      | zero =>
          obtain rfl := Option.some.inj h
          exact .swap a y xs
      | succ i => exact ((List.Perm.swap y x _).trans ((ih h).cons y)).trans (.swap a y xs)

theorem perm_orderFunctions (fs : List FunctionDef) : (orderFunctions fs).Perm fs := by
  unfold orderFunctions
  split
  · split
    next hentry => exact perm_set hentry _
    next => exact .refl _
  · exact .refl _

end GameScript
