import GameScript.Proofs.InitialBytes
import GameScript.Proofs.LabelTable

/-!
# Labels that are reported as defined twice

A script whose functions can be told apart, with labels that can be told apart inside each function,
is refused for a label defined twice in one case only: some function spells out another, so that two
keys of the label table are the same. No other step gives this error. A script in which a function
spells out another is never assembled, and if nothing else is wrong with it, this is the error that
it gets.
-/
namespace GameScript

open Lowering (codeLabels)

/-! ## Errors of the other steps -/

abbrev NotDuplicate {α : Type} (x : Except EncodingError α) : Prop :=
  Ends (fun e : EncodingError => e.isDuplicateLabel = false) x fun _ => True

theorem EncodingError.isDuplicateLabel_of_isTooLarge {e : EncodingError} (h : e.isTooLarge = true) :
    e.isDuplicateLabel = false := by
  cases e <;> first | rfl | cases h

theorem UnlessTooLarge.notDuplicate {α : Type} {x : Except EncodingError α} {P : α → Prop}
    (h : UnlessTooLarge x P) : NotDuplicate x := by
  rcases h with ⟨a, rfl, -⟩ | ⟨e, rfl, he⟩
  · exact .ok trivial
  · exact .error (EncodingError.isDuplicateLabel_of_isTooLarge he)

theorem NotDuplicate.bind {α β : Type} {x : Except EncodingError α} {f : α → Except EncodingError β}
    (hx : NotDuplicate x) (hf : ∀ a, NotDuplicate (f a)) : NotDuplicate (x >>= f) :=
  Ends.bind hx fun a _ => hf a

theorem DataField.bytes_notDuplicate (f : DataField) : NotDuplicate f.bytes := by
  rcases Nat.lt_or_ge allocationLimit f.ty.size with hlarge | hlimit
  · rw [bytes_of_limit_lt hlarge]
    exact .error rfl
  · rcases bytes_cases hlimit with ⟨-, hbytes⟩ | ⟨n, -, hbytes⟩
    · rw [hbytes]
      exact .ok trivial
    · rw [hbytes]
      exact .error rfl

theorem regionsFrom_notDuplicate (next : Nat) (fields : List DataField) :
    NotDuplicate (regionsFrom next fields) := by
  induction fields generalizing next with
  | nil => exact .ok trivial
  | cons f fields ih => exact f.bytes_notDuplicate.bind fun bs => (ih _).bind fun _ => .ok trivial

theorem buildSegment_notDuplicate (fields : List DataField) : NotDuplicate (buildSegment fields) :=
  (regionsFrom_notDuplicate 0 (layoutOrder fields)).bind fun _ => .ok trivial

theorem CodeBuffer.resolve_notDuplicate (b : CodeBuffer) : NotDuplicate b.resolve := by
  refine Ends.foldlM (I := fun _ _ => True) b.fixups trivial fun _ f _ code _ _ => ?_
  cases b.address? f.key with
  | none => exact .error rfl
  | some target => exact (f.fill_unlessTooLarge target).notDuplicate.map fun _ h => h

/-! ## Scripts -/

/-- Whatever a function cannot be encoded for, it is not a label. -/
theorem FunctionDef.encodes_notDuplicate (f : FunctionDef) (withNames : Bool) :
    f.Encodes (fun e => e.isDuplicateLabel = false) (fun _ => True) withNames where
  opening := (Assemble.prologue_unlessTooLarge f withNames).notDuplicate
  body s _ mnemonic _ := Encode.instruction_notDuplicate _ mnemonic s.operands

section
variable {functions : List FunctionDef} {statics globals : List DataField} {withNames : Bool}

theorem nodup_keys_of_functions {fs : List FunctionDef} {r : CodeBuffer × List (String × Nat)}
    (h : Assemble.functions withNames {} fs = .ok r) : (fs.flatMap FunctionDef.keys).Nodup := by
  have hdistinct : r.1.Distinct := (Assemble.functions_relabels h).1.distinct List.nodup_nil
  have hends :=
    Assemble.functions_ends_orClash (fun f (_ : f ∈ fs) => f.encodes_notDuplicate withNames)
    CodeBuffer.defines_empty
  rcases hends with ⟨r', hr', hdefines⟩ | ⟨e, he, -⟩
  · obtain rfl := Except.ok.inj (h.symm.trans hr')
    rw [CodeBuffer.Distinct, hdefines.labels] at hdistinct
    exact hdistinct
  · cases h.symm.trans he

theorem assemble_notDuplicate (h : ((orderFunctions functions).flatMap FunctionDef.keys).Nodup) :
    NotDuplicate (assemble functions statics globals withNames) := by
  have hfunctions := Assemble.functions_ends
    (fun f (_ : f ∈ orderFunctions functions) => f.encodes_notDuplicate withNames)
      CodeBuffer.defines_empty h
  refine Ends.bind hfunctions fun r _ => ?_
  refine r.1.resolve_notDuplicate.bind fun code => ?_
  refine (buildSegment_notDuplicate statics).bind fun _ => ?_
  exact (buildSegment_notDuplicate globals).bind fun _ => .ok trivial

theorem nodup_ordered_keys_iff (hdistinct : (functions.map fun f => foldName f.name).Nodup)
    (hlabels : ∀ f ∈ functions, ((codeLabels f.body).map foldName).Nodup) :
    ((orderFunctions functions).flatMap FunctionDef.keys).Nodup ↔
      ∀ f ∈ functions, ∀ g ∈ functions, ¬ f.SpellsOut g := by
  rw [((perm_orderFunctions functions).flatMap_right FunctionDef.keys).nodup_iff]
  exact nodup_keys_iff hdistinct hlabels

theorem exists_duplicateLabel
    (hencodes : ∀ f ∈ functions, f.Encodes (fun _ => False) (fun _ => True) withNames)
    (h : ¬ ((orderFunctions functions).flatMap FunctionDef.keys).Nodup) :
    ∃ label, assemble functions statics globals withNames = .error (.duplicateLabel label) := by
  have hordered : ∀ f ∈ orderFunctions functions,
      f.Encodes (fun _ => False) (fun _ => True) withNames :=
    fun f hf => hencodes f ((perm_orderFunctions functions).mem_iff.mp hf)
  have hends := Assemble.functions_ends_orClash hordered CodeBuffer.defines_empty
  rcases hends with ⟨r, hr, -⟩ | ⟨e, he, hfalse | ⟨hduplicate, -⟩⟩
  · exact absurd (nodup_keys_of_functions hr) h
  · exact hfalse.elim
  · cases e with
    | duplicateLabel label => exact ⟨label, bind_eq_error.mpr (.inl he)⟩
    | _ => cases hduplicate

theorem NotDuplicate.ne {α : Type} {x : Except EncodingError α} (h : NotDuplicate x)
    (label : String) :
    x ≠ .error (.duplicateLabel label) := by
  rintro rfl
  rcases h with ⟨a, h, -⟩ | ⟨e, h, he⟩
  · cases h
  · obtain rfl := Except.error.inj h
    cases he

end

/-- A label is reported as defined twice only where a function spells out another, and there the
script is never assembled. -/
theorem assemble_duplicateLabel (functions : List FunctionDef) (statics globals : List DataField)
    (withNames : Bool) (hdistinct : (functions.map fun f => foldName f.name).Nodup)
    (hlabels : ∀ f ∈ functions, ((codeLabels f.body).map foldName).Nodup) :
    (∀ label, assemble functions statics globals withNames = .error (.duplicateLabel label) →
      ∃ f ∈ functions, ∃ g ∈ functions, f.SpellsOut g) ∧
    (∀ f ∈ functions, ∀ g ∈ functions, f.SpellsOut g →
      (∀ script, assemble functions statics globals withNames ≠ .ok script) ∧
      ((∀ f ∈ functions, f.Encodes (fun _ => False) (fun _ => True) withNames) →
        ∃ label, assemble functions statics globals withNames = .error (.duplicateLabel label))) ∧
    ((∀ f ∈ functions, '.' ∉ f.name.toList) →
      ∀ label, assemble functions statics globals withNames ≠ .error (.duplicateLabel label)) := by
  have hnodup := nodup_ordered_keys_iff hdistinct hlabels
  have hreason : ∀ label, assemble functions statics globals withNames =
      .error (.duplicateLabel label) → ∃ f ∈ functions, ∃ g ∈ functions, f.SpellsOut g := by
    intro label herror
    by_contra hnone
    push Not at hnone
    exact (assemble_notDuplicate (hnodup.mpr hnone)).ne label herror
  refine ⟨hreason, fun f hf g hg hspells => ⟨fun script hscript => ?_, fun hencodes => ?_⟩, ?_⟩
  · obtain ⟨r, hfunctions, -⟩ := bind_eq_ok.mp hscript
    exact hnodup.mp (nodup_keys_of_functions hfunctions) f hf g hg hspells
  · exact exists_duplicateLabel hencodes fun h => hnodup.mp h f hf g hg hspells
  · intro hnames label herror
    obtain ⟨f, -, g, hg, hspells⟩ := hreason label herror
    exact hnames g hg hspells.stop_mem

/-- Two functions without a frame, each with one instruction and perhaps a label before it. -/
def pausePair (first : String) (label : Option String) (second : String) (label' : Option String) :
    List FunctionDef := [
  { name := first, naked := true, body := [{ label := label, mnemonic := some "NOP" }] },
  { name := second, naked := true, body := [{ label := label', mnemonic := some "NOP" }] }]

theorem encodes_pausePair (first second : String) (label label' : Option String) :
    ∀ f ∈ pausePair first label second label',
      f.Encodes (fun _ => False) (fun _ => True) false := by
  have hpause (key : String → String) :
      Ends (fun _ => False) (Encode.instruction key "NOP" []) (RefersTo fun _ => True) :=
    .inl ⟨_, rfl, fun _ _ _ => trivial⟩
  intro f hf
  rw [pausePair, List.mem_cons, List.mem_singleton] at hf
  rcases hf with rfl | rfl <;>
    exact {
      opening := .ok trivial
      body := fun s hs mnemonic hm => by
        obtain rfl := List.mem_singleton.mp hs
        obtain rfl := Option.some.inj hm
        exact hpause _ }

theorem assemble_duplicateLabel_pausePair :
    (∃ label, assemble (pausePair "main" (some "Exit") "MAIN.exit" none) [] [] false =
      .error (.duplicateLabel label)) ∧
    (∃ label, assemble (pausePair "main" (some "part.end") "main.part" (some "End")) [] [] false =
      .error (.duplicateLabel label)) ∧
    ∀ label, assemble (pausePair "main" (some "end") "part" (some "End")) [] [] false ≠
      .error (.duplicateLabel label) := by
  refine ⟨?_, ?_, ?_⟩
  · have h := assemble_duplicateLabel (pausePair "main" (some "Exit") "MAIN.exit" none) [] [] false
      (by decide) (by decide)
    refine (h.2.1 _ List.mem_cons_self _ (List.mem_cons_of_mem _ List.mem_cons_self) ?_).2
      (encodes_pausePair _ _ _ _)
    exact ⟨"exit", by decide, "Exit", List.mem_cons_self, .inl (by decide)⟩
  · have h := assemble_duplicateLabel (pausePair "main" (some "part.end") "main.part" (some "End"))
      [] [] false (by decide) (by decide)
    refine (h.2.1 _ List.mem_cons_self _ (List.mem_cons_of_mem _ List.mem_cons_self) ?_).2
      (encodes_pausePair _ _ _ _)
    exact ⟨"part", by decide, "part.end", List.mem_cons_self,
      .inr ⟨"End", List.mem_cons_self, by decide⟩⟩
  · have h := assemble_duplicateLabel (pausePair "main" (some "end") "part" (some "End")) [] []
      false (by decide) (by decide)
    exact h.2.2 (by decide)

end GameScript
