import GameScript.Proofs.TypeFacts

/-!
# Types that are the same are interchangeable

Types that are the same as a third type are the same: names of enums are compared in any case, and
defaults of fields as values. A type in a signature may therefore be replaced by the one under which
it is registered without changing what may be stored there. Such types also have the same name up to
case, and so one key in a registry.
-/
namespace GameScript

/-- Numbers are the same if both are no numbers, if they are equal, or if both are zero. -/
theorem Binary32.same_iff {a b : Binary32} :
    a.same b = true ↔ a.isNaN = true ∧ b.isNaN = true ∨
      a.isNaN = false ∧ b.isNaN = false ∧ (a = b ∨ a.isZero = true ∧ b.isZero = true) := by
  obtain ⟨x⟩ := a
  obtain ⟨y⟩ := b
  unfold Binary32.same
  grind

theorem Binary32.same_of_same {a b c : Binary32} (hab : a.same b = true) (hac : a.same c = true) :
    b.same c = true := by
  rw [Binary32.same_iff] at *
  grind

theorem Literal.same_of_same {a b c : Literal} (hab : a.same b = true) (hac : a.same c = true) :
    b.same c = true := by
  cases a with
  | float a =>
      cases b with
      | float b =>
          cases c with
          | float c => exact Binary32.same_of_same hab hac
          | _ => cases hac
      | _ => cases hab
  | _ =>
      have hb : _ = b := beq_iff_eq.mp hab
      have hc : _ = c := beq_iff_eq.mp hac
      rw [← hb, ← hc]
      exact Literal.same_refl _

theorem sameInit_of_same {a b c : Option Literal} (hab : sameInit a b = true)
    (hac : sameInit a c = true) :
    sameInit b c = true := by
  cases a with
  | none =>
      cases b with
      | none => exact hac
      | some b => cases hab
  | some a =>
      cases b with
      | none => cases hab
      | some b =>
          cases c with
          | none => cases hac
          | some c => exact Literal.same_of_same hab hac

mutual

theorem Ty.same_of_same : (a : Ty) → {b c : Ty} → a.same b = true → a.same c = true →
    b.same c = true
  | .struct _ fields, b, c, hab, hac => by
      cases b <;> simp only [Ty.same, Bool.false_eq_true] at hab
      cases c <;> simp only [Ty.same, Bool.false_eq_true] at hac
      simp only [Ty.same, Bool.and_eq_true, beq_iff_eq] at *
      exact ⟨hab.1.symm.trans hac.1, fields.same_of_same hab.2 hac.2⟩
  | .array item n, b, c, hab, hac => by
      cases b <;> simp only [Ty.same, Bool.false_eq_true] at hab
      cases c <;> simp only [Ty.same, Bool.false_eq_true] at hac
      simp only [Ty.same, Bool.and_eq_true, beq_iff_eq] at *
      exact ⟨item.same_of_same hab.1 hac.1, hab.2.symm.trans hac.2⟩
  | .function result params, b, c, hab, hac => by
      cases b <;> simp only [Ty.same, Bool.false_eq_true] at hab
      cases c <;> simp only [Ty.same, Bool.false_eq_true] at hac
      simp only [Ty.same, Bool.and_eq_true] at *
      exact ⟨Ty.sameResult_of_same result hab.1 hac.1, Ty.sameList_of_same params hab.2 hac.2⟩
  | .typeName named, b, c, hab, hac => by
      cases b <;> simp only [Ty.same, Bool.false_eq_true] at hab
      cases c <;> simp only [Ty.same, Bool.false_eq_true] at hac
      simp only [Ty.same] at *
      exact named.same_of_same hab hac
  | .enum _ _, b, c, hab, hac => by
      cases b <;> simp only [Ty.same, Bool.false_eq_true] at hab
      cases c <;> simp only [Ty.same, Bool.false_eq_true] at hac
      simp only [Ty.same, sameName, beq_iff_eq] at *
      exact hab.symm.trans hac
  | .handle _, b, c, hab, hac | .textLabel _, b, c, hab, hac => by
      cases b <;> simp only [Ty.same, Bool.false_eq_true] at hab
      cases c <;> simp only [Ty.same, Bool.false_eq_true] at hac
      simp only [Ty.same, beq_iff_eq] at *
      exact hab.symm.trans hac
  | .void, b, c, hab, hac | .int, b, c, hab, hac | .float, b, c, hab, hac | .bool, b, c, hab, hac
  | .string, b, c, hab, hac | .null, b, c, hab, hac | .any, b, c, hab, hac | .auto, b, c, hab, hac
  | .vector, b, c, hab, hac => by
      cases b <;> simp only [Ty.same, Bool.false_eq_true] at hab
      exact hac

theorem Fields.same_of_same : (as : Fields) → {bs cs : Fields} → as.same bs = true →
    as.same cs = true → bs.same cs = true
  | .nil, bs, cs, hab, hac => by
      cases bs <;> simp only [Fields.same, Bool.false_eq_true] at hab
      exact hac
  | .cons _ ty init rest, bs, cs, hab, hac => by
      cases bs <;> simp only [Fields.same, Bool.false_eq_true] at hab
      cases cs <;> simp only [Fields.same, Bool.false_eq_true] at hac
      simp only [Fields.same, Bool.and_eq_true, beq_iff_eq] at *
      exact ⟨⟨⟨hab.1.1.1.symm.trans hac.1.1.1, ty.same_of_same hab.1.1.2 hac.1.1.2⟩,
        sameInit_of_same hab.1.2 hac.1.2⟩, rest.same_of_same hab.2 hac.2⟩

theorem Ty.sameResult_of_same : (a : Option Ty) → {b c : Option Ty} → Ty.sameResult a b = true →
    Ty.sameResult a c = true → Ty.sameResult b c = true
  | none, b, c, hab, hac => by
      cases b <;> simp only [Ty.sameResult, Bool.false_eq_true] at hab
      exact hac
  | some a, b, c, hab, hac => by
      cases b <;> simp only [Ty.sameResult, Bool.false_eq_true] at hab
      cases c <;> simp only [Ty.sameResult, Bool.false_eq_true] at hac
      simp only [Ty.sameResult] at *
      exact a.same_of_same hab hac

theorem Ty.sameList_of_same : (as : List Ty) → {bs cs : List Ty} → Ty.sameList as bs = true →
    Ty.sameList as cs = true → Ty.sameList bs cs = true
  | [], bs, cs, hab, hac => by
      cases bs <;> simp only [Ty.sameList, Bool.false_eq_true] at hab
      exact hac
  | a :: as, bs, cs, hab, hac => by
      cases bs <;> simp only [Ty.sameList, Bool.false_eq_true] at hab
      cases cs <;> simp only [Ty.sameList, Bool.false_eq_true] at hac
      simp only [Ty.sameList, Bool.and_eq_true] at *
      exact ⟨a.same_of_same hab.1 hac.1, Ty.sameList_of_same as hab.2 hac.2⟩

end

/-- A place takes values of the same type, or its own type is only the same as itself. -/
theorem Ty.same_or_eq_of_accepts {target source : Ty} (h : target.accepts source = true) :
    target.same source = true ∨ ∀ {target' : Ty}, target.same target' = true →
      target = target' := by
  unfold accepts at h
  rw [Bool.or_eq_true, Ty.beq_eq_same] at h
  refine h.imp id fun hrule target' hsame => ?_
  split at hrule
  all_goals first
    | contradiction
    | (cases target' <;> first
        | rfl
        | (simp only [Ty.same, beq_iff_eq] at hsame; rw [hsame])
        | simp only [Ty.same, Bool.false_eq_true] at hsame)

/-- What a place admits, a place of the same type admits. -/
theorem Ty.admits_of_same {target target' source : Ty} (hsame : target.same target' = true)
    (h : target.Admits source) : target'.Admits source := by
  obtain ⟨haccepts, hlabel⟩ := h
  rcases Ty.same_or_eq_of_accepts haccepts with hsource | heq
  · refine ⟨?_, fun n hstring => ?_⟩
    · unfold accepts
      rw [Bool.or_eq_true, Ty.beq_eq_same]
      exact .inl (target.same_of_same hsame hsource)
    · apply hlabel n
      apply Ty.eq_of_beq_scalar _ (.inr (.inr (.inr (.inl rfl))))
      rw [Ty.beq_eq_same, ← hstring]
      exact hsame
  · rw [← heq hsame]
    exact ⟨haccepts, hlabel⟩

/-! ## Names -/

theorem foldName_append (a b : String) : foldName (a ++ b) = foldName a ++ foldName b := by
  simp [foldName]

theorem foldName_intercalate (separator : String) (names : List String) :
    foldName (separator.intercalate names) =
      (foldName separator).intercalate (names.map foldName) := by
  induction names with
  | nil => rfl
  | cons first rest ih =>
      cases rest with
      | nil => simp
      | cons second rest =>
          rw [String.intercalate_cons_cons, foldName_append, foldName_append, ih]
          simp only [List.map_cons, String.intercalate_cons_cons]

mutual

/-- Types that are the same have the same name, up to case. -/
theorem Ty.foldName_name_eq_of_same : (a b : Ty) → a.same b = true →
    foldName a.name = foldName b.name
  | .array item n, b, h => by
      cases b <;> simp only [Ty.same, Bool.false_eq_true, Bool.and_eq_true, beq_iff_eq] at h
      simp only [Ty.name, foldName_append, item.foldName_name_eq_of_same _ h.1, h.2]
  | .function none params, b, h => by
      cases b <;> simp only [Ty.same, Bool.false_eq_true, Bool.and_eq_true] at h
      next result others =>
        cases result <;> simp only [Ty.sameResult, Bool.false_eq_true, false_and] at h
        simp only [Ty.name, foldName_append, foldName_intercalate,
          Ty.foldName_names_eq_of_same _ _ h.2]
  | .function (some result) params, b, h => by
      cases b <;> simp only [Ty.same, Bool.false_eq_true, Bool.and_eq_true] at h
      next other others =>
        cases other <;> simp only [Ty.sameResult, Bool.false_eq_true, false_and] at h
        simp only [Ty.name, foldName_append, foldName_intercalate,
          result.foldName_name_eq_of_same _ h.1, Ty.foldName_names_eq_of_same _ _ h.2]
  | .typeName named, b, h => by
      cases b <;> simp only [Ty.same, Bool.false_eq_true] at h
      simp only [Ty.name, foldName_append, named.foldName_name_eq_of_same _ h]
  | .enum _ _, b, h => by
      cases b <;> simp only [Ty.same, Bool.false_eq_true, sameName, beq_iff_eq] at h
      exact h
  | .struct _ _, b, h => by
      cases b <;> simp only [Ty.same, Bool.false_eq_true, Bool.and_eq_true, beq_iff_eq] at h
      rw [Ty.name, Ty.name, h.1]
  | .handle _, b, h | .textLabel _, b, h => by
      cases b <;> simp only [Ty.same, Bool.false_eq_true, beq_iff_eq] at h
      rw [h]
  | .void, b, h | .int, b, h | .float, b, h | .bool, b, h | .string, b, h | .null, b, h | .any, b, h
  | .auto, b, h | .vector, b, h => by
      cases b <;> simp only [Ty.same, Bool.false_eq_true] at h
      rfl

theorem Ty.foldName_names_eq_of_same : (as bs : List Ty) → Ty.sameList as bs = true →
    (Ty.names as).map foldName = (Ty.names bs).map foldName
  | [], bs, h => by
      cases bs <;> simp only [Ty.sameList, Bool.false_eq_true] at h
      rfl
  | a :: as, bs, h => by
      cases bs <;> simp only [Ty.sameList, Bool.false_eq_true, Bool.and_eq_true] at h
      simp only [Ty.names, List.map_cons, a.foldName_name_eq_of_same _ h.1,
        Ty.foldName_names_eq_of_same as _ h.2]

end

/-- Types that are the same have one key in a registry. -/
theorem Ty.identity_eq_of_same {a b : Ty} (h : a.same b = true) : a.identity = b.identity :=
  Identity.ofName_eq_of_foldName_eq (a.foldName_name_eq_of_same b h)

end GameScript
