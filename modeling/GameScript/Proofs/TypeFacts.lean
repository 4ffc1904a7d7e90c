import GameScript.Check.Declare

/-!
# Facts about types

Types that compare as the same take the same storage, although enums of one name may differ in their
members. A value that may be stored in a place fills it exactly, except that texts and text labels
are copied into text labels by instructions of their own. Types that a script can build keep a
discipline about the defaults of fields; it is stated here and kept by every step of the registry.
-/
namespace GameScript

mutual

theorem Ty.size_eq_of_same : (a b : Ty) → a.same b = true → a.size = b.size
  | .struct _ fields, b, h => by
      cases b <;> simp only [Ty.same, Bool.false_eq_true, Bool.and_eq_true] at h
      exact fields.size_eq_of_same _ h.2
  | .array item n, b, h => by
      cases b <;> simp only [Ty.same, Bool.false_eq_true, Bool.and_eq_true, beq_iff_eq] at h
      simp only [Ty.size, item.size_eq_of_same _ h.1, h.2]
  | .textLabel n, b, h => by
      cases b <;> simp only [Ty.same, Bool.false_eq_true, beq_iff_eq] at h
      rw [h]
  | .void, b, h | .int, b, h | .float, b, h | .bool, b, h | .string, b, h | .null, b, h
  | .any, b, h | .auto, b, h | .vector, b, h | .handle _, b, h | .enum _ _, b, h
  | .function _ _, b, h | .typeName _, b, h => by
      cases b <;> first | rfl | simp only [Ty.same, Bool.false_eq_true] at h

theorem Fields.size_eq_of_same : (as bs : Fields) → as.same bs = true → as.size = bs.size
  | .nil, bs, h => by
      cases bs with
      | nil => rfl
      | cons name ty init rest => simp only [Fields.same, Bool.false_eq_true] at h
  | .cons _ ty _ rest, bs, h => by
      cases bs with
      | nil => simp only [Fields.same, Bool.false_eq_true] at h
      | cons name ty' init rest' =>
          simp only [Fields.same, Bool.and_eq_true] at h
          simp only [Fields.size, ty.size_eq_of_same _ h.1.1.2, rest.size_eq_of_same _ h.2]

end

theorem Ty.slots_eq_of_same {a b : Ty} (h : a.same b = true) : a.slots = b.slots := by
  rw [Ty.slots, Ty.slots, a.size_eq_of_same b h]

theorem slotsOf_eq_of_sameList {as bs : List Ty} (h : Ty.sameList as bs = true) :
    slotsOf as = slotsOf bs := by
  induction as generalizing bs with
  | nil =>
      cases bs with
      | nil => rfl
      | cons b bs => simp only [Ty.sameList, Bool.false_eq_true] at h
  | cons a as ih =>
      cases bs with
      | nil => simp only [Ty.sameList, Bool.false_eq_true] at h
      | cons b bs =>
          simp only [Ty.sameList, Bool.and_eq_true] at h
          rw [slotsOf, slotsOf, Ty.slots_eq_of_same h.1, ih h.2]

theorem slots_eq_of_sameResult {r s : Option Ty} (h : Ty.sameResult r s = true) :
    (r.map Ty.slots).getD 0 = (s.map Ty.slots).getD 0 := by
  cases r with
  | none =>
      cases s with
      | none => rfl
      | some b => simp only [Ty.sameResult, Bool.false_eq_true] at h
  | some a =>
      cases s with
      | none => simp only [Ty.sameResult, Bool.false_eq_true] at h
      | some b =>
          rw [Ty.sameResult] at h
          exact Ty.slots_eq_of_same h

theorem slotsOf_append (as bs : List Ty) : slotsOf (as ++ bs) = slotsOf as + slotsOf bs := by
  induction as with
  | nil => rw [List.nil_append, slotsOf, Nat.zero_add]
  | cons a as ih => rw [List.cons_append, slotsOf, slotsOf, ih, Nat.add_assoc]

theorem variableSlots_append (vs ws : List Variable) :
    variableSlots (vs ++ ws) = variableSlots vs + variableSlots ws := by
  rw [variableSlots, List.map_append, slotsOf_append, variableSlots, variableSlots]

theorem variableSlots_singleton (v : Variable) : variableSlots [v] = v.ty.slots := rfl

/-- The types that are only the same as themselves and have no parts. -/
theorem Ty.eq_of_beq_scalar {t s : Ty} (h : (t == s) = true)
    (hs : s = .int ∨ s = .float ∨ s = .bool ∨ s = .string ∨ s = .auto ∨ s = .null) : t = s := by
  rw [Ty.beq_eq_same] at h
  rcases hs with rfl | rfl | rfl | rfl | rfl | rfl <;>
    (cases t <;> first | rfl | simp only [Ty.same, Bool.false_eq_true] at h)

/-- What may stand where `target` is expected once conversions are made: an accepted type, but a
text label not as a text. -/
def Ty.Admits (target source : Ty) : Prop :=
  target.accepts source = true ∧ ∀ n, target = .string → source ≠ .textLabel n

theorem Ty.admits_self (t : Ty) : t.Admits t := by
  refine ⟨?_, fun n hstring hlabel => nomatch hstring.symm.trans hlabel⟩
  rw [accepts.eq_def, Ty.beq_eq_same, Ty.same_refl, Bool.true_or]

def Ty.isTextLabel : Ty → Bool
  | .textLabel _ => true
  | _ => false

theorem Ty.isTextLabel_eq_of_same {a b : Ty} (h : a.same b = true) :
    a.isTextLabel = b.isTextLabel := by
  cases a <;> cases b <;> first
    | rfl
    | simp only [Ty.same, Bool.false_eq_true] at h

theorem any_isTextLabel_eq_of_sameList {as bs : List Ty} (h : Ty.sameList as bs = true) :
    as.any Ty.isTextLabel = bs.any Ty.isTextLabel := by
  induction as generalizing bs with
  | nil =>
      cases bs with
      | nil => rfl
      | cons b bs => simp only [Ty.sameList, Bool.false_eq_true] at h
  | cons a as ih =>
      cases bs with
      | nil => simp only [Ty.sameList, Bool.false_eq_true] at h
      | cons b bs =>
          simp only [Ty.sameList, Bool.and_eq_true] at h
          rw [List.any_cons, List.any_cons, Ty.isTextLabel_eq_of_same h.1, ih h.2]

theorem Ty.slots_eq_of_admits {target source : Ty} (h : target.Admits source)
    (hlabel : target.isTextLabel = false) : source.slots = target.slots := by
  obtain ⟨haccepts, hstring⟩ := h
  unfold accepts at haccepts
  rw [Bool.or_eq_true] at haccepts
  rcases haccepts with hsame | hrule
  · rw [Ty.beq_eq_same] at hsame
    exact (Ty.slots_eq_of_same hsame).symm
  · split at hrule
    case h_6 n => exact absurd rfl (hstring n rfl)
    case h_7 =>
        rw [slots, beq_iff_eq.mp hrule]
        rfl
    all_goals first | rfl | contradiction

/-- Text labels take texts and text labels only. -/
theorem Ty.cases_of_textLabel_accepts {n : UInt32} {source : Ty}
    (h : (Ty.textLabel n).accepts source = true) :
    source = .string ∨ ∃ m, source = .textLabel m := by
  rw [accepts.eq_def, Ty.beq_eq_same] at h
  cases source <;> first
    | exact .inl rfl
    | exact .inr ⟨_, rfl⟩
    | simp only [Ty.same, Bool.or_false, Bool.false_eq_true] at h

/-! ## Well-formed types -/

mutual

/-- Text labels have a valid capacity, and the default of a field is one that the field may have. A
signature is no storage, so nothing is asked of it. -/
def Ty.WellFormed : Ty → Prop
  | .textLabel n => Ty.isTextLabelLength n = true
  | .struct _ fields => fields.WellFormed
  | .array item _ => item.WellFormed
  | _ => True

def Fields.WellFormed : Fields → Prop
  | .nil => True
  | .cons _ ty init rest =>
    ty.WellFormed ∧ (∀ v, init = some v → fieldInitError? ty v = none) ∧ rest.WellFormed

end

theorem Fields.wellFormed_ofList {fields : List Field}
    (h : ∀ f ∈ fields, f.ty.WellFormed ∧ ∀ v, f.init = some v → fieldInitError? f.ty v = none) :
    (Fields.ofList fields).WellFormed := by
  induction fields with
  | nil => exact trivial
  | cons f fields ih =>
      rw [List.forall_mem_cons] at h
      exact ⟨h.1.1, h.1.2, ih h.2⟩

theorem Ty.wellFormed_of_mem_builtins {ty : Ty} (h : ty ∈ Ty.builtins) : ty.WellFormed := by
  have hlabels : Ty.textLabelLengths.all Ty.isTextLabelLength = true := by decide +kernel
  simp only [builtins, List.mem_append, List.mem_cons, List.not_mem_nil, or_false,
    List.mem_map] at h
  rcases h with ((rfl | rfl | rfl | rfl | rfl | rfl) | ⟨kind, _, rfl⟩) | ⟨n, hn, rfl⟩
  all_goals first | exact trivial | exact List.all_eq_true.mp hlabels n hn

theorem mem_of_lookup {α β : Type} [BEq α] [LawfulBEq α] {xs : List (α × β)} {a : α} {b : β}
    (h : xs.lookup a = some b) : (a, b) ∈ xs := by
  induction xs with
  | nil => cases h
  | cons x xs ih =>
      rw [List.lookup_cons] at h
      cases heq : a == x.1 with
      | true =>
          rw [heq] at h
          obtain rfl := Option.some.inj h
          rw [beq_iff_eq.mp heq]
          exact List.mem_cons_self
      | false =>
          rw [heq] at h
          exact List.mem_cons_of_mem x (ih h)

theorem not_mem_keys_of_lookup {α β : Type} [BEq α] [LawfulBEq α] {xs : List (α × β)} {a : α}
    (h : xs.lookup a = none) : a ∉ xs.map Prod.fst := by
  intro hmem
  obtain ⟨x, hx, rfl⟩ := List.mem_map.mp hmem
  have hne := List.lookup_eq_none_iff.mp h x hx
  rw [bne_self_eq_false] at hne
  cases hne

/-- In a table without repeated keys every entry is found under its key. -/
theorem lookup_of_mem {α β : Type} [BEq α] [LawfulBEq α] {xs : List (α × β)} {a : α} {b : β}
    (hkeys : (xs.map Prod.fst).Nodup) (h : (a, b) ∈ xs) : xs.lookup a = some b := by
  induction xs with
  | nil => cases h
  | cons x xs ih =>
      rw [List.map_cons, List.nodup_cons] at hkeys
      cases h with
      | head => exact List.lookup_cons_self
      | tail _ h =>
          have hne : (a == x.1) = false := by
            rw [beq_eq_false_iff_ne]
            intro heq
            exact hkeys.1 (heq ▸ List.mem_map_of_mem (f := Prod.fst) h)
          rw [List.lookup_cons, hne]
          exact ih hkeys.2 h

namespace Registry

def WellFormed (r : Registry) : Prop := ∀ e ∈ r.entries, e.2.WellFormed

theorem wellFormed_seed {r : Registry} {ty : Ty} (hr : r.WellFormed) (hty : ty.WellFormed) :
    (r.seed ty).WellFormed := by
  intro e he
  rcases List.mem_append.mp he with he | he
  · exact hr e he
  · obtain rfl := List.mem_singleton.mp he
    exact hty

theorem wellFormed_foldl_seed {tys : List Ty} {r : Registry} (hr : r.WellFormed)
    (htys : ∀ ty ∈ tys, ty.WellFormed) : (tys.foldl seed r).WellFormed := by
  induction tys generalizing r with
  | nil => exact hr
  | cons ty tys ih =>
      rw [List.forall_mem_cons] at htys
      exact ih (wellFormed_seed hr htys.1) htys.2

theorem wellFormed_withBuiltins : withBuiltins.WellFormed :=
  wellFormed_foldl_seed (wellFormed_seed (fun _ he => absurd he List.not_mem_nil) trivial)
    fun _ => Ty.wellFormed_of_mem_builtins

/-- What registering gives back is the same type, and well formed if that was. -/
theorem register_ok {r r' : Registry} {ty ty' : Ty} (h : r.register ty = .ok (ty', r')) :
    ty'.same ty = true ∧ (r.WellFormed → ty.WellFormed → ty'.WellFormed ∧ r'.WellFormed) := by
  unfold register at h
  cases hfind : r.find? ty.identity with
  | some existing =>
      simp only [hfind] at h
      split at h
      · next hsame =>
          obtain ⟨rfl, rfl⟩ := Prod.mk.inj (Except.ok.inj h)
          rw [Ty.beq_eq_same] at hsame
          exact ⟨hsame, fun hr _ => ⟨hr _ (mem_of_lookup hfind), hr⟩⟩
      · contradiction
  | none =>
      simp only [hfind] at h
      obtain ⟨rfl, rfl⟩ := Prod.mk.inj (Except.ok.inj h)
      refine ⟨Ty.same_refl ty, fun hr hty => ⟨hty, fun e he => ?_⟩⟩
      rcases List.mem_append.mp he with he | he
      · exact hr e he
      · obtain rfl := List.mem_singleton.mp he
        exact hty

end Registry

/-- Interning arrays keeps types and registry well formed, also when an array is refused. -/
theorem internArrays_wellFormed (lengths : List UInt32) {r : Registry} {ty : Ty}
    (hr : r.WellFormed) (hty : ty.WellFormed) :
    (internArrays r ty lengths).2.WellFormed ∧
      ∀ ty', (internArrays r ty lengths).1 = .ok ty' → ty'.WellFormed := by
  induction lengths generalizing r ty with
  | nil => exact ⟨hr, fun ty' h => Except.ok.inj h ▸ hty⟩
  | cons n lengths ih =>
      rw [internArrays]
      cases hregister : r.registerArray ty n with
      | error e => exact ⟨hr, fun ty' h => nomatch h⟩
      | ok pair =>
          obtain ⟨hty', hr'⟩ := (Registry.register_ok hregister).2 hr hty
          exact ih hr' hty'

theorem resolveType_wellFormed {find? : String → Option Symbol} {r : Registry} {ref : TypeRef}
    (hr : r.WellFormed)
    (hfind : ∀ s, find? ref.name = some s → s.kind.isType = true → s.ty.WellFormed) :
    (resolveType find? r ref).2.WellFormed ∧
      ∀ ty, (resolveType find? r ref).1 = .ok ty → ty.WellFormed := by
  unfold resolveType
  cases hs : find? ref.name with
  | none => exact ⟨hr, fun ty h => nomatch h⟩
  | some s =>
      cases htype : s.kind.isType with
      | false =>
          simp only [htype, Bool.false_eq_true, if_false]
          exact ⟨hr, fun ty h => nomatch h⟩
      | true =>
          simp only [htype, if_true]
          obtain ⟨hr', hty'⟩ := internArrays_wellFormed ref.lengths hr (hfind s hs htype)
          rcases hintern : internArrays r s.ty ref.lengths with ⟨found, r'⟩
          rw [hintern] at hr' hty'
          cases found with
          | error e => exact ⟨hr', fun ty h => nomatch h⟩
          | ok ty' => exact ⟨hr', fun ty h => hty' ty (by rw [Except.ok.inj h])⟩

end GameScript
