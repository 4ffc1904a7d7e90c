import GameScript.Check.Expr
import GameScript.Proofs.DefaultInit
import GameScript.Proofs.SlotArithmetic

/-!
# Chains of field accesses and indexings

A selector names a member of a type or an element of an array, and a list of selectors names a part
at any depth. The part lies inside the whole, and parts for which the lists differ at some selector
share no slot. Sizes are natural numbers here; arithmetic with 64 bits gives the same for every type
of fewer than 2^64 bytes and for its parts.

The code that a chain is compiled to finds the part by adding distances. The checker keeps the
distances as words, so what is added is a distance cut to a word. The place reached is inside the
whole all the same, and it is the place of the part exactly if no distance on the way was cut.
-/
namespace GameScript

/-! ## Parts of a type -/

inductive Selector where
  | member (i : Nat)
  | element (i : Nat)
deriving DecidableEq, Repr

/-- The members that can be named: fields, coordinates, and the raw value of a handle. -/
def Ty.memberFields : Ty → Fields
  | .struct _ fields => fields
  | .vector => .ofList [⟨"x", .float, none⟩, ⟨"y", .float, none⟩, ⟨"z", .float, none⟩]
  | .handle _ => .ofList [⟨"value", .int, none⟩]
  | _ => .nil

def Ty.element? : Ty → Nat → Option Ty
  | .array item length, i => if i < length.toNat then some item else none
  | _, _ => none

/-- The part that a selector names and its distance from the start of the whole in slots. `keep` is
what is kept of a distance that is computed from a type. -/
def Ty.part? (keep : Nat → Nat) (ty : Ty) : Selector → Option (Nat × Ty)
  | .member i =>
      (placeFields 0 ty.memberFields)[i]?.map fun p => (keep (p.offset / slotSize), p.field.ty)
  | .element i => (ty.element? i).map fun item => (1 + i * keep item.slots, item)

def Ty.select? (keep : Nat → Nat) : Ty → List Selector → Option (Nat × Ty)
  | ty, [] => some (0, ty)
  | ty, s :: path => (ty.part? keep s).bind fun p =>
      (p.2.select? keep path).map fun q => (p.1 + q.1, q.2)

variable {keep : Nat → Nat} {ty part : Ty} {s : Selector} {i d : Nat}

theorem Ty.part?_member : ty.part? keep (.member i) = some (d, part) ↔
    ∃ p, (placeFields 0 ty.memberFields)[i]? = some p ∧ keep (p.offset / slotSize) = d ∧
      p.field.ty = part := by
  simp only [part?, Option.map_eq_some_iff, Prod.mk.injEq]

theorem Ty.part?_element : ty.part? keep (.element i) = some (d, part) ↔
    ∃ length, ty = .array part length ∧ i < length.toNat ∧ 1 + i * keep part.slots = d := by
  simp only [part?, Option.map_eq_some_iff, Prod.mk.injEq]
  constructor
  · rintro ⟨item, hitem, hd, rfl⟩
    unfold element? at hitem
    split at hitem
    · split at hitem
      · next hlt =>
          obtain rfl := Option.some.inj hitem
          exact ⟨_, rfl, hlt, hd⟩
      · cases hitem
    · cases hitem
  · rintro ⟨length, rfl, hlt, hd⟩
    exact ⟨part, if_pos hlt, hd, rfl⟩

theorem Ty.select?_cons {path : List Selector} : ty.select? keep (s :: path) = some (d, part) ↔
    ∃ d₁ d₂ mid, ty.part? keep s = some (d₁, mid) ∧ mid.select? keep path = some (d₂, part) ∧
      d₁ + d₂ = d := by
  simp only [select?, Option.bind_eq_some_iff, Option.map_eq_some_iff, Prod.exists, Prod.mk.injEq]
  constructor
  · rintro ⟨d₁, mid, hmid, d₂, _, hpart, rfl, rfl⟩
    exact ⟨d₁, d₂, mid, hmid, hpart, rfl⟩
  · rintro ⟨d₁, d₂, mid, hmid, hpart, rfl⟩
    exact ⟨d₁, mid, hmid, d₂, part, hpart, rfl, rfl⟩

/-- A path is followed one piece after the other. -/
theorem Ty.select?_append {front back : List Selector} :
    ty.select? keep (front ++ back) = some (d, part) ↔
      ∃ d₁ d₂ mid, ty.select? keep front = some (d₁, mid) ∧
        mid.select? keep back = some (d₂, part) ∧ d₁ + d₂ = d := by
  induction front generalizing ty d with
  | nil =>
      simp only [List.nil_append, select?, Option.some.injEq, Prod.mk.injEq]
      constructor
      · exact fun h => ⟨0, d, ty, ⟨rfl, rfl⟩, h, Nat.zero_add d⟩
      · rintro ⟨_, _, _, ⟨rfl, rfl⟩, h, rfl⟩
        rwa [Nat.zero_add]
  | cons s front ih =>
      simp only [List.cons_append, select?_cons, ih]
      constructor
      · rintro ⟨d₁, _, mid, hmid, ⟨d₂, d₃, last, hfront, hback, rfl⟩, rfl⟩
        exact ⟨d₁ + d₂, d₃, last, ⟨d₁, d₂, mid, hmid, hfront, rfl⟩, hback, Nat.add_assoc _ _ _⟩
      · rintro ⟨_, d₃, last, ⟨d₁, d₂, mid, hmid, hfront, rfl⟩, hback, rfl⟩
        exact ⟨d₁, d₂ + d₃, mid, hmid, ⟨d₂, d₃, last, hfront, hback, rfl⟩,
          (Nat.add_assoc _ _ _).symm⟩

theorem Ty.select?_concat {path : List Selector} {mid : Ty} {e : Nat}
    (h : ty.select? keep path = some (d, mid)) (hpart : mid.part? keep s = some (e, part)) :
    ty.select? keep (path ++ [s]) = some (d + e, part) :=
  select?_append.mpr ⟨d, e, mid, h, select?_cons.mpr ⟨e, 0, part, hpart, rfl, rfl⟩, rfl⟩

/-! ## Where parts lie -/

theorem Ty.LabelsValid.memberFields (h : ty.LabelsValid) : ty.memberFields.LabelsValid := by
  cases ty with
  | struct _ fields => exact h
  | vector => exact ⟨trivial, trivial, trivial, trivial⟩
  | handle _ => exact ⟨trivial, trivial⟩
  | _ => exact trivial

theorem Ty.size_memberFields_le (ty : Ty) : ty.memberFields.size ≤ ty.size := by
  cases ty with
  | struct _ fields => exact Nat.le_refl fields.size
  | vector => decide
  | handle _ => exact Nat.le_refl slotSize
  | _ => exact Nat.zero_le _

theorem Fields.LabelsValid.of_mem : {fields : Fields} → fields.LabelsValid → {f : Field} →
    f ∈ fields.toList → f.ty.LabelsValid
  | .cons name ty init rest, h, f, hf => by
      rcases List.mem_cons.mp hf with rfl | hf
      · exact h.1
      · exact of_mem h.2 hf

def Ty.memberTypes (ty : Ty) : List Ty := ty.memberFields.toList.map Field.ty

/-- A member begins after the slots of the members before it. -/
theorem Ty.LabelsValid.member {p : PlacedField} (h : ty.LabelsValid)
    (hp : (placeFields 0 ty.memberFields)[i]? = some p) :
    ty.memberTypes[i]? = some p.field.ty ∧ p.field.ty.LabelsValid ∧
      p.offset / slotSize = slotsOf (ty.memberTypes.take i) := by
  have hfield : ty.memberFields.toList[i]? = some p.field := by
    rw [← field_placeFields ty.memberFields 0, List.getElem?_map, hp]
    rfl
  refine ⟨?_, h.memberFields.of_mem (List.mem_of_getElem? hfield), ?_⟩
  · rw [memberTypes, List.getElem?_map, hfield]
    rfl
  · rw [h.memberFields.offset_eq 0 i hp, Nat.zero_add, Nat.mul_div_cancel_left _ (by decide),
      memberTypes, List.map_take]

theorem Ty.LabelsValid.slotsOf_memberTypes_le (h : ty.LabelsValid) :
    slotsOf ty.memberTypes ≤ ty.slots := by
  refine Nat.le_of_mul_le_mul_left ?_ (by decide : 0 < slotSize)
  rw [memberTypes, h.memberFields.mul_slotsOf, h.mul_slots]
  exact ty.size_memberFields_le

theorem mul_add_le_mul {i j : Nat} (h : i < j) (k : Nat) : i * k + k ≤ j * k := by
  rw [← Nat.succ_mul]
  exact Nat.mul_le_mul_right k h

/-- A part named by one selector lies inside the whole. -/
theorem Ty.LabelsValid.part_inside (h : ty.LabelsValid) (hpart : ty.part? id s = some (d, part)) :
    part.LabelsValid ∧ d + part.slots ≤ ty.slots := by
  cases s with
  | member i =>
      obtain ⟨p, hp, rfl, rfl⟩ := part?_member.mp hpart
      obtain ⟨htype, hvalid, hslots⟩ := h.member hp
      have hlt : i < ty.memberTypes.length := (List.getElem?_eq_some_iff.mp htype).1
      have hle := slotsOf_take_add_le htype hlt
      rw [List.take_length] at hle
      rw [id, hslots]
      exact ⟨hvalid, Nat.le_trans hle h.slotsOf_memberTypes_le⟩
  | element i =>
      obtain ⟨length, rfl, hlt, rfl⟩ := part?_element.mp hpart
      rw [h.slots_array, id, Nat.add_assoc]
      exact ⟨h, Nat.add_le_add_left (mul_add_le_mul hlt _) 1⟩

/-- Parts named by different selectors share no slot. -/
theorem Ty.LabelsValid.parts_disjoint {s' : Selector} {d' : Nat} {part' : Ty} (h : ty.LabelsValid)
    (hs : s ≠ s') (hpart : ty.part? id s = some (d, part))
    (hpart' : ty.part? id s' = some (d', part')) :
    d + part.slots ≤ d' ∨ d' + part'.slots ≤ d := by
  cases s with
  | member i =>
      obtain ⟨p, hp, rfl, rfl⟩ := part?_member.mp hpart
      obtain ⟨htype, -, hslots⟩ := h.member hp
      cases s' with
      | member j =>
          obtain ⟨q, hq, rfl, rfl⟩ := part?_member.mp hpart'
          obtain ⟨htype', -, hslots'⟩ := h.member hq
          rw [id, id, hslots, hslots']
          have hij : i ≠ j := fun hij => hs (congrArg Selector.member hij)
          rcases Nat.lt_or_gt_of_ne hij with hij | hij
          · exact .inl (slotsOf_take_add_le htype hij)
          · exact .inr (slotsOf_take_add_le htype' hij)
      | element j =>
          -- an array has no members
          obtain ⟨length, rfl, -, -⟩ := part?_element.mp hpart'
          cases hp
  | element i =>
      obtain ⟨length, rfl, -, rfl⟩ := part?_element.mp hpart
      cases s' with
      | member j =>
          obtain ⟨q, hq, -, -⟩ := part?_member.mp hpart'
          cases hq
      | element j =>
          obtain ⟨_, hty, -, rfl⟩ := part?_element.mp hpart'
          obtain ⟨rfl, -⟩ := Ty.array.inj hty
          have hij : i ≠ j := fun hij => hs (congrArg Selector.element hij)
          rw [id, Nat.add_assoc, Nat.add_assoc]
          rcases Nat.lt_or_gt_of_ne hij with hij | hij
          · exact .inl (Nat.add_le_add_left (mul_add_le_mul hij _) 1)
          · exact .inr (Nat.add_le_add_left (mul_add_le_mul hij _) 1)

/-- A part at any depth lies inside the whole. -/
theorem Ty.LabelsValid.select_inside {path : List Selector} (h : ty.LabelsValid)
    (hselect : ty.select? id path = some (d, part)) :
    part.LabelsValid ∧ d + part.slots ≤ ty.slots := by
  induction path generalizing ty d with
  | nil =>
      obtain ⟨rfl, rfl⟩ := Prod.mk.inj (Option.some.inj hselect)
      exact ⟨h, Nat.le_of_eq (Nat.zero_add _)⟩
  | cons s path ih =>
      obtain ⟨d₁, d₂, mid, hmid, hpart, rfl⟩ := select?_cons.mp hselect
      obtain ⟨hvalid, hle⟩ := h.part_inside hmid
      obtain ⟨hvalid', hle'⟩ := ih hvalid hpart
      exact ⟨hvalid', by omega⟩

/-- Parts on paths that part ways share no slot. -/
theorem Ty.LabelsValid.selects_disjoint {front back back' : List Selector} {s' : Selector}
    {d' : Nat} {part' : Ty} (h : ty.LabelsValid) (hs : s ≠ s')
    (hselect : ty.select? id (front ++ s :: back) = some (d, part))
    (hselect' : ty.select? id (front ++ s' :: back') = some (d', part')) :
    d + part.slots ≤ d' ∨ d' + part'.slots ≤ d := by
  obtain ⟨d₀, _, mid, hfront, hrest, rfl⟩ := select?_append.mp hselect
  obtain ⟨_, _, _, hfront', hrest', rfl⟩ := select?_append.mp hselect'
  obtain ⟨rfl, rfl⟩ := Prod.mk.inj (Option.some.inj (hfront.symm.trans hfront'))
  obtain ⟨d₁, d₂, sub, hsub, hback, rfl⟩ := select?_cons.mp hrest
  obtain ⟨d₁', d₂', sub', hsub', hback', rfl⟩ := select?_cons.mp hrest'
  have hmid := (h.select_inside hfront).1
  have hinside := ((hmid.part_inside hsub).1.select_inside hback).2
  have hinside' := ((hmid.part_inside hsub').1.select_inside hback').2
  rcases hmid.parts_disjoint hs hsub hsub' with hle | hle
  · exact .inl (by omega)
  · exact .inr (by omega)

/-! ## Distances that are cut -/

/-- What is left of a distance that is kept as a word. -/
def asWord (n : Nat) : Nat := (UInt32.ofNat n).toNat

theorem asWord_le (n : Nat) : asWord n ≤ n := Lowering.toNat_ofNat_le n

theorem asWord_eq_iff {n : Nat} : asWord n = n ↔ n < 0x100000000 := by
  rw [asWord, UInt32.toNat_ofNat']
  omega

/-- A word holds the distances of one step into a type: that of a member, or the size of the
elements that are skipped. -/
def Selector.Fits : Selector → Nat → Ty → Prop
  | .member _, d, _ => d < 0x100000000
  | .element i, _, item => i = 0 ∨ item.slots < 0x100000000

/-- A word holds the distances of every step on a path. -/
def Ty.PathFits : Ty → List Selector → Prop
  | _, [] => True
  | ty, s :: path => ∀ d part, ty.part? id s = some (d, part) → s.Fits d part ∧ part.PathFits path

theorem Ty.part?_asWord (h : ty.part? asWord s = some (d, part)) :
    ∃ far, ty.part? id s = some (far, part) ∧ d ≤ far ∧ (d = far ↔ s.Fits far part) := by
  cases s with
  | member i =>
      obtain ⟨p, hp, rfl, rfl⟩ := part?_member.mp h
      exact ⟨_, part?_member.mpr ⟨p, hp, rfl, rfl⟩, asWord_le _, asWord_eq_iff⟩
  | element i =>
      obtain ⟨length, rfl, hlt, rfl⟩ := part?_element.mp h
      refine ⟨_, part?_element.mpr ⟨length, rfl, hlt, rfl⟩, ?_, ?_⟩
      · exact Nat.add_le_add_left (Nat.mul_le_mul_left i (asWord_le _)) 1
      · rw [Nat.add_left_cancel_iff, id, Selector.Fits]
        rcases Nat.eq_zero_or_pos i with rfl | hi
        · simp
        · rw [Nat.mul_left_cancel_iff hi, asWord_eq_iff, or_iff_right (Nat.ne_of_gt hi)]

/-- The place that cut distances lead to is at most as far as the part, and it is the place of the
part only if nothing was cut. -/
theorem Ty.select?_asWord {path : List Selector} (h : ty.select? asWord path = some (d, part)) :
    ∃ far, ty.select? id path = some (far, part) ∧ d ≤ far ∧ (d = far ↔ ty.PathFits path) := by
  induction path generalizing ty d with
  | nil =>
      obtain ⟨rfl, rfl⟩ := Prod.mk.inj (Option.some.inj h)
      exact ⟨0, rfl, Nat.le_refl 0, iff_of_true rfl trivial⟩
  | cons s path ih =>
      obtain ⟨d₁, d₂, mid, hmid, hrest, rfl⟩ := select?_cons.mp h
      obtain ⟨e₁, hstep, hle₁, hiff₁⟩ := part?_asWord hmid
      obtain ⟨e₂, hselect, hle₂, hiff₂⟩ := ih hrest
      refine ⟨e₁ + e₂, select?_cons.mpr ⟨e₁, e₂, mid, hstep, hselect, rfl⟩,
        Nat.add_le_add hle₁ hle₂, ?_⟩
      have hsum : d₁ + d₂ = e₁ + e₂ ↔ d₁ = e₁ ∧ d₂ = e₂ := by omega
      rw [hsum, hiff₁, hiff₂, PathFits]
      constructor
      · intro hfits d part hpart
        obtain ⟨rfl, rfl⟩ := Prod.mk.inj (Option.some.inj (hstep.symm.trans hpart))
        exact hfits
      · exact fun hfits => hfits e₁ mid hstep

/-- In a type of fewer than 2^32 slots no distance is cut. -/
theorem Ty.LabelsValid.pathFits {path : List Selector} (h : ty.LabelsValid)
    (hslots : ty.slots < 0x100000000) :
    ty.PathFits path := by
  induction path generalizing ty with
  | nil => exact trivial
  | cons s path ih =>
      intro d part hpart
      obtain ⟨hvalid, hle⟩ := h.part_inside hpart
      refine ⟨?_, ih hvalid (by omega)⟩
      cases s with
      | member i =>
          rw [Selector.Fits]
          omega
      | element i => exact .inr (by omega)

/-! ## Chains in code -/

/-- The place of a member with a name; the first of several equal names counts. -/
def Ty.memberIndex? (ty : Ty) (name : String) : Option Nat :=
  (placeFields 0 ty.memberFields).findIdx? fun p => sameName p.field.name name

theorem Ty.field?_eq_find? (ty : Ty) (name : String) :
    ty.field? name = (placeFields 0 ty.memberFields).find? fun p => sameName p.field.name name := by
  cases ty with
  | handle _ =>
      have hcomm : sameName name "value" = sameName "value" name := Bool.beq_comm
      simp only [field?, memberFields, Fields.ofList, List.foldr, placeFields, List.find?, hcomm]
      cases sameName "value" name <;> rfl
  | _ => rfl

theorem Ty.field?_of_memberIndex? {name : String} (h : ty.memberIndex? name = some i) :
    ∃ p, (placeFields 0 ty.memberFields)[i]? = some p ∧ ty.field? name = some p := by
  obtain ⟨hlt, hsame, hfirst⟩ := List.findIdx?_eq_some_iff_getElem.mp h
  refine ⟨_, List.getElem?_eq_getElem hlt, ?_⟩
  rw [field?_eq_find?, List.find?_eq_some_iff_getElem]
  exact ⟨hsame, i, hlt, rfl, fun j hj => by simpa using hfirst j hj⟩

def runAll (step : Statement → StorageState → Option StorageState) (code : List Statement)
    (state : StorageState) : Option StorageState := code.foldlM (fun state i => step i state) state

theorem runAll_append {step : Statement → StorageState → Option StorageState}
    {code code' : List Statement} {state : StorageState} :
    runAll step (code ++ code') state = (runAll step code state).bind (runAll step code') :=
  List.foldlM_append

/-- A machine that computes addresses: constants are pushed as words, a word can be added to an
address, and an element is found behind the count of its array. Nothing is asked of other
instructions. -/
structure ComputesAddresses (step : Statement → StorageState → Option StorageState) : Prop where
  push : ∀ v σ m, step (.pushInt v) ⟨σ, m⟩ = some ⟨.word (Word.ofInt v) :: σ, m⟩
  add : ∀ n a σ m, step (.op .iadd) ⟨.word n :: .place a :: σ, m⟩ =
    some ⟨.place (a + n.toNat) :: σ, m⟩
  element : ∀ k a i σ m, step (.op .array) ⟨.word k :: .place a :: .word i :: σ, m⟩ =
    some ⟨.place (a + 1 + i.toNat * k.toNat) :: σ, m⟩

section
variable {step : Statement → StorageState → Option StorageState} {layout : DataLayout}
  {root x y : TypedExpr}

/-- What the checker makes of a chain that begins at `root`, and the path it follows. The code of
each index ends with a word that is in range. It may change storage: the last index is computed
first. -/
inductive AccessChain (step : Statement → StorageState → Option StorageState) (layout : DataLayout)
    (root : TypedExpr) : TypedExpr → List Selector → (Nat → Word) → (Nat → Word) → Prop where
  | root {m} : AccessChain step layout root root [] m m
  | field {x y path m m' name span i} : AccessChain step layout root x path m m' →
      (Typing.field x name span).value? = some y → x.ty.memberIndex? name = some i →
      AccessChain step layout root y (path ++ [.member i]) m m'
  | index {x y index path m m' m'' span code k} : AccessChain step layout root x path m' m'' →
      (Typing.index x index span).value? = some y → Lowering.value layout index = .ok code →
      (∀ σ, runAll step code ⟨σ, m⟩ = some ⟨.word k :: σ, m'⟩) →
        (x.ty.element? k.toNat).isSome = true →
      AccessChain step layout root y (path ++ [.element k.toNat]) m m''

theorem Typing.field_value {name : String} {span : Span} {p : PlacedField}
    (hp : x.ty.field? name = some p) (h : (Typing.field x name span).value? = some y) :
    y = .field p.field.ty span x (UInt32.ofNat (p.offset / slotSize)) := by
  simp only [Typing.field, hp] at h
  split at h
  · exact (Option.some.inj h).symm
  · cases h

theorem Typing.index_value {index : TypedExpr} {span : Span} {item : Ty} {length : UInt32}
    (hty : x.ty = .array item length) (h : (Typing.index x index span).value? = some y) :
    y = .index item span x index (UInt32.ofNat item.slots) := by
  simp only [Typing.index, hty] at h
  split at h
  · cases h
  · split at h
    · cases h
    · exact (Option.some.inj h).symm

theorem ComputesAddresses.run_offset (hstep : ComputesAddresses step) (n : UInt32) (a : Nat)
    (σ : List Cell) (m : Nat → Word) :
    runAll step (Lowering.offset n) ⟨.place a :: σ, m⟩ = some ⟨.place (a + n.toNat) :: σ, m⟩ := by
  unfold Lowering.offset
  split
  · next hzero =>
      rw [hzero]
      rfl
  · rw [← List.singleton_append, runAll_append]
    simp only [runAll, List.foldlM_cons, List.foldlM_nil, hstep.push, Word.ofInt_natCast, hstep.add,
      Option.bind_eq_bind, Option.bind_some, Option.pure_def]

theorem ComputesAddresses.run_element (hstep : ComputesAddresses step) (k : UInt32) (a : Nat)
    (i : Word) (σ : List Cell) (m : Nat → Word) :
    runAll step [.pushInt k.toNat, .op .array] ⟨.place a :: .word i :: σ, m⟩ =
      some ⟨.place (a + 1 + i.toNat * k.toNat) :: σ, m⟩ := by
  simp only [runAll, List.foldlM_cons, List.foldlM_nil, hstep.push, Word.ofInt_natCast,
    hstep.element, Option.bind_eq_bind, Option.bind_some, Option.pure_def]

/-- The code of a chain finds the place that the cut distances on its path lead to. -/
theorem AccessChain.run (hstep : ComputesAddresses step) {a : Nat} {rootCode : List Statement}
    (hroot : Lowering.address layout root = .ok rootCode)
    (hrun : ∀ σ m, runAll step rootCode ⟨σ, m⟩ = some ⟨.place a :: σ, m⟩) {path : List Selector}
    {m m' : Nat → Word} (h : AccessChain step layout root x path m m') :
    ∃ d code, root.ty.select? asWord path = some (d, x.ty) ∧ Lowering.address layout x = .ok code ∧
      ∀ σ, runAll step code ⟨σ, m⟩ = some ⟨.place (a + d) :: σ, m'⟩ := by
  induction h with
  | root => exact ⟨0, rootCode, rfl, hroot, fun σ => hrun σ _⟩
  | @field x y path m m' name span i _ hy hi ih =>
      obtain ⟨d, code, hselect, hcode, hruns⟩ := ih
      obtain ⟨p, hp, hfield⟩ := Ty.field?_of_memberIndex? hi
      obtain rfl := Typing.field_value hfield hy
      have hpart : x.ty.part? asWord (.member i) =
          some (asWord (p.offset / slotSize), p.field.ty) :=
        Ty.part?_member.mpr ⟨p, hp, rfl, rfl⟩
      refine ⟨d + asWord (p.offset / slotSize), code ++
        Lowering.offset (UInt32.ofNat (p.offset / slotSize)),
        Ty.select?_concat hselect hpart, ?_, fun σ => ?_⟩
      · rw [Lowering.address, hcode]
        rfl
      · rw [runAll_append, hruns, Option.bind_some, hstep.run_offset, ← Nat.add_assoc]
        rfl
  | @index x y index path m m' m'' span indexCode k _ hy hindex hk hrange ih =>
      obtain ⟨d, code, hselect, hcode, hruns⟩ := ih
      -- the word of the index lies below the address while the rest of the chain is run
      obtain ⟨item, hitem⟩ := Option.isSome_iff_exists.mp hrange
      have hpart : x.ty.part? asWord (.element k.toNat) =
          some (1 + k.toNat * asWord item.slots, item) := by
        rw [Ty.part?, hitem]
        rfl
      obtain ⟨length, hty, -⟩ := Ty.part?_element.mp hpart
      obtain rfl := Typing.index_value hty hy
      refine ⟨d + (1 + k.toNat * asWord item.slots),
        indexCode ++ code ++ [.pushInt (UInt32.ofNat item.slots).toNat, .op .array],
        Ty.select?_concat hselect hpart, ?_, fun σ => ?_⟩
      · rw [Lowering.address, hindex, hcode]
        rfl
      · rw [runAll_append, runAll_append, hk, Option.bind_some, hruns, Option.bind_some,
          hstep.run_element, Nat.add_assoc a, Nat.add_assoc a, Nat.add_assoc d]
        rfl

end

/-! ## Exact slots -/

/-- The slots of a type and of everything in it are counted exactly. -/
structure Ty.SlotsExact (ty : Ty) : Prop where
  aligned : slotSize ∣ ty.size
  struct : ∀ name fields, ty = .struct name fields →
    ty.slots = slotsOf (fields.toList.map Field.ty) ∧
      (placeFields 0 fields).map PlacedField.field = fields.toList ∧
      ∀ i p, (placeFields 0 fields)[i]? = some p →
        slotSize ∣ p.offset ∧ p.offset / slotSize = slotsOf ((fields.toList.take i).map Field.ty)
  array : ∀ item length, ty = .array item length → ty.slots = 1 + length.toNat * item.slots
  inside : ∀ path d part, ty.select? id path = some (d, part) → d + part.slots ≤ ty.slots
  disjoint : ∀ front s s' back back' d d' part part', s ≠ s' →
    ty.select? id (front ++ s :: back) = some (d, part) →
    ty.select? id (front ++ s' :: back') = some (d', part') → d + part.slots ≤ d' ∨
      d' + part'.slots ≤ d

theorem Ty.LabelsValid.slotsExact (h : ty.LabelsValid) : ty.SlotsExact where
  aligned := ty.slotSize_dvd_size h
  struct := by
    rintro name fields rfl
    refine ⟨h.slots_struct, field_placeFields fields 0, fun i p hp => ?_⟩
    have hoffset := Fields.LabelsValid.offset_eq h 0 i hp
    rw [Nat.zero_add] at hoffset
    rw [hoffset]
    exact ⟨Nat.dvd_mul_right _ _, Nat.mul_div_cancel_left _ (by decide)⟩
  array := by
    rintro item length rfl
    exact h.slots_array
  inside _ _ _ hselect := (h.select_inside hselect).2
  disjoint _ _ _ _ _ _ _ _ _ hs hselect hselect' := h.selects_disjoint hs hselect hselect'

/-- No part at any depth is larger than the whole. -/
theorem Ty.LabelsValid.size_select_le {path : List Selector} (h : ty.LabelsValid)
    (hselect : ty.select? id path = some (d, part)) : part.size ≤ ty.size := by
  obtain ⟨hvalid, hinside⟩ := h.select_inside hselect
  rw [← h.mul_slots, ← hvalid.mul_slots]
  exact Nat.mul_le_mul_left slotSize (Nat.le_of_add_left_le hinside)

/-- The size of a type comes out right exactly if 64 bits hold it. Then the same holds of all its
parts, and slots are counted exactly. The code of a chain ends with an address that is at most as
far into the whole as the part, and with the address of the part exactly if words hold the distances
on the way. They always do in a type of fewer than 2^32 slots. -/
theorem slots_exact {ty : Ty} (h : ty.LabelsValid) :
    (ty.wordSize.toNat = ty.size ↔ ty.size < 2 ^ 64) ∧
    (ty.size < 2 ^ 64 →
      (∀ path d part, ty.select? id path = some (d, part) → part.wordSize.toNat = part.size) ∧
      ty.SlotsExact ∧
      (∀ step layout root rootCode a, ComputesAddresses step → root.ty = ty →
        Lowering.address layout root = .ok rootCode →
        (∀ σ m, runAll step rootCode ⟨σ, m⟩ = some ⟨.place a :: σ, m⟩) →
        ∀ x path m m', AccessChain step layout root x path m m' →
          ∃ d reached code, ty.select? id path = some (d, x.ty) ∧
            Lowering.address layout x = .ok code ∧
            (∀ σ, runAll step code ⟨σ, m⟩ = some ⟨.place (a + reached) :: σ, m'⟩) ∧
            reached ≤ d ∧ (reached = d ↔ ty.PathFits path)) ∧
      (ty.slots < 0x100000000 → ∀ path, ty.PathFits path)) := by
  refine ⟨ty.toNat_wordSize_iff, fun hsize => ?_⟩
  refine ⟨fun path d part hselect => ?_, h.slotsExact, ?_, fun hslots path => h.pathFits hslots⟩
  · exact part.toNat_wordSize_iff.mpr (Nat.lt_of_le_of_lt (h.size_select_le hselect) hsize)
  rintro step layout root rootCode a hstep rfl hroot hrun x path m m' hchain
  obtain ⟨reached, code, hreached, hcode, hruns⟩ := hchain.run hstep hroot hrun
  obtain ⟨d, hselect, hle, hiff⟩ := Ty.select?_asWord hreached
  exact ⟨d, reached, code, hselect, hcode, hruns, hle, hiff⟩

def wagon : Ty :=
  .struct "WAGON" (.cons "load" (.textLabel 16) none (.cons "speed" .float none .nil))

def train : Ty :=
  .struct "TRAIN" (.cons "head" .vector none (.cons "wagons" (.array wagon 2) none .nil))

/-- The last wagon of a train that is the first thing in a frame. -/
def lastWagon : TypedExpr :=
  .index wagon {} (.field (.array wagon 2) {} (.frame train {} 0) 3) (.const .int {} (.int 1)) 5

/-- A machine that only computes addresses, with its frame at slot 5. -/
def addressStep (i : Statement) (s : StorageState) : Option StorageState :=
  if i = .op .local0 then some ⟨.place 5 :: s.stack, s.memory⟩
  else if i = .op .array then
    match s.stack with
    | .word k :: .place a :: .word n :: σ =>
        some ⟨.place (a + 1 + n.toNat * k.toNat) :: σ, s.memory⟩
    | _ => none
  else i.exec? s

theorem computesAddresses_addressStep : ComputesAddresses addressStep where
  push v σ m := by
    have hother (o : Opcode) (h : o.mnemonic ≠ Statement.pushMnemonic) :
        Statement.pushInt v ≠ .op o :=
      fun heq => h (Option.some.inj (congrArg Statement.mnemonic heq)).symm
    rw [addressStep, if_neg (hother _ (by decide)), if_neg (hother _ (by decide)),
      Statement.exec?_pushInt]
  add n a σ m := by
    rw [addressStep, if_neg (by decide), if_neg (by decide), Statement.exec?_op]
    rfl
  element k a i σ m := by
    rw [addressStep, if_neg (by decide), if_pos rfl]

/-- The speed of the last wagon is found at its place. What is found for the field behind the
overlong array is a slot of the array. -/
theorem slots_exact_train :
    train.LabelsValid ∧ train.slots = 14 ∧
      (∀ m, ∃ code, Lowering.address {} (.field .float {} lastWagon 4) = .ok code ∧
        runAll addressStep code ⟨[], m⟩ = some ⟨[.place (5 + 13)], m⟩) ∧
      overlong.LabelsValid ∧ overlong.select? id [.member 0] = some (0, .array .int 0xFFFFFFFF) ∧
      overlong.select? id [.member 1] = some (0x100000000, .int) ∧
      ∀ m, ∃ reached code, reached < (Ty.array .int 0xFFFFFFFF).slots ∧
        Lowering.address {} (.field .int {} (.frame overlong {} 0) 0) = .ok code ∧
        runAll addressStep code ⟨[], m⟩ = some ⟨[.place (5 + reached)], m⟩ := by
  have htrain : train.LabelsValid := ⟨trivial, ⟨rfl, trivial, trivial⟩, trivial⟩
  have hoverlong : overlong.LabelsValid := ⟨trivial, trivial, trivial⟩
  have hframe (σ : List Cell) (m : Nat → Word) :
      runAll addressStep [.op .local0] ⟨σ, m⟩ = some ⟨.place 5 :: σ, m⟩ := rfl
  have hone (σ : List Cell) (m : Nat → Word) :
      runAll addressStep [.pushInt 1] ⟨σ, m⟩ = some ⟨.word 1 :: σ, m⟩ := rfl
  have hslots : train.slots = 14 := by decide +kernel
  have hlast : overlong.select? id [.member 1] = some (0x100000000, .int) := rfl
  refine ⟨htrain, hslots, fun m => ?_, hoverlong, rfl, hlast, fun m => ?_⟩
  · obtain ⟨-, -, haddress, hfits⟩ := (slots_exact htrain).2 (by decide)
    have hwagons : (Typing.field (.frame train {} 0) "wagons" {}).value? =
        some (.field (.array wagon 2) {} (.frame train {} 0) 3) := rfl
    have hlastWagon : (Typing.index (.field (.array wagon 2) {} (.frame train {} 0) 3)
        (.const .int {} (.int 1)) {}).value? = some lastWagon := by
      have hint : (Ty.int != .int) = false := by decide +kernel
      simp only [Typing.index, TypedExpr.ty, hint]
      rfl
    have hspeed : (Typing.field lastWagon "speed" {}).value? =
      some (.field .float {} lastWagon 4) := rfl
    obtain ⟨d, reached, code, hselect, hcode, hruns, -, hiff⟩ :=
      haddress addressStep {} _ _ 5 computesAddresses_addressStep rfl rfl hframe _ _ m m
        (.field (.index (.field .root hwagons rfl) hlastWagon rfl (hone · m) rfl) hspeed rfl)
    have hspeedSlot : train.select? id [.member 1, .element 1, .member 1] = some (13, .float) := rfl
    obtain ⟨rfl, -⟩ := Prod.mk.inj (Option.some.inj (hselect.symm.trans hspeedSlot))
    obtain rfl := hiff.mpr (hfits (by rw [hslots]; decide) _)
    exact ⟨code, hcode, hruns []⟩
  · obtain ⟨-, -, haddress, -⟩ := (slots_exact hoverlong).2 (by decide)
    have hlastField : (Typing.field (.frame overlong {} 0) "last" {}).value? =
        some (.field .int {} (.frame overlong {} 0) 0) := rfl
    obtain ⟨d, reached, code, hselect, hcode, hruns, hle, hiff⟩ :=
      haddress addressStep {} _ _ 5 computesAddresses_addressStep rfl rfl hframe _ _ m m
        (.field .root hlastField rfl)
    obtain ⟨rfl, -⟩ := Prod.mk.inj (Option.some.inj (hselect.symm.trans hlast))
    have hcut : reached ≠ 0x100000000 := fun heq =>
      Nat.lt_irrefl 0x100000000 (hiff.mp heq 0x100000000 .int rfl).1
    have hitems : (Ty.array .int 0xFFFFFFFF).slots = 0x100000000 := by decide +kernel
    exact ⟨reached, code, by omega, hcode, hruns []⟩

end GameScript
