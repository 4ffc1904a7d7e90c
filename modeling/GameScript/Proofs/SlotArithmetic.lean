import Mathlib.Algebra.Group.Nat.Defs
import GameScript.Proofs.DefaultWords

/-!
# Sizes in slots

Sizes and offsets are kept in bytes and storage is addressed in slots. Where the text labels in a
type have valid capacities, everything in it begins and ends at whole slots. Dividing by the size of
a slot then loses nothing: slots add up over the fields of a struct and over the items of an array
as bytes do.
-/
namespace GameScript

mutual

/-- Text labels in storage of this type have valid capacities. A signature takes one slot whatever
it mentions. -/
def Ty.LabelsValid : Ty → Prop
  | .textLabel n => Ty.isTextLabelLength n = true
  | .struct _ fields => fields.LabelsValid
  | .array item _ => item.LabelsValid
  | _ => True

def Fields.LabelsValid : Fields → Prop
  | .nil => True
  | .cons _ ty _ rest => ty.LabelsValid ∧ rest.LabelsValid

end

mutual

/-- Types of a program have valid text labels. -/
theorem Ty.labelsValid_of_wellFormed : (ty : Ty) → ty.WellFormed → ty.LabelsValid
  | .textLabel _, h => h
  | .struct _ fields, h => fields.labelsValid_of_wellFormed h
  | .array item _, h => item.labelsValid_of_wellFormed h
  | .void, _ | .int, _ | .float, _ | .bool, _ | .string, _ | .null, _ | .any, _ | .auto, _
  | .vector, _ | .handle _, _ | .enum _ _, _ | .function _ _, _ | .typeName _, _ => trivial

theorem Fields.labelsValid_of_wellFormed : (fields : Fields) → fields.WellFormed →
    fields.LabelsValid
  | .nil, _ => trivial
  | .cons _ ty _ rest, h => ⟨ty.labelsValid_of_wellFormed h.1, rest.labelsValid_of_wellFormed h.2.2⟩

end

mutual

theorem Ty.slotSize_dvd_size : (ty : Ty) → ty.LabelsValid → slotSize ∣ ty.size
  | .array item length, h =>
      Nat.dvd_add (Nat.dvd_refl slotSize)
        (Nat.dvd_mul_left_of_dvd (item.slotSize_dvd_size h) length.toNat)
  | .struct _ fields, h => fields.slotSize_dvd_size h
  | .textLabel n, h => by
      have hn : 8 ∣ n.toNat := Nat.dvd_of_mod_eq_zero (Ty.toNat_mod_of_isTextLabelLength h)
      exact Nat.dvd_trans (by decide : slotSize ∣ 8) hn
  | .handle _, _ | .enum _ _, _ | .function _ _, _ => Nat.dvd_refl slotSize
  | .void, _ | .int, _ | .float, _ | .bool, _ | .string, _ | .null, _ | .any, _ | .auto,
      _ | .vector, _ => by decide
  | .typeName _, _ => Nat.dvd_zero slotSize

theorem Fields.slotSize_dvd_size : (fields : Fields) → fields.LabelsValid → slotSize ∣ fields.size
  | .nil, _ => Nat.dvd_zero slotSize
  | .cons _ ty _ rest, h => Nat.dvd_add (ty.slotSize_dvd_size h.1) (rest.slotSize_dvd_size h.2)

end

theorem Ty.LabelsValid.mul_slots {ty : Ty} (h : ty.LabelsValid) : slotSize * ty.slots = ty.size :=
  mul_slotsFor (Nat.mod_eq_zero_of_dvd (ty.slotSize_dvd_size h))

/-! ## Words of 64 bits -/

mutual

/-- The size of a type as it comes out of arithmetic with words of 64 bits. -/
def Ty.wordSize : Ty → UInt64
  | .struct _ fields => fields.wordSize
  | .array item length => UInt64.ofNat slotSize + UInt64.ofNat length.toNat * item.wordSize
  | ty => UInt64.ofNat ty.size

def Fields.wordSize : Fields → UInt64
  | .nil => 0
  | .cons _ ty _ rest => ty.wordSize + rest.wordSize

end

mutual

/-- Cutting at every step leaves what cutting once at the end leaves. -/
theorem Ty.wordSize_eq : (ty : Ty) → ty.wordSize = UInt64.ofNat ty.size
  | .array item length => by
      have hsize : (Ty.array item length).size = slotSize + length.toNat * item.size := rfl
      rw [Ty.wordSize, item.wordSize_eq, hsize, UInt64.ofNat_add, UInt64.ofNat_mul]
  | .struct _ fields => fields.wordSize_eq
  | .void | .int | .float | .bool | .string | .null | .any | .auto | .vector | .handle _
  | .textLabel _ | .enum _ _ | .function _ _ | .typeName _ => rfl

theorem Fields.wordSize_eq : (fields : Fields) → fields.wordSize = UInt64.ofNat fields.size
  | .nil => rfl
  | .cons name ty init rest => by
      have hsize : (Fields.cons name ty init rest).size = ty.size + rest.size := rfl
      rw [Fields.wordSize, ty.wordSize_eq, rest.wordSize_eq, hsize, UInt64.ofNat_add]

end

/-- A size is computed exactly if 64 bits hold it. -/
theorem Ty.toNat_wordSize_iff (ty : Ty) : ty.wordSize.toNat = ty.size ↔ ty.size < 2 ^ 64 := by
  rw [ty.wordSize_eq, UInt64.toNat_ofNat']
  exact Nat.mod_eq_iff_lt (by decide)

/-! ## Structs and arrays -/

theorem Fields.LabelsValid.mul_slotsOf : {fields : Fields} → fields.LabelsValid →
    slotSize * slotsOf (fields.toList.map Field.ty) = fields.size
  | .nil, _ => rfl
  | .cons name ty init rest, h => by
      have hsize : (Fields.cons name ty init rest).size = ty.size + rest.size := rfl
      rw [Fields.toList, List.map_cons, slotsOf, Nat.mul_add, h.1.mul_slots, mul_slotsOf h.2, hsize]

theorem Ty.LabelsValid.slots_struct {name : String} {fields : Fields}
    (h : (Ty.struct name fields).LabelsValid) :
    (Ty.struct name fields).slots = slotsOf (fields.toList.map Field.ty) := by
  have hsize : (Ty.struct name fields).size = fields.size := rfl
  refine Nat.eq_of_mul_eq_mul_left (by decide : 0 < slotSize) ?_
  rw [h.mul_slots, hsize, Fields.LabelsValid.mul_slotsOf h]

theorem Ty.LabelsValid.slots_array {item : Ty} {length : UInt32}
    (h : (Ty.array item length).LabelsValid) :
    (Ty.array item length).slots = 1 + length.toNat * item.slots := by
  have hitem : slotSize * item.slots = item.size := Ty.LabelsValid.mul_slots h
  have hsize : (Ty.array item length).size = slotSize + length.toNat * item.size := rfl
  refine Nat.eq_of_mul_eq_mul_left (by decide : 0 < slotSize) ?_
  rw [h.mul_slots, hsize, Nat.mul_add, Nat.mul_one, Nat.mul_left_comm, hitem]

theorem field_placeFields : (fields : Fields) → (start : Nat) →
    (placeFields start fields).map PlacedField.field = fields.toList
  | .nil, _ => rfl
  | .cons name ty init rest, start => by
      rw [placeFields, List.map_cons, field_placeFields rest, Fields.toList]

/-- A field begins after the slots of the fields before it. -/
theorem Fields.LabelsValid.offset_eq : {fields : Fields} → fields.LabelsValid → (start i : Nat) →
    {p : PlacedField} → (placeFields start fields)[i]? = some p →
      p.offset = start + slotSize * slotsOf ((fields.toList.take i).map Field.ty)
  | .cons name ty init rest, h, start, 0, p, hp => by
      obtain rfl := Option.some.inj hp
      rfl
  | .cons name ty init rest, h, start, i + 1, p, hp => by
      have hrest := offset_eq h.2 (start + ty.size) i hp
      rw [hrest, Fields.toList, List.take_succ_cons, List.map_cons, slotsOf, Nat.mul_add,
        h.1.mul_slots, Nat.add_assoc]

/-- The slots before a later type include those of an earlier one. -/
theorem slotsOf_take_add_le {types : List Ty} {ty : Ty} {i j : Nat} (h : types[i]? = some ty)
    (hij : i < j) :
    slotsOf (types.take i) + ty.slots ≤ slotsOf (types.take j) := by
  obtain ⟨k, rfl⟩ := Nat.exists_eq_add_of_lt hij
  rw [Nat.add_right_comm, List.take_add, List.take_add_one, h, slotsOf_append, slotsOf_append]
  exact Nat.le_add_right _ _

end GameScript
