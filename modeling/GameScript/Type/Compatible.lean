import GameScript.Type.Basic

/-!
# Comparing types

Types are compared by structure, with one exception: enums are the same type whenever their names
are, whatever their members. A struct often stands in many places, so two equal types are most often
one object; `==` gives the same answer as the comparison by structure, and gives it at once for
those.
-/
namespace GameScript

def sameInit : Option Literal → Option Literal → Bool
  | none, none => true
  | some a, some b => a.same b
  | _, _ => false

mutual

def Ty.same : Ty → Ty → Bool
  | .void, .void | .int, .int | .float, .float | .bool, .bool | .string, .string => true
  | .null, .null | .any, .any | .auto, .auto | .vector, .vector => true
  | .handle a, .handle b => a == b
  | .textLabel a, .textLabel b => a == b
  | .enum a _, .enum b _ => sameName a b
  | .struct a fields, .struct b others => a == b && fields.same others
  | .array a n, .array b m => a.same b && n == m
  | .function r ps, .function s qs => Ty.sameResult r s && Ty.sameList ps qs
  | .typeName a, .typeName b => a.same b
  | _, _ => false

/-- Whether two lists of fields agree place by place, names and defaults included. -/
def Fields.same : Fields → Fields → Bool
  | .nil, .nil => true
  | .cons n a i as, .cons m b j bs => n == m && a.same b && sameInit i j && as.same bs
  | _, _ => false

def Ty.sameResult : Option Ty → Option Ty → Bool
  | none, none => true
  | some a, some b => a.same b
  | _, _ => false

def Ty.sameList : List Ty → List Ty → Bool
  | [], [] => true
  | a :: as, b :: bs => a.same b && Ty.sameList as bs
  | _, _ => false

end

theorem Literal.same_refl (v : Literal) : v.same v = true := by
  cases v <;> simp [Literal.same, Binary32.same_refl]

theorem sameInit_refl (init : Option Literal) : sameInit init init = true := by
  cases init <;> simp [sameInit, Literal.same_refl]

mutual

theorem Ty.same_refl : (t : Ty) → t.same t = true
  | .void | .int | .float | .bool | .string | .null | .any | .auto | .vector => by simp [Ty.same]
  | .handle _ | .textLabel _ => by simp [Ty.same]
  | .enum _ _ => by simp [Ty.same, sameName]
  | .struct _ fields => by simp [Ty.same, fields.same_refl]
  | .array item _ => by simp [Ty.same, item.same_refl]
  | .function result params => by
    simp [Ty.same, Ty.sameResult_refl result, Ty.sameList_refl params]
  | .typeName named => by simp [Ty.same, named.same_refl]

theorem Fields.same_refl : (fields : Fields) → fields.same fields = true
  | .nil => by simp [Fields.same]
  | .cons _ ty init rest => by simp [Fields.same, ty.same_refl, sameInit_refl, rest.same_refl]

theorem Ty.sameResult_refl : (result : Option Ty) → Ty.sameResult result result = true
  | none => by simp [Ty.sameResult]
  | some t => by simp [Ty.sameResult, t.same_refl]

theorem Ty.sameList_refl : (ts : List Ty) → Ty.sameList ts ts = true
  | [] => by simp [Ty.sameList]
  | t :: rest => by simp [Ty.sameList, t.same_refl, Ty.sameList_refl rest]

end

/-- A comparison that is left out when both types are one object. -/
@[inline] def Ty.unlessShared (a b : Ty) (compare : Unit → { r : Bool // r = a.same b }) :
    { r : Bool // r = a.same b } :=
  ⟨withPtrEq a b (fun _ => (compare ()).val) fun h => by
    rw [(compare ()).property, h, Ty.same_refl], (compare ()).property⟩

mutual

/-- Whether two types are the same, without a look into parts that they share. -/
def Ty.sameShared : (a b : Ty) → { r : Bool // r = a.same b }
  | .struct a fields, .struct b others =>
    ⟨a == b && (fields.sameShared others).val, by rw [(fields.sameShared others).property, Ty.same]⟩
  | .array a n, .array b m =>
    let items := Ty.unlessShared a b fun _ => a.sameShared b
    ⟨items.val && n == m, by rw [items.property, Ty.same]⟩
  | .function r ps, .function s qs =>
    ⟨(Ty.sameResultShared r s).val && (Ty.sameListShared ps qs).val, by
      rw [(Ty.sameResultShared r s).property, (Ty.sameListShared ps qs).property, Ty.same]⟩
  | .typeName a, .typeName b =>
    let named := Ty.unlessShared a b fun _ => a.sameShared b
    ⟨named.val, by rw [named.property, Ty.same]⟩
  | a, b => ⟨a.same b, rfl⟩
termination_by structural a => a

def Fields.sameShared : (as bs : Fields) → { r : Bool // r = as.same bs }
  | .cons n a i as, .cons m b j bs =>
    let types := Ty.unlessShared a b fun _ => a.sameShared b
    ⟨n == m && types.val && sameInit i j && (as.sameShared bs).val, by
      rw [types.property, (as.sameShared bs).property, Fields.same]⟩
  | as, bs => ⟨as.same bs, rfl⟩
termination_by structural as => as

def Ty.sameResultShared : (r s : Option Ty) → { b : Bool // b = Ty.sameResult r s }
  | some a, some b =>
    let types := Ty.unlessShared a b fun _ => a.sameShared b
    ⟨types.val, by rw [types.property, Ty.sameResult]⟩
  | r, s => ⟨Ty.sameResult r s, rfl⟩
termination_by structural r => r

def Ty.sameListShared : (as bs : List Ty) → { r : Bool // r = Ty.sameList as bs }
  | a :: as, b :: bs =>
    let types := Ty.unlessShared a b fun _ => a.sameShared b
    ⟨types.val && (Ty.sameListShared as bs).val, by
      rw [types.property, (Ty.sameListShared as bs).property, Ty.sameList]⟩
  | as, bs => ⟨Ty.sameList as bs, rfl⟩
termination_by structural as => as

end

instance : BEq Ty := ⟨fun a b => (Ty.unlessShared a b fun _ => a.sameShared b).val⟩

theorem Ty.beq_eq_same (a b : Ty) : (a == b) = a.same b :=
  (Ty.unlessShared a b fun _ => a.sameShared b).property

namespace Ty

/-- Whether a value of type `source` may be stored where `target` is expected. -/
def accepts (target source : Ty) : Bool :=
  target == source ||
    match target, source with
    | int, null | float, null | bool, null | string, null => true
    | bool, int => true
    | string, textLabel _ => true
    | any, t => t.size == slotSize
    | handle _, null => true
    | handle .entity, handle kind => kind.isEntity
    | textLabel _, textLabel _ | textLabel _, string => true
    | _, _ => false

end Ty
end GameScript
