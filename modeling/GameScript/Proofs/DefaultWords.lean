import GameScript.Proofs.DataContents

/-!
# The words of a fresh variable

What a variable of a type holds when no initializer is given is a list of words that follows the
type: an array is its count and then its items, a struct is its fields, and anything else is zeros.
The words are defined here by recursion on the type, and the tree that fills a static is shown to
write exactly them. That no code writes them for a type judged to need none is justified at the end:
they are all zero.
-/
namespace GameScript

mutual

/-- Text labels have valid capacities, and only numbers and booleans have defaults, none of them a
text. -/
def Ty.PlainDefaults : Ty → Prop
  | .textLabel n => Ty.isTextLabelLength n = true
  | .struct _ fields => fields.PlainDefaults
  | .array item _ => item.PlainDefaults
  | _ => True

def Fields.PlainDefaults : Fields → Prop
  | .nil => True
  | .cons _ ty init rest => ty.PlainDefaults ∧
      (∀ v, init = some v → (ty = .int ∨ ty = .float ∨ ty = .bool) ∧ ∀ s, v ≠ .text s) ∧
      rest.PlainDefaults

end

mutual

def Ty.defaultWords : Ty → List Word
  | .array item length => length :: (List.replicate length.toNat item.defaultWords).flatten
  | .struct _ fields => fields.defaultWords
  | ty => List.replicate ty.slots 0

def Fields.defaultWords : Fields → List Word
  | .nil => []
  | .cons _ _ (some v) rest => v.word?.getD 0 :: rest.defaultWords
  | .cons _ ty none rest => ty.defaultWords ++ rest.defaultWords

end

theorem Ty.toNat_mod_of_isTextLabelLength {n : UInt32} (h : Ty.isTextLabelLength n = true) :
    n.toNat % 8 = 0 := by
  simp only [isTextLabelLength, Bool.and_eq_true, beq_iff_eq] at h
  simpa using congrArg UInt32.toNat h.2

theorem mul_slotsFor {n : Nat} (h : n % slotSize = 0) : slotSize * slotsFor n = n := by
  simp only [slotsFor, slotSize] at h ⊢
  omega

theorem length_flatten_replicate {α : Type} (n : Nat) (xs : List α) :
    (List.replicate n xs).flatten.length = n * xs.length := by
  rw [List.length_flatten, List.map_replicate, List.sum_replicate_nat]

mutual

theorem Ty.length_defaultWords : (ty : Ty) → ty.PlainDefaults →
    slotSize * ty.defaultWords.length = ty.size
  | .array item length, h => by
      have hitem := item.length_defaultWords h
      have hsize : (Ty.array item length).size = slotSize + length.toNat * item.size := rfl
      rw [Ty.defaultWords, List.length_cons, length_flatten_replicate, hsize, ← hitem, Nat.mul_succ,
        Nat.add_comm, Nat.mul_left_comm]
  | .struct _ fields, h => by
      rw [Ty.defaultWords]
      exact fields.length_defaultWords h
  | .textLabel n, h => by
      have hn := Ty.toNat_mod_of_isTextLabelLength h
      simp only [Ty.defaultWords, List.length_replicate]
      exact mul_slotsFor (n := n.toNat) (by rw [slotSize]; omega)
  | .handle _, _ | .enum _ _, _ | .function _ _, _ => by
      simp only [Ty.defaultWords, List.length_replicate]
      exact mul_slotsFor (n := slotSize) rfl
  | .void, _ | .int, _ | .float, _ | .bool, _ | .string, _ | .null, _ | .any, _ | .auto, _
  | .vector, _ | .typeName _, _ => by
      simp only [Ty.defaultWords, List.length_replicate]
      exact mul_slotsFor rfl

theorem Fields.length_defaultWords : (fields : Fields) → fields.PlainDefaults →
    slotSize * fields.defaultWords.length = fields.size
  | .nil, _ => rfl
  | .cons name ty (some v) rest, h => by
      have hty : ty.size = slotSize := by
        rcases (h.2.1 v rfl).1 with rfl | rfl | rfl <;> rfl
      have hsize : (Fields.cons name ty (some v) rest).size = ty.size + rest.size := rfl
      rw [Fields.defaultWords, List.length_cons, hsize, hty, ← rest.length_defaultWords h.2.2,
        Nat.mul_succ, Nat.add_comm]
  | .cons name ty none rest, h => by
      have hsize : (Fields.cons name ty none rest).size = ty.size + rest.size := rfl
      rw [Fields.defaultWords, List.length_append, hsize, ← ty.length_defaultWords h.1,
        ← rest.length_defaultWords h.2.2, Nat.mul_add]

end

/-! ## What a static holds -/

theorem bytesOfWords_cons (w : Word) (ws : List Word) :
    bytesOfWords (w :: ws) = w.toBytes ++ bytesOfWords ws := List.flatMap_cons

theorem bytesOfWords_append (ws ws' : List Word) :
    bytesOfWords (ws ++ ws') = bytesOfWords ws ++ bytesOfWords ws' := List.flatMap_append

theorem bytesOfWords_zeros (n : Nat) :
    bytesOfWords (List.replicate n 0) = List.replicate (slotSize * n) 0 := by
  induction n with
  | zero => rfl
  | succ n ih =>
      have hword : Word.toBytes 0 = List.replicate slotSize 0 := rfl
      rw [List.replicate_succ, bytesOfWords_cons, ih, hword, List.replicate_append_replicate,
        Nat.mul_succ, Nat.add_comm]

theorem bytesOfWords_flatten_replicate (n : Nat) (ws : List Word) :
    bytesOfWords (List.replicate n ws).flatten = (List.replicate n (bytesOfWords ws)).flatten := by
  induction n with
  | zero => rfl
  | succ n ih =>
      rw [List.replicate_succ, List.flatten_cons, bytesOfWords_append, ih, List.replicate_succ,
        List.flatten_cons]

theorem Literal.word?_of_not_text {v : Literal} (h : ∀ s, v ≠ .text s) :
    v.word? = some (v.word?.getD 0) := by
  cases v with
  | text s => exact absurd rfl (h s)
  | int _ | float _ | bool _ | null => rfl

namespace Init

/-- Equal regions back to back. -/
theorem writeAll_replicate {tree : Init} {ty : String} {bs : Bytes}
    (h : ∀ room, bs.length ≤ room → tree.write ty room = .ok bs) (n room offset : Nat)
    (hroom : offset + n * bs.length ≤ room) :
    writeAll ty (List.replicate n tree) room offset = .ok (List.replicate n bs).flatten := by
  induction n generalizing offset with
  | zero => rw [List.replicate_zero, writeAll]; rfl
  | succ n ih =>
      rw [Nat.succ_mul] at hroom
      rw [List.replicate_succ, writeAll, if_neg (by omega), h _ (by omega), ok_bind,
        ih (offset + bs.length) (by omega)]
      rfl

mutual

/-- The tree of a type without an initializer writes the words of the type. -/
theorem write_defaultWords (name : String) : (ty : Ty) → ty.PlainDefaults → (room : Nat) →
    ty.size ≤ room → (ofType ty none).write name room = .ok (bytesOfWords ty.defaultWords)
  | .array item length, h, room, hroom => by
      have hsize : (Ty.array item length).size = slotSize + length.toNat * item.size := rfl
      have hlen : (bytesOfWords item.defaultWords).length = item.size := by
        rw [length_bytesOfWords, item.length_defaultWords h]
      rw [hsize] at hroom
      have hfirst (rest : List Init) (bs : Bytes)
          (hrest : writeAll name rest room slotSize = .ok bs) :
          (group (literal (.int (Int32.ofNat length.toNat)) slotSize :: rest)).write name room =
            .ok (Word.toBytes length ++ bs) := by
        have hcount : (Literal.int (Int32.ofNat length.toNat)).word? = some length := by
          simp [Literal.word?]
        rw [write, writeAll, if_neg (Nat.not_lt_zero room), Nat.sub_zero,
          write_word name hcount (by omega), ok_bind, Word.length_toBytes, Nat.zero_add, ← slotSize,
            hrest]
        rfl
      rw [Ty.defaultWords, bytesOfWords_cons]
      unfold ofType
      dsimp only
      split
      · refine hfirst _ _ ?_
        have hauto : bytesOfWords Ty.auto.defaultWords = List.replicate slotSize 0 := rfl
        rw [writeAll, if_neg (by omega), write, ok_bind, writeAll, ok_bind,
          bytesOfWords_flatten_replicate, hauto, List.flatten_replicate_replicate, List.append_nil]
        rfl
      · refine hfirst _ _ ?_
        rw [bytesOfWords_flatten_replicate]
        refine writeAll_replicate (fun r hr => ?_) _ room slotSize (by rwa [hlen])
        exact write_defaultWords name item h r (hlen ▸ hr)
  | .struct _ fields, h, room, hroom => by
      rw [ofType, write, Ty.defaultWords]
      exact writeAll_defaultWords name fields h room 0 (by rwa [Nat.zero_add])
  | .void, h, room, _ | .int, h, room, _ | .float, h, room, _ | .bool, h, room, _
  | .string, h, room, _ | .null, h, room, _ | .any, h, room, _ | .auto, h, room, _
  | .vector, h, room, _ | .handle _, h, room, _ | .textLabel _, h, room, _
  | .enum _ _, h, room, _ | .function _ _, h, room, _ | .typeName _, h, room, _ => by
      have hsize := Ty.length_defaultWords _ h
      simp only [Ty.defaultWords, List.length_replicate] at hsize
      simp only [Ty.defaultWords, bytesOfWords_zeros, hsize, ofType, write]

theorem writeAll_defaultWords (name : String) : (fields : Fields) → fields.PlainDefaults →
    (room offset : Nat) → offset + fields.size ≤ room →
      writeAll name (ofFields fields) room offset = .ok (bytesOfWords fields.defaultWords)
  | .nil, _, room, offset, _ => by rw [ofFields, writeAll]; rfl
  | .cons fname ty (some v) rest, h, room, offset, hroom => by
      have hsize : (Fields.cons fname ty (some v) rest).size = slotSize + rest.size := by
        rcases (h.2.1 v rfl).1 with rfl | rfl | rfl <;> rfl
      have htree : ofType ty (some v) = literal v slotSize := by
        rcases (h.2.1 v rfl).1 with rfl | rfl | rfl <;> rfl
      have hword := Literal.word?_of_not_text (h.2.1 v rfl).2
      rw [hsize] at hroom
      rw [ofFields, writeAll, if_neg (by omega), htree, write_word name hword (by omega), ok_bind,
        Word.length_toBytes,
        writeAll_defaultWords name rest h.2.2 room _ (by rw [slotSize] at hroom; omega),
        Fields.defaultWords, bytesOfWords_cons]
      rfl
  | .cons fname ty none rest, h, room, offset, hroom => by
      have hsize : (Fields.cons fname ty none rest).size = ty.size + rest.size := rfl
      have hlen : (bytesOfWords ty.defaultWords).length = ty.size := by
        rw [length_bytesOfWords, ty.length_defaultWords h.1]
      rw [hsize] at hroom
      rw [ofFields, writeAll, if_neg (by omega), write_defaultWords name ty h.1 _ (by omega),
        ok_bind, hlen, writeAll_defaultWords name rest h.2.2 room _ (by omega), Fields.defaultWords,
        bytesOfWords_append]
      rfl

end

end Init

/-- The bytes of a static without an initializer are the words of its type. -/
theorem DataField.bytes_defaultWords (name : String) (isArg : Bool) {ty : Ty} (h : ty.PlainDefaults)
    (hlimit : ty.size ≤ allocationLimit) :
    DataField.bytes ⟨name, ty, none, isArg⟩ = .ok (bytesOfWords ty.defaultWords) := by
  have hlen : (bytesOfWords ty.defaultWords).length = ty.size := by
    rw [length_bytesOfWords, ty.length_defaultWords h]
  exact bytes_of_write hlimit (Init.write_defaultWords ty.name ty h ty.size (Nat.le_refl _)) hlen

theorem Ty.slots_defaultWords {ty : Ty} (h : ty.PlainDefaults) :
    ty.defaultWords.length = ty.slots := by
  have hlen := ty.length_defaultWords h
  simp only [Ty.slots, slotsFor, slotSize] at hlen ⊢
  omega

/-! ## Types that need no writing -/

mutual

theorem Ty.defaultWords_zero : (ty : Ty) → ty.needsDefaultInit = false →
    ∀ w ∈ ty.defaultWords, w = 0
  | .array _ _, h => nomatch h
  | .struct _ fields, h => by
      rw [Ty.defaultWords]
      exact fields.defaultWords_zero h
  | .void, _ | .int, _ | .float, _ | .bool, _ | .string, _ | .null, _ | .any, _ | .auto, _
  | .vector, _ | .handle _, _ | .textLabel _, _ | .enum _ _, _ | .function _ _, _
  | .typeName _, _ => by
      intro w hw
      simp only [Ty.defaultWords] at hw
      exact List.eq_of_mem_replicate hw

theorem Fields.defaultWords_zero : (fields : Fields) → fields.needDefaultInit = false →
    ∀ w ∈ fields.defaultWords, w = 0
  | .nil, _ => by simp only [Fields.defaultWords, List.not_mem_nil, false_implies, implies_true]
  | .cons name ty init rest, h => by
      have hneed : (Fields.cons name ty init rest).needDefaultInit =
        (init.isSome || ty.needsDefaultInit || rest.needDefaultInit) := rfl
      rw [hneed, Bool.or_eq_false_iff, Bool.or_eq_false_iff] at h
      obtain rfl := Option.not_isSome_iff_eq_none.mp (Bool.eq_false_iff.mp h.1.1)
      rw [Fields.defaultWords]
      intro w hw
      rcases List.mem_append.mp hw with hw | hw
      · exact ty.defaultWords_zero h.1.2 w hw
      · exact rest.defaultWords_zero h.2 w hw

end

end GameScript
