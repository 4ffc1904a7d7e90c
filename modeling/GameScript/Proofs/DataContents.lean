import GameScript.Proofs.ByteStrings
import GameScript.Proofs.GeneratedProgram

/-!
# Contents of data segments

The tree that fills a variable's region covers exactly the bytes of its type, so writing it neither
fails nor leaves a gap. This rests on two facts about checked programs: a literal that is not a text
goes only into types of one slot, and the defaults of struct fields are literals of that kind.
-/
namespace GameScript
namespace Init

/-! ## Writing -/

/-- A literal can be written into a region of `n` bytes: a text into any, anything else into a
slot. -/
def LiteralFits (v : Literal) (n : Nat) : Prop :=
  match v with
  | .text _ => True
  | _ => n = slotSize

mutual

def Fits : Init → Prop
  | zero _ => True
  | literal v n => LiteralFits v n
  | group children => AllFit children

def AllFit : List Init → Prop
  | [] => True
  | c :: rest => c.Fits ∧ AllFit rest

end

theorem length_fillText (s : String) (n : Nat) : (fillText s n).length = n := by
  have hkept : ((utf8Bytes s).take (n - 1)).length ≤ n := by
    rw [List.length_take]
    omega
  rw [fillText, List.length_append, List.length_replicate]
  omega

theorem write_word {v : Literal} {w : Word} {room : Nat} (ty : String) (hv : v.word? = some w)
    (hroom : slotSize ≤ room) : (literal v slotSize).write ty room = .ok w.toBytes := by
  cases v with
  | text s => cases hv
  | int _ | float _ | bool _ | null =>
      simp only [write, hv, ne_eq, not_true_eq_false, if_false, if_pos hroom]

theorem write_literal {v : Literal} {n room : Nat} (ty : String) (hfits : LiteralFits v n)
    (hroom : n ≤ room) : ∃ bs, (literal v n).write ty room = .ok bs ∧ bs.length = n := by
  cases v with
  | text s =>
      refine ⟨fillText s n, ?_, length_fillText s n⟩
      rw [write, if_pos hroom]
  | int _ | float _ | bool _ | null =>
      obtain rfl : n = slotSize := hfits
      exact ⟨_, write_word ty rfl hroom, Word.length_toBytes _⟩

mutual

/-- A tree that fits writes as many bytes as it covers. -/
theorem write_ok (ty : String) : (tree : Init) → (room : Nat) → tree.Fits → tree.size ≤ room →
    ∃ bs, tree.write ty room = .ok bs ∧ bs.length = tree.size
  | zero n, room, _, _ => by
      rw [write]
      exact ⟨_, rfl, List.length_replicate⟩
  | literal v n, room, hfits, hroom => write_literal ty hfits hroom
  | group children, room, hfits, hroom => by
      rw [write]
      exact writeAll_ok ty children room 0 hfits ((Nat.zero_add _).symm ▸ hroom)

theorem writeAll_ok (ty : String) : (children : List Init) → (room offset : Nat) → AllFit children →
    offset + sizes children ≤ room →
      ∃ bs, writeAll ty children room offset = .ok bs ∧ bs.length = sizes children
  | [], room, offset, _, _ => by
      rw [writeAll]
      exact ⟨[], rfl, rfl⟩
  | c :: rest, room, offset, hfits, hroom => by
      rw [sizes] at hroom
      obtain ⟨front, hfront, hlength⟩ := write_ok ty c (room - offset) hfits.1 (by omega)
      obtain ⟨back, hback, hlength'⟩ :=
        writeAll_ok ty rest room (offset + front.length) hfits.2 (by omega)
      rw [writeAll, if_neg (by omega), hfront, ok_bind, hback, sizes]
      exact ⟨front ++ back, rfl, by rw [List.length_append, hlength, hlength']⟩

end

/-! ## Trees of types -/

theorem allFit_replicate {tree : Init} (h : tree.Fits) (n : Nat) :
    AllFit (List.replicate n tree) := by
  induction n with
  | zero => exact trivial
  | succ n ih => exact ⟨h, ih⟩

theorem sizes_replicate (tree : Init) (n : Nat) :
    sizes (List.replicate n tree) = n * tree.size := by
  induction n with
  | zero => rw [Nat.zero_mul]; rfl
  | succ n ih => rw [List.replicate_succ, sizes, ih, Nat.succ_mul, Nat.add_comm]

theorem literalFits_of_fieldInitError {ty : Ty} {v : Literal} (h : fieldInitError? ty v = none) :
    LiteralFits v ty.size := by
  have hsize : ty.size = slotSize := by
    unfold fieldInitError? at h
    split at h
    · rfl
    · rfl
    · rfl
    · cases h
  cases v with
  | text s => exact trivial
  | int _ | float _ | bool _ | null => exact hsize

mutual

/-- The tree of a well-formed type fits, and covers the type. -/
theorem ofType_fits : (ty : Ty) → (init : Option Literal) → ty.WellFormed →
    (∀ v, init = some v → LiteralFits v ty.size) →
      (ofType ty init).Fits ∧ (ofType ty init).size = ty.size
  | .array item length, init, hty, _ => by
      unfold ofType
      have hsize : (Ty.array item length).size = slotSize + length.toNat * item.size := rfl
      have hitem := ofType_fits item none hty fun v hv => nomatch hv
      split
      · exact ⟨⟨rfl, trivial, trivial⟩, rfl⟩
      · refine ⟨⟨rfl, allFit_replicate hitem.1 _⟩, ?_⟩
        rw [size, sizes, size, sizes_replicate, hitem.2, hsize]
  | .struct _ fields, init, hty, _ => by
      rw [ofType]
      exact ofFields_fit fields hty
  | .void, init, _, hinit | .int, init, _, hinit | .float, init, _, hinit | .bool, init, _, hinit
  | .string, init, _, hinit | .null, init, _, hinit | .any, init, _, hinit | .auto, init, _, hinit
  | .vector, init, _, hinit | .handle _, init, _, hinit | .textLabel _, init, _, hinit
  | .enum _ _, init, _, hinit | .function _ _, init, _, hinit | .typeName _, init, _, hinit => by
      cases init with
      | none => exact ⟨trivial, rfl⟩
      | some v => exact ⟨hinit v rfl, rfl⟩

theorem ofFields_fit : (fields : Fields) → fields.WellFormed →
    AllFit (ofFields fields) ∧ sizes (ofFields fields) = fields.size
  | .nil, _ => ⟨trivial, rfl⟩
  | .cons name ty init rest, h => by
      have hfirst := ofType_fits ty init h.1 fun v hv => literalFits_of_fieldInitError (h.2.1 v hv)
      have hrest := ofFields_fit rest h.2.2
      have hsize : (Fields.cons name ty init rest).size = ty.size + rest.size := rfl
      rw [ofFields, sizes, hfirst.2, hrest.2, hsize]
      exact ⟨⟨hfirst.1, hrest.1⟩, rfl⟩

end

end Init

/-! ## Variables -/

namespace DataField

variable {f : DataField} {bs : Bytes}

/-- A region that cannot be allocated is not filled. -/
theorem bytes_of_limit_lt (h : allocationLimit < f.ty.size) : f.bytes = .error .capacityOverflow :=
  if_pos h

theorem bytes_of_write (hlimit : f.ty.size ≤ allocationLimit)
    (hwrite : f.tree.write f.ty.name f.ty.size = .ok bs) (hlength : bs.length = f.ty.size) :
    f.bytes = .ok bs := by
  simp only [bytes, if_neg (Nat.not_lt.mpr hlimit), hwrite, ok_bind, if_pos hlength]
  rfl

theorem bytes_of_write_error {e : EncodingError} (hlimit : f.ty.size ≤ allocationLimit)
    (hwrite : f.tree.write f.ty.name f.ty.size = .error e) : f.bytes = .error e := by
  simp only [bytes, if_neg (Nat.not_lt.mpr hlimit), hwrite]
  rfl

theorem size_of_bytes (h : f.bytes = .ok bs) :
    f.ty.size ≤ allocationLimit ∧ bs.length = f.ty.size := by
  unfold bytes at h
  dsimp only at h
  split at h
  · cases h
  · next hlimit =>
      obtain ⟨written, -, h⟩ := bind_eq_ok.mp h
      split at h
      · next hlength =>
          obtain rfl := Except.ok.inj h
          exact ⟨Nat.not_lt.mp hlimit, hlength⟩
      · cases h

end DataField

/-- What a one-slot value other than a text may be stored in has one slot. -/
theorem size_of_accepts {target source : Ty} (h : target.accepts source = true)
    (hsize : source.size = slotSize) (hstring : source ≠ .string)
    (hlabel : ∀ n, source ≠ .textLabel n) :
    target.size = slotSize := by
  unfold Ty.accepts at h
  rw [Bool.or_eq_true] at h
  rcases h with hsame | hrule
  · rw [Ty.beq_eq_same] at hsame
    rw [Ty.size_eq_of_same _ _ hsame, hsize]
  · split at hrule
    case h_6 n => exact absurd rfl (hlabel n)
    case h_10 n => exact absurd rfl (hlabel n)
    case h_11 => exact absurd rfl hstring
    all_goals first | rfl | contradiction

theorem literalFits_of_hasType {target ty : Ty} {v : Literal} (hv : v.HasType ty)
    (h : target.accepts ty = true) : Init.LiteralFits v target.size := by
  cases v with
  | text s => exact trivial
  | int i =>
      rcases hv with rfl | ⟨name, members, rfl⟩
      · exact size_of_accepts h rfl nofun nofun
      · exact size_of_accepts h rfl nofun nofun
  | float _ | bool _ | null =>
      obtain rfl : ty = _ := hv
      exact size_of_accepts h rfl nofun nofun

/-- A literal that may be stored in a variable fits its region. -/
theorem literalFits_of_wellTyped {Γ : TypingEnv} {target : Ty} {x : TypedExpr} {v : Literal}
    (hx : x.WellTyped Γ) (hadmits : target.Admits x.ty) (hv : x.literal? = some v) :
    Init.LiteralFits v target.size := by
  cases hx with
  | const h =>
      obtain rfl := Option.some.inj hv
      exact literalFits_of_hasType h hadmits.1
  | string =>
      obtain rfl := Option.some.inj hv
      exact trivial
  | _ => cases hv

end GameScript
