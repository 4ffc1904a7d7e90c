import Mathlib.Algebra.Group.Nat.Defs
import GameScript.Proofs.DataContents

/-!
# The bytes of a variable

The region of a variable is filled from a tree that follows its type. Here the result is described
for every type and every literal, also where the checker would not let the literal through: the tree
covers the type, none of the checks on the room that is left ever fails, the only error is that of a
literal which is not a text and does not stand in one slot, and otherwise the bytes of a struct or
an array are those of its parts, each where the layout of the type puts it. A variable that is too
large to be allocated gets no bytes.
-/
namespace GameScript
namespace Init

/-! ## Leaves -/

mutual

/-- The literals of a tree in the order in which they are written, each with the size of its
region. -/
def literals : Init → List (Literal × Nat)
  | zero _ => []
  | literal v n => [(v, n)]
  | group children => literalsAll children

def literalsAll : List Init → List (Literal × Nat)
  | [] => []
  | c :: rest => c.literals ++ literalsAll rest

end

mutual

/-- The bytes that a tree stands for. Nothing is checked, and a literal takes no account of its
region unless it is a text. -/
def contents : Init → Bytes
  | zero n => List.replicate n 0
  | literal (.text s) n => fillText s n
  | literal v _ => (v.word?.getD 0).toBytes
  | group children => contentsAll children

def contentsAll : List Init → Bytes
  | [] => []
  | c :: rest => c.contents ++ contentsAll rest

end

def LiteralsFit (ls : List (Literal × Nat)) : Prop := ∀ l ∈ ls, LiteralFits l.1 l.2

/-- The first literal that cannot be written where it stands has a region of `n` bytes. -/
def FirstMisfit (ls : List (Literal × Nat)) (n : Nat) : Prop :=
  ∃ front v back, ls = front ++ (v, n) :: back ∧ LiteralsFit front ∧ ¬ LiteralFits v n

mutual

/-- No check on the room fails while a tree is written where `room` bytes are left. Whatever stands
behind a region that cannot be written is not reached. -/
def ChecksPass (ty : String) : Init → Nat → Prop
  | zero _, _ => True
  | literal (.text _) n, room => n ≤ room
  | literal _ n, room => n = slotSize → slotSize ≤ room
  | group children, room => AllChecksPass ty children room 0

def AllChecksPass (ty : String) : List Init → Nat → Nat → Prop
  | [], _, _ => True
  | c :: rest, room, offset =>
    offset ≤ room ∧ c.ChecksPass ty (room - offset) ∧
      ∀ front, c.write ty (room - offset) = .ok front →
        AllChecksPass ty rest room (offset + front.length)

end

theorem literalFits_iff {v : Literal} {n : Nat} :
    LiteralFits v n ↔ ((∀ s, v ≠ .text s) → n = slotSize) := by
  cases v with
  | text s => exact ⟨fun _ h => absurd rfl (h s), fun _ => trivial⟩
  | int _ | float _ | bool _ | null => exact ⟨fun h _ => h, fun h => h nofun⟩

theorem literalsFit_append {ls ls' : List (Literal × Nat)} :
    LiteralsFit (ls ++ ls') ↔ LiteralsFit ls ∧ LiteralsFit ls' := List.forall_mem_append

theorem FirstMisfit.append_right {ls : List (Literal × Nat)} {n : Nat} (h : FirstMisfit ls n)
    (more : List (Literal × Nat)) : FirstMisfit (ls ++ more) n := by
  obtain ⟨front, v, back, rfl, hfront, hv⟩ := h
  exact ⟨front, v, back ++ more, List.append_assoc _ _ _, hfront, hv⟩

theorem FirstMisfit.append_left {ls : List (Literal × Nat)} {n : Nat} (h : FirstMisfit ls n)
    {before : List (Literal × Nat)} (hbefore : LiteralsFit before) :
    FirstMisfit (before ++ ls) n := by
  obtain ⟨front, v, back, rfl, hfront, hv⟩ := h
  exact ⟨before ++ front, v, back, (List.append_assoc _ _ _).symm,
    literalsFit_append.mpr ⟨hbefore, hfront⟩, hv⟩

theorem FirstMisfit.not_fit {ls : List (Literal × Nat)} {n : Nat} (h : FirstMisfit ls n) :
    ¬ LiteralsFit ls := by
  obtain ⟨front, v, back, rfl, -, hv⟩ := h
  exact fun hfit => hv (hfit (v, n) (List.mem_append_right front List.mem_cons_self))

/-! ## Writing -/

mutual

theorem length_contents : (tree : Init) → LiteralsFit tree.literals →
    tree.contents.length = tree.size
  | zero n, _ => List.length_replicate
  | literal v n, h => by
      have hv : LiteralFits v n := h (v, n) List.mem_cons_self
      cases v with
      | text s => exact length_fillText s n
      | int _ | float _ | bool _ | null => exact (Word.length_toBytes _).trans hv.symm
  | group children, h => length_contentsAll children h

theorem length_contentsAll : (children : List Init) → LiteralsFit (literalsAll children) →
    (contentsAll children).length = sizes children
  | [], _ => rfl
  | c :: rest, h => by
      obtain ⟨hfirst, hrest⟩ := literalsFit_append.mp h
      rw [contentsAll, List.length_append, length_contents c hfirst, length_contentsAll rest hrest,
        sizes]

end

theorem write_literal_cases (ty : String) (v : Literal) {n room : Nat} (hroom : n ≤ room) :
    LiteralFits v n ∧ (literal v n).write ty room = .ok (literal v n).contents ∨
      ¬ LiteralFits v n ∧ (literal v n).write ty room = .error (mismatch ty n slotSize) := by
  by_cases hv : LiteralFits v n
  · refine .inl ⟨hv, ?_⟩
    cases v with
    | text s => rw [write, if_pos hroom, contents]
    | int _ | float _ | bool _ | null =>
        obtain rfl : n = slotSize := hv
        exact write_word ty rfl hroom
  · refine .inr ⟨hv, ?_⟩
    cases v with
    | text s => exact absurd trivial hv
    | int _ | float _ | bool _ | null => exact if_pos hv

mutual

/-- A tree for which there is room either gives its bytes or fails at its first misfit. -/
theorem write_cases (ty : String) : (tree : Init) → (room : Nat) → tree.size ≤ room →
    LiteralsFit tree.literals ∧ tree.write ty room = .ok tree.contents ∨
      ∃ n, FirstMisfit tree.literals n ∧ tree.write ty room = .error (mismatch ty n slotSize)
  | zero n, room, _ => .inl ⟨fun _ h => absurd h List.not_mem_nil, by rw [write, contents]⟩
  | literal v n, room, hroom => by
      rcases write_literal_cases ty v hroom with ⟨hv, hwrite⟩ | ⟨hv, hwrite⟩
      · exact .inl ⟨List.forall_mem_singleton.mpr hv, hwrite⟩
      · exact .inr ⟨n, ⟨[], v, [], rfl, fun _ h => absurd h List.not_mem_nil, hv⟩, hwrite⟩
  | group children, room, hroom => by
      rw [write]
      exact writeAll_cases ty children room 0 ((Nat.zero_add _).symm ▸ hroom)

theorem writeAll_cases (ty : String) : (children : List Init) → (room offset : Nat) →
    offset + sizes children ≤ room →
    LiteralsFit (literalsAll children) ∧
      writeAll ty children room offset = .ok (contentsAll children) ∨
      ∃ n, FirstMisfit (literalsAll children) n ∧
        writeAll ty children room offset = .error (mismatch ty n slotSize)
  | [], room, offset, _ =>
      .inl ⟨fun _ h => absurd h List.not_mem_nil, by rw [writeAll, contentsAll]⟩
  | c :: rest, room, offset, hroom => by
      rw [sizes] at hroom
      rw [literalsAll, writeAll, if_neg (by omega)]
      rcases write_cases ty c (room - offset) (by omega) with ⟨hfit, hfront⟩ | ⟨n, hmisfit, herror⟩
      · have hlength := length_contents c hfit
        rw [hfront, ok_bind]
        rcases writeAll_cases ty rest room (offset + c.contents.length) (by omega) with
          ⟨hrest, hback⟩ | ⟨n, hmisfit, herror⟩
        · rw [hback, contentsAll]
          exact .inl ⟨literalsFit_append.mpr ⟨hfit, hrest⟩, rfl⟩
        · rw [herror]
          exact .inr ⟨n, hmisfit.append_left hfit, rfl⟩
      · rw [herror]
        exact .inr ⟨n, hmisfit.append_right _, rfl⟩

end

theorem length_of_write {ty : String} {tree : Init} {room : Nat} {bs : Bytes}
    (hroom : tree.size ≤ room) (h : tree.write ty room = .ok bs) : bs.length = tree.size := by
  rcases write_cases ty tree room hroom with ⟨hfit, hwrite⟩ | ⟨n, -, hwrite⟩
  · rw [hwrite] at h
    rw [← Except.ok.inj h, length_contents tree hfit]
  · rw [hwrite] at h
    cases h

mutual

/-- Where there is room for a tree, no check on the room fails. -/
theorem checksPass (ty : String) : (tree : Init) → (room : Nat) → tree.size ≤ room →
    tree.ChecksPass ty room
  | zero n, room, _ => trivial
  | literal v n, room, hroom => by
      cases v with
      | text s => exact hroom
      | int _ | float _ | bool _ | null => exact fun hn => hn ▸ hroom
  | group children, room, hroom => allChecksPass ty children room 0 ((Nat.zero_add _).symm ▸ hroom)

theorem allChecksPass (ty : String) : (children : List Init) → (room offset : Nat) →
    offset + sizes children ≤ room → AllChecksPass ty children room offset
  | [], room, offset, _ => trivial
  | c :: rest, room, offset, hroom => by
      rw [sizes] at hroom
      refine ⟨by omega, checksPass ty c (room - offset) (by omega), fun front hfront => ?_⟩
      have hlength := length_of_write (by omega) hfront
      exact allChecksPass ty rest room (offset + front.length) (by omega)

end

/-! ## Trees of types -/

mutual

/-- The tree of a type covers the type. -/
theorem size_ofType : (ty : Ty) → (init : Option Literal) → (ofType ty init).size = ty.size
  | .array item length, init => by
      have hsize : (Ty.array item length).size = slotSize + length.toNat * item.size := rfl
      unfold ofType
      split
      · rfl
      · rw [size, sizes, size, sizes_replicate, size_ofType item none, hsize]
  | .struct _ fields, init => by
      rw [ofType]
      exact sizes_ofFields fields
  | .void, init | .int, init | .float, init | .bool, init | .string, init | .null, init | .any, init
  | .auto, init | .vector, init | .handle _, init | .textLabel _, init | .enum _ _, init
  | .function _ _, init | .typeName _, init => by cases init <;> rfl

theorem sizes_ofFields : (fields : Fields) → sizes (ofFields fields) = fields.size
  | .nil => rfl
  | .cons name ty init rest => by
      have hsize : (Fields.cons name ty init rest).size = ty.size + rest.size := rfl
      rw [ofFields, sizes, size_ofType ty init, sizes_ofFields rest, hsize]

end

theorem contentsAll_replicate (tree : Init) (n : Nat) :
    contentsAll (List.replicate n tree) = (List.replicate n tree.contents).flatten := by
  induction n with
  | zero => rfl
  | succ n ih => rw [List.replicate_succ, contentsAll, ih, List.replicate_succ, List.flatten_cons]

theorem ofType_array {item : Ty} (hitem : item ≠ .auto) (length : UInt32) (init : Option Literal) :
    ofType (.array item length) init =
      group (literal (.int (Int32.ofNat length.toNat)) slotSize ::
        List.replicate length.toNat (ofType item none)) := by
  rw [ofType]
  exact hitem

/-- An array is its count and then its items, those of a type still to be inferred as well. -/
theorem contents_array (item : Ty) (length : UInt32) (init : Option Literal) :
    (ofType (.array item length) init).contents =
      Word.toBytes length ++ (List.replicate length.toNat (ofType item none).contents).flatten := by
  have hcount (rest : List Init) :
      (group (literal (.int (Int32.ofNat length.toNat)) slotSize :: rest)).contents =
        Word.toBytes length ++ contentsAll rest := by
    have hword : (Literal.int (Int32.ofNat length.toNat)).word?.getD 0 = length := by
      simp [Literal.word?]
    exact congrArg (fun w => Word.toBytes w ++ contentsAll rest) hword
  by_cases hitem : item = .auto
  · subst hitem
    have hzeros : (ofType .auto none).contents = List.replicate slotSize 0 := rfl
    rw [ofType, hcount, contentsAll, contentsAll, contents, hzeros,
      List.flatten_replicate_replicate, List.append_nil]
  · rw [ofType_array hitem, hcount, contentsAll_replicate]

/-- If there is an item, the literals of an array fit only if those of an item do. -/
theorem literalsFit_item {item : Ty} {length : UInt32} {init : Option Literal}
    (h : LiteralsFit (ofType (.array item length) init).literals) (hpos : 0 < length.toNat) :
    LiteralsFit (ofType item none).literals := by
  by_cases hitem : item = .auto
  · subst hitem
    exact fun _ h => absurd h List.not_mem_nil
  · obtain ⟨n, hn⟩ := Nat.exists_eq_succ_of_ne_zero (Nat.pos_iff_ne_zero.mp hpos)
    rw [ofType_array hitem, hn, List.replicate_succ, literals, literalsAll, literalsAll] at h
    exact (literalsFit_append.mp (literalsFit_append.mp h).2).1

/-! ## Parts of a region -/

/-- No field is larger than its struct. -/
theorem size_le_of_placeFields {p : PlacedField} : (fields : Fields) → (start : Nat) →
    p ∈ placeFields start fields → p.field.ty.size ≤ fields.size
  | .nil, _, h => absurd h List.not_mem_nil
  | .cons name ty init rest, start, h => by
      have hsize : (Fields.cons name ty init rest).size = ty.size + rest.size := rfl
      rw [hsize]
      rcases List.mem_cons.mp h with rfl | h
      · exact Nat.le_add_right _ _
      · exact Nat.le_add_left_of_le (size_le_of_placeFields rest _ h)

/-- No item is larger than its array. -/
theorem size_item_le {item : Ty} {length : UInt32} (h : 0 < length.toNat) :
    item.size ≤ (Ty.array item length).size :=
  Nat.le_add_left_of_le (Nat.le_mul_of_pos_left _ h)

/-- The bytes of a field are a stretch of the bytes of its struct, from the field's offset on. The
recursion is on the fields; `front` are the bytes before them. -/
theorem slice_placeFields : (fields : Fields) → (front : Bytes) →
    LiteralsFit (literalsAll (ofFields fields)) →
    ∀ p ∈ placeFields front.length fields, LiteralsFit (ofType p.field.ty p.field.init).literals ∧
      ((front ++ contentsAll (ofFields fields)).drop p.offset).take p.field.ty.size =
        (ofType p.field.ty p.field.init).contents
  | .nil, _, _, p, hp => absurd hp List.not_mem_nil
  | .cons name ty init rest, front, h, p, hp => by
      obtain ⟨hfirst, hrest⟩ := literalsFit_append.mp h
      have hlength : (ofType ty init).contents.length = ty.size := by
        rw [length_contents _ hfirst, size_ofType]
      rw [ofFields, contentsAll]
      rcases List.mem_cons.mp hp with rfl | hp
      · rw [List.drop_left, List.take_left' hlength]
        exact ⟨hfirst, rfl⟩
      · rw [← hlength, ← List.length_append] at hp
        rw [← List.append_assoc]
        exact slice_placeFields rest (front ++ (ofType ty init).contents) hrest p hp

/-- The bytes of each of several equal parts. -/
theorem slice_replicate (front bs : Bytes) {n i : Nat} (hi : i < n) :
    ((front ++ (List.replicate n bs).flatten).drop
      (front.length + i * bs.length)).take bs.length = bs := by
  have hsplit :
      List.replicate n bs = List.replicate i bs ++ bs :: List.replicate (n - i - 1) bs := by
    rw [← List.replicate_succ, List.replicate_append_replicate]
    congr 1
    omega
  have hbefore : i * bs.length = (List.replicate i bs).flatten.length := by
    rw [List.length_flatten, List.map_replicate, List.sum_replicate_nat]
  rw [List.drop_length_add_append, hsplit, List.flatten_append, List.flatten_cons, hbefore,
    List.drop_left, List.take_left]

end Init

/-! ## Regions of variables -/

namespace DataField

variable {f : DataField} {bs : Bytes}

theorem bytes_cases (hlimit : f.ty.size ≤ allocationLimit) :
    Init.LiteralsFit f.tree.literals ∧ f.bytes = .ok f.tree.contents ∨
      ∃ n, Init.FirstMisfit f.tree.literals n ∧
        f.bytes = .error (.staticSizeMismatch f.ty.name n slotSize) := by
  have hsize : f.tree.size = f.ty.size := Init.size_ofType f.ty f.init
  have hcases := Init.write_cases f.ty.name f.tree f.ty.size (Nat.le_of_eq hsize)
  rcases hcases with ⟨hfit, hwrite⟩ | ⟨n, hmisfit, herror⟩
  · have hlength : f.tree.contents.length = f.ty.size := (Init.length_contents _ hfit).trans hsize
    exact .inl ⟨hfit, bytes_of_write hlimit hwrite hlength⟩
  · exact .inr ⟨n, hmisfit, bytes_of_write_error hlimit herror⟩

theorem bytes_eq_ok_iff : f.bytes = .ok bs ↔
    f.ty.size ≤ allocationLimit ∧ Init.LiteralsFit f.tree.literals ∧ bs = f.tree.contents := by
  by_cases hlimit : f.ty.size ≤ allocationLimit
  · rcases bytes_cases hlimit with ⟨hfit, hbytes⟩ | ⟨n, hmisfit, hbytes⟩
    · rw [hbytes, Except.ok.injEq]
      exact ⟨fun h => ⟨hlimit, hfit, h.symm⟩, fun h => h.2.2.symm⟩
    · rw [hbytes]
      exact ⟨nofun, fun h => absurd h.2.1 hmisfit.not_fit⟩
  · rw [bytes_of_limit_lt (Nat.not_le.mp hlimit)]
    exact ⟨nofun, fun h => absurd h.1 hlimit⟩

/-- What the region of a variable holds, part by part. -/
structure Filled (f : DataField) (bs : Bytes) : Prop where
  length : bs.length = f.ty.size
  /-- A field of a struct is filled as a variable of its own, from the field's own default. -/
  struct : ∀ name fields, f.ty = .struct name fields → ∀ p ∈ placeFields 0 fields, ∀ part isArg,
    bytes ⟨part, p.field.ty, p.field.init, isArg⟩ = .ok ((bs.drop p.offset).take p.field.ty.size)
  /-- An item of an array is filled as a variable without a literal. -/
  array : ∀ item (length : UInt32), f.ty = .array item length →
    bs.take slotSize = leBytes 4 length.toNat ∧ ∀ i < length.toNat, ∀ part isArg,
      bytes ⟨part, item, none, isArg⟩ = .ok ((bs.drop (slotSize + i * item.size)).take item.size)
  text : ∀ s n, f.tree = .literal (.text s) n → 0 < n →
    bs = (utf8Bytes s).take (min (utf8Bytes s).length (n - 1)) ++
      List.replicate (n - min (utf8Bytes s).length (n - 1)) 0

theorem filled_of_bytes (h : f.bytes = .ok bs) : f.Filled bs := by
  obtain ⟨hlimit, hfit, rfl⟩ := bytes_eq_ok_iff.mp h
  constructor
  case length => exact (Init.length_contents _ hfit).trans (Init.size_ofType f.ty f.init)
  case struct =>
    intro name fields hty p hp part isArg
    have htree : f.tree = .group (Init.ofFields fields) := by rw [tree, hty, Init.ofType]
    rw [htree] at hfit ⊢
    rw [hty] at hlimit
    obtain ⟨hpart, hslice⟩ := Init.slice_placeFields fields [] hfit p hp
    have hsmall := Nat.le_trans (Init.size_le_of_placeFields fields 0 hp) hlimit
    exact bytes_eq_ok_iff.mpr ⟨hsmall, hpart, hslice⟩
  case array =>
    intro item length hty
    have htree : f.tree = Init.ofType (.array item length) f.init := by rw [tree, hty]
    rw [hty] at hlimit
    rw [htree] at hfit
    rw [htree, Init.contents_array]
    refine ⟨List.take_left' (Word.length_toBytes length), fun i hi part isArg => ?_⟩
    have hitem := Init.literalsFit_item hfit (Nat.zero_lt_of_lt hi)
    have hsize : (Init.ofType item none).contents.length = item.size := by
      rw [Init.length_contents _ hitem, Init.size_ofType]
    have hsmall := Nat.le_trans (Init.size_item_le (Nat.zero_lt_of_lt hi)) hlimit
    refine bytes_eq_ok_iff.mpr ⟨hsmall, hitem, ?_⟩
    have hslice := Init.slice_replicate (Word.toBytes length) (Init.ofType item none).contents hi
    rw [hsize] at hslice
    exact hslice
  case text =>
    intro s n htree hn
    have hkept : (utf8Bytes s).take (n - 1) =
        (utf8Bytes s).take (min (utf8Bytes s).length (n - 1)) := by
      rw [Nat.min_comm, List.take_eq_take_min]
    rw [htree, Init.contents, Init.fillText, hkept, List.length_take,
      Nat.min_eq_left (Nat.min_le_left _ _)]

/-- The tree that fills a variable covers its type, and none of the checks on the room or on the
length of the whole ever fails. There is no error unless a literal that is not a text has a region
of another size than one slot, and then the first of these decides it. Otherwise the region is
filled as the layout of the type says. This holds of every variable that can be allocated; any other
one whose size can be counted at all is refused before it is filled. -/
theorem bytes_exact (f : DataField) :
    (f.ty.size ≤ allocationLimit →
      f.tree.size = f.ty.size ∧
      f.tree.ChecksPass f.ty.name f.ty.size ∧
      (∀ bs, f.tree.write f.ty.name f.ty.size = .ok bs → bs.length = f.ty.size) ∧
      ((∃ bs, f.bytes = .ok bs) ↔
        ∀ v n, (v, n) ∈ f.tree.literals → (∀ s, v ≠ .text s) → n = slotSize) ∧
      (∀ e, f.bytes = .error e →
        ∃ n, Init.FirstMisfit f.tree.literals n ∧ e = .staticSizeMismatch f.ty.name n slotSize) ∧
      ∀ bs, f.bytes = .ok bs → f.Filled bs) ∧
    (allocationLimit < f.ty.size → f.ty.size < 2 ^ 64 → f.bytes = .error .capacityOverflow) := by
  have hsize : f.tree.size = f.ty.size := Init.size_ofType f.ty f.init
  refine ⟨fun hlimit => ?_, fun hlimit _ => bytes_of_limit_lt hlimit⟩
  refine ⟨hsize, Init.checksPass _ _ _ (Nat.le_of_eq hsize), fun bs hbs => ?_, ?_, fun e he => ?_,
    fun bs => filled_of_bytes⟩
  · exact (Init.length_of_write (Nat.le_of_eq hsize) hbs).trans hsize
  · simp only [bytes_eq_ok_iff, exists_and_left, exists_eq, and_true, Init.LiteralsFit,
      Init.literalFits_iff, Prod.forall, hlimit, true_and]
  · rcases bytes_cases hlimit with ⟨-, hbytes⟩ | ⟨n, hmisfit, hbytes⟩
    · rw [hbytes] at he
      cases he
    · rw [hbytes] at he
      exact ⟨n, hmisfit, (Except.error.inj he).symm⟩

/-- A struct of a text that is cut, an array of structs with defaults, and a default behind it. -/
def stopField : DataField :=
  let mark := Ty.struct "MARK" (.cons "id" .int (some (.int 5)) (.cons "place" .vector none .nil))
  { name := "stop"
    ty := .struct "STOP" (.cons "title" (.textLabel 8) (some (.text "HARBOUR 7"))
      (.cons "marks" (.array mark 2) none (.cons "open" .bool (some (.bool true)) .nil))) }

def anchorField : DataField := { name := "anchor", ty := .vector, init := some (.int 1) }

/-- A number that does not fit a vector, before an array of 2^63 bytes and its count. -/
def oceanField : DataField where
  name := "ocean"
  ty := .struct "OCEAN" (.cons "anchor" .vector (some (.int 1))
    (.cons "depths" (.array (.array .int 0xFFFFFFFF) 0x20000000) none .nil))

theorem bytes_exact_stop :
    (∃ bs, stopField.bytes = .ok bs ∧
      bs = [72, 65, 82, 66, 79, 85, 82, 0, 2, 0, 0, 0, 5, 0, 0, 0, 0, 0, 0, 0, 0, 0, 0, 0, 0, 0, 0,
        0, 5, 0, 0, 0, 0, 0, 0, 0, 0, 0, 0, 0, 0, 0, 0, 0, 1, 0, 0, 0] ∧ stopField.Filled bs) ∧
    stopField.tree.ChecksPass "STOP" 48 ∧
    anchorField.bytes = .error (.staticSizeMismatch "VECTOR" 12 4) ∧
    Init.FirstMisfit anchorField.tree.literals 12 ∧ (¬ ∃ bs, anchorField.bytes = .ok bs) ∧
    oceanField.bytes = .error .capacityOverflow := by
  have heval : stopField.bytes.toOption =
      some [72, 65, 82, 66, 79, 85, 82, 0, 2, 0, 0, 0, 5, 0, 0, 0, 0, 0, 0, 0, 0, 0, 0, 0, 0, 0, 0,
        0, 5, 0, 0, 0, 0, 0, 0, 0, 0, 0, 0, 0, 0, 0, 0, 0, 1, 0, 0, 0] := by
    decide +kernel
  have hbytes := ok_of_toOption heval
  obtain ⟨-, hchecks, -, -, -, hfilled⟩ := (bytes_exact stopField).1 (by decide)
  obtain ⟨-, -, -, hiff, herror, -⟩ := (bytes_exact anchorField).1 (by decide)
  have hfails : anchorField.bytes = .error (.staticSizeMismatch "VECTOR" 12 4) := rfl
  obtain ⟨n, hmisfit, hsame⟩ := herror _ hfails
  obtain rfl : 12 = n := (EncodingError.staticSizeMismatch.inj hsame).2.1
  have hocean : allocationLimit < oceanField.ty.size := by decide
  refine ⟨⟨_, hbytes, rfl, hfilled _ hbytes⟩, hchecks, hfails, hmisfit, fun hok => ?_,
    (bytes_exact oceanField).2 hocean (by decide)⟩
  have hslot := hiff.mp hok (.int 1) 12 List.mem_cons_self nofun
  cases hslot

end DataField
end GameScript
