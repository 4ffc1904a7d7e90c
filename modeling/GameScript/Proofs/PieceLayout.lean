import GameScript.Code.Assemble
import GameScript.Proofs.ByteStrings

/-!
# A code buffer as a list of pieces

While code is written, a buffer holds zeros where addresses will stand and a fix-up for each of
them. Here that state is described by the list of pieces written so far: the bytes are those of the
pieces with blank addresses, and the fix-ups are the addresses among them, in order and at their
offsets. Resolving such a buffer fills each address in its place and changes nothing else, so the
final code is the pieces written with their addresses known. The description covers the fields of
four bytes that pieces have; how a field of another width is filled is left open.
-/
namespace GameScript

namespace Piece

def blank : Piece → Bytes
  | bytes value => value
  | address _ _ => List.replicate 4 0

/-- The bytes of a piece when the labels stand where `place` says. -/
def filled (place : String → Nat) : Piece → Bytes
  | bytes value => value
  | address key _ => leBytes 4 (place key)

/-- Whether the label of an address is defined, within the reach of four bytes. -/
def Placed (address? : String → Option Nat) : Piece → Prop
  | bytes _ => True
  | address key _ => ∃ ip, address? key = some ip ∧ ip < 0x100000000

@[simp] theorem length_blank (p : Piece) (place : String → Nat) :
    p.blank.length = (p.filled place).length := by
  cases p with
  | bytes value => rfl
  | address key name => rfl

end Piece

def filledAll (place : String → Nat) (ps : List Piece) : Bytes := ps.flatMap (Piece.filled place)

@[simp] theorem filledAll_nil (place : String → Nat) : filledAll place [] = [] := rfl

@[simp] theorem filledAll_cons (place : String → Nat) (p : Piece) (ps : List Piece) :
    filledAll place (p :: ps) = p.filled place ++ filledAll place ps := rfl

@[simp] theorem filledAll_append (place : String → Nat) (ps qs : List Piece) :
    filledAll place (ps ++ qs) = filledAll place ps ++ filledAll place qs :=
  List.flatMap_append

/-- What a fix-up says apart from the end of its instruction, which a field of four bytes does not
depend on. -/
structure OpenField where
  offset : Nat
  key : String
  name : String
  kind : FixupKind
deriving DecidableEq, Repr

def Fixup.field (f : Fixup) : OpenField := ⟨f.offset, f.key, f.name, f.kind⟩

def openFields (start : Nat) : List Piece → List OpenField
  | [] => []
  | .bytes value :: rest => openFields (start + value.length) rest
  | .address key name :: rest => ⟨start, key, name, .absolute32⟩ :: openFields (start + 4) rest

theorem openFields_append (start : Nat) (ps qs : List Piece) :
    openFields start (ps ++ qs) =
      openFields start ps ++ openFields (start + (ps.flatMap Piece.blank).length) qs := by
  induction ps generalizing start with
  | nil => rfl
  | cons p ps ih =>
      cases p with
      | bytes value =>
          simp only [List.cons_append, openFields, ih, List.flatMap_cons, Piece.blank,
            List.length_append, Nat.add_assoc]
      | address key name =>
          simp only [List.cons_append, openFields, ih, List.flatMap_cons, Piece.blank,
            List.length_append, List.length_replicate, Nat.add_assoc]

namespace CodeBuffer

/-- The buffer consists of exactly these pieces, none of them resolved. -/
structure Holds (b : CodeBuffer) (ps : List Piece) : Prop where
  code : b.code.toList = ps.flatMap Piece.blank
  fields : b.fixups.map Fixup.field = openFields 0 ps

theorem Holds.ip {b : CodeBuffer} {ps : List Piece} (h : b.Holds ps) :
    b.ip = (ps.flatMap Piece.blank).length := by
  rw [← h.code, CodeBuffer.ip, Array.length_toList]

theorem holds_empty : Holds {} [] := ⟨rfl, rfl⟩

theorem Holds.write {b : CodeBuffer} {ps : List Piece} (h : b.Holds ps) (bytes : Bytes) :
    (b.write bytes).Holds (ps ++ [.bytes bytes]) := by
  constructor
  · simp only [CodeBuffer.write, Array.toList_appendList, h.code, List.flatMap_append,
      List.flatMap_cons, List.flatMap_nil, Piece.blank, List.append_nil]
  · rw [openFields_append, openFields, openFields, List.append_nil]
    exact h.fields

theorem Holds.writeRef {b : CodeBuffer} {ps : List Piece} (h : b.Holds ps) (key name : String) :
    (b.writeRef key name .absolute32).Holds (ps ++ [.address key name]) := by
  constructor
  · simp only [CodeBuffer.writeRef, FixupKind.width, Array.toList_appendList, h.code,
      List.flatMap_append, List.flatMap_cons, List.flatMap_nil, Piece.blank, List.append_nil]
  · have hfields := h.fields
    simp only [fixups, List.map_reverse] at hfields
    simp only [fixups, CodeBuffer.writeRef, List.reverse_cons, List.map_append, List.map_reverse,
      hfields, openFields_append, openFields, Nat.zero_add, ← h.ip]
    rfl

theorem Holds.writePieces {b : CodeBuffer} {ps : List Piece} (h : b.Holds ps) (qs : List Piece) :
    (b.writePieces qs).Holds (ps ++ qs) := by
  induction qs generalizing b ps with
  | nil =>
      rw [List.append_nil]
      exact h
  | cons q qs ih =>
      rw [List.append_cons]
      cases q with
      | bytes value => exact ih (h.write value)
      | address key name => exact ih (h.writeRef key name)

theorem map_field_closeAll (ip : Nat) (fs : List Fixup) :
    (closeAll ip fs).map Fixup.field = fs.map Fixup.field := by
  induction fs with
  | nil => rfl
  | cons f fs ih =>
      cases hf : f.nextIp with
      | none => simp only [closeAll, hf, List.map_cons, ih, Fixup.field]
      | some n => simp only [closeAll, hf]

theorem Holds.endInstruction {b : CodeBuffer} {ps : List Piece} (h : b.Holds ps) :
    b.endInstruction.Holds ps := by
  refine ⟨h.code, ?_⟩
  rw [← h.fields]
  simp only [fixups, CodeBuffer.endInstruction, List.map_reverse, map_field_closeAll]

/-- Defining a label writes nothing. -/
theorem Holds.of_defineAt {b b' : CodeBuffer} {ps : List Piece} (h : b.Holds ps) {key : String}
    {ip : Nat} (hdefine : b.defineAt key ip = .ok b') : b'.Holds ps := by
  unfold defineAt at hdefine
  split at hdefine
  · contradiction
  · obtain rfl := Except.ok.inj hdefine
    exact ⟨h.code, h.fields⟩

end CodeBuffer

theorem toList_patch {code : Array UInt8} {front old rest : Bytes} (bs : Bytes)
    (hcode : code.toList = front ++ old ++ rest) (hlen : old.length = bs.length) :
    (patch code front.length bs).toList = front ++ bs ++ rest := by
  induction bs generalizing code front old with
  | nil =>
      rw [patch, hcode, List.eq_nil_of_length_eq_zero hlen]
  | cons b bs ih =>
      cases old with
      | nil => simp at hlen
      | cons o old =>
          have hset : (code.setIfInBounds front.length b).toList =
              (front ++ [b]) ++ old ++ rest := by
            rw [Array.toList_setIfInBounds, hcode, List.append_assoc,
              List.set_append_right _ _ (Nat.le_refl _)]
            simp only [Nat.sub_self, List.cons_append, List.set_cons_zero, List.append_assoc,
              List.nil_append]
          have hnext := ih hset (Nat.succ.inj hlen)
          rw [List.length_append, List.length_singleton] at hnext
          rw [patch]
          simpa only [List.append_assoc, List.singleton_append] using hnext

def fillField (address? : String → Option Nat) (code : Array UInt8) (f : Fixup) :
    Except EncodingError (Array UInt8) :=
  match address? f.key with
  | none => .error (.unresolvedLabel f.name)
  | some target => (f.fill target).map (patch code f.offset)

/-- A field of four bytes is filled exactly when its label is placed. -/
theorem fillField_ok {address? : String → Option Nat} {code code' : Array UInt8} {f : Fixup}
    (hkind : f.kind = .absolute32) (h : fillField address? code f = .ok code') :
    ∃ ip, address? f.key = some ip ∧ ip < 0x100000000 ∧
      code' = patch code f.offset (leBytes 4 ip) := by
  unfold fillField at h
  split at h
  · contradiction
  · next target htarget =>
      simp only [Fixup.fill, hkind] at h
      split at h
      · next hlt => exact ⟨target, htarget, hlt, (Except.ok.inj h).symm⟩
      · contradiction

/-- Filling the fields of pieces puts every address in its place. The induction is on the pieces
that are still blank; `front` are the bytes before them, which are final already. -/
theorem toList_of_fillFields {address? : String → Option Nat} {ps : List Piece}
    {fs : List Fixup} (front : Bytes) {code code' : Array UInt8}
    (hcode : code.toList = front ++ ps.flatMap Piece.blank)
    (hfields : fs.map Fixup.field = openFields front.length ps)
    (hfill : fs.foldlM (fillField address?) code = .ok code') :
    code'.toList = front ++ filledAll (fun key => (address? key).getD 0) ps ∧
      ∀ p ∈ ps, p.Placed address? := by
  induction ps generalizing fs front code with
  | nil =>
      obtain rfl : fs = [] := List.map_eq_nil_iff.mp hfields
      obtain rfl := Except.ok.inj hfill
      exact ⟨hcode, fun p hp => absurd hp List.not_mem_nil⟩
  | cons p ps ih =>
      cases p with
      | bytes value =>
          rw [List.flatMap_cons, ← List.append_assoc] at hcode
          rw [openFields, ← List.length_append] at hfields
          obtain ⟨hlist, hplaced⟩ := ih _ hcode hfields hfill
          refine ⟨by rw [hlist, List.append_assoc]; rfl, ?_⟩
          rw [List.forall_mem_cons]
          exact ⟨trivial, hplaced⟩
      | address key name =>
          cases fs with
          | nil => cases hfields
          | cons f fs =>
              rw [List.map_cons, openFields, List.cons.injEq] at hfields
              obtain ⟨hfield, hfields⟩ := hfields
              obtain ⟨hoffset, hkey, _, hkind⟩ := OpenField.mk.inj hfield
              rw [List.foldlM_cons] at hfill
              cases hfirst : fillField address? code f with
              | error e => rw [hfirst] at hfill; cases hfill
              | ok next =>
                  rw [hfirst] at hfill
                  obtain ⟨ip, hip, hlt, rfl⟩ := fillField_ok hkind hfirst
                  rw [hkey] at hip
                  rw [List.flatMap_cons, ← List.append_assoc] at hcode
                  have hpatch := toList_patch (leBytes 4 ip) hcode rfl
                  rw [← hoffset] at hpatch
                  have hlen : front.length + 4 = (front ++ leBytes 4 ip).length := by
                    rw [List.length_append, length_leBytes]
                  rw [hlen] at hfields
                  obtain ⟨hlist, hplaced⟩ := ih _ hpatch hfields hfill
                  constructor
                  · rw [hlist, filledAll_cons, Piece.filled, hip, List.append_assoc]
                    rfl
                  · rw [List.forall_mem_cons]
                    exact ⟨⟨ip, hip, hlt⟩, hplaced⟩

/-- A resolved buffer is the list of its pieces with all addresses known. -/
theorem CodeBuffer.Holds.resolve {b : CodeBuffer} {ps : List Piece} {code : Array UInt8}
    (h : b.Holds ps) (hresolve : b.resolve = .ok code) :
    code.toList = filledAll (fun key => (b.address? key).getD 0) ps ∧
      ∀ p ∈ ps, p.Placed b.address? :=
  toList_of_fillFields [] h.code h.fields hresolve

end GameScript
