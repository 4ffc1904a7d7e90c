import Mathlib.Algebra.Group.Int.Defs
import Mathlib.Algebra.Group.Nat.Defs
import GameScript.Proofs.Outcomes
import GameScript.Proofs.PieceLayout
import GameScript.Proofs.TypeFacts

/-!
# Fix-up resolution

A code buffer starts empty and changes by calls: bytes are written, labels are defined at the next
byte or at a given address, references are left open, and ends of instructions are marked, in any
order and number. A refused definition is part of the history too. From the calls alone this module
reads off where the references stand, from where each of them is measured and where the labels are.
The theorem says that resolving the buffer fills the fields of these references and nothing else, or
names the first of them that cannot be filled.

The distance of a relative reference is computed in 64 bits. The statement is therefore about
addresses below `2 ^ 63`; code in memory is always shorter than that.
-/
namespace GameScript

inductive BufferCall where
  | write (bytes : Bytes)
  | define (key : String)
  | defineAt (key : String) (ip : Nat)
  | writeRef (key name : String) (kind : FixupKind)
  | endInstruction
deriving DecidableEq, Repr

namespace BufferCall

def run (b : CodeBuffer) : BufferCall → Except EncodingError CodeBuffer
  | write bytes => .ok (b.write bytes)
  | define key => b.define key
  | defineAt key ip => b.defineAt key ip
  | writeRef key name kind => .ok (b.writeRef key name kind)
  | endInstruction => .ok b.endInstruction

def after (b : CodeBuffer) (call : BufferCall) : CodeBuffer :=
  match call.run b with
  | .ok b' => b'
  | .error _ => b

end BufferCall

def CodeBuffer.afterAll (b : CodeBuffer) (calls : List BufferCall) : CodeBuffer :=
  calls.foldl BufferCall.after b

/-! ## What the calls say -/

namespace FixupKind

/-- The numbers for which the field has room. -/
def Holds : FixupKind → Int → Prop
  | absolute32, value => 0 ≤ value ∧ value < 2 ^ 32
  | absolute24, value => 0 ≤ value ∧ value < 2 ^ 24
  | relative16, value => -2 ^ 15 ≤ value ∧ value < 2 ^ 15

instance : (kind : FixupKind) → (value : Int) → Decidable (kind.Holds value)
  | absolute32, _ | absolute24, _ | relative16, _ => inferInstanceAs (Decidable (_ ∧ _))

end FixupKind

structure Reference where
  offset : Nat
  key : String
  name : String
  kind : FixupKind
  /-- From where the reference is measured if it is relative. -/
  base : Nat
deriving DecidableEq, Repr

namespace Reference

/-- The number that the field stands for when the label is at `target`. -/
def value (r : Reference) (target : Nat) : Int :=
  match r.kind with
  | .absolute32 | .absolute24 => target
  | .relative16 => target - r.base

/-- That number in the bytes of the field, the lowest first, negative ones in two's complement. -/
def stored (r : Reference) (target : Nat) : Bytes :=
  leBytes r.kind.width (r.value target % 256 ^ r.kind.width).toNat

def Covers (r : Reference) (i : Nat) : Prop := r.offset ≤ i ∧ i < r.offset + r.kind.width

def field (r : Reference) (code : Array UInt8) : Bytes :=
  (code.toList.drop r.offset).take r.kind.width

/-- The label is defined, and the field has room for what it is to hold. -/
def Fillable (address? : String → Option Nat) (r : Reference) : Prop :=
  ∃ target, address? r.key = some target ∧ r.kind.Holds (r.value target)

inductive Offends (address? : String → Option Nat) (r : Reference) : EncodingError → Prop
  | unresolved (hkey : address? r.key = none) : Offends address? r (.unresolvedLabel r.name)
  | outOfRange {target : Nat} (hkey : address? r.key = some target)
      (hvalue : ¬ r.kind.Holds (r.value target)) :
      Offends address? r (.jumpOutOfRange r.name (r.value target))

/-- One of the references cannot be filled for the reason `e`, and all before it can be. -/
def FirstOffends (address? : String → Option Nat) (rs : List Reference) (e : EncodingError) :
    Prop :=
  ∃ front r back, rs = front ++ r :: back ∧ (∀ q ∈ front, q.Fillable address?) ∧
    r.Offends address? e

/-- The code `filled` differs from `raw` in the fields of `rs` only, which hold the numbers they
stand for. -/
structure Filled (address? : String → Option Nat) (rs : List Reference) (raw filled : Array UInt8) :
    Prop where
  size : filled.size = raw.size
  outside : ∀ i, (∀ r ∈ rs, ¬ r.Covers i) → filled[i]? = raw[i]?
  fields : ∀ r ∈ rs, ∃ target, address? r.key = some target ∧ r.kind.Holds (r.value target) ∧
    r.field filled = r.stored target

end Reference

namespace BufferCall

/-- The bytes that a call appends, zeros for the field of a reference. -/
def bytes : BufferCall → Bytes
  | write bytes => bytes
  | writeRef _ _ kind => List.replicate kind.width 0
  | define _ | defineAt _ _ | endInstruction => []

/-- The label that a call is to define, and its address, when the next byte is at `ip`. -/
def definition? (ip : Nat) : BufferCall → Option (String × Nat)
  | define key => some (key, ip)
  | defineAt key target => some (key, target)
  | write _ | writeRef _ _ _ | endInstruction => none

def rawCode (calls : List BufferCall) : Bytes := calls.flatMap bytes

/-- The definitions among calls that start at `ip`, those that are refused included. -/
def definitions (ip : Nat) : List BufferCall → List (String × Nat)
  | [] => []
  | call :: rest => (call.definition? ip).toList ++ definitions (ip + call.bytes.length) rest

/-- A label stays where it is defined first. -/
def labelAt? (calls : List BufferCall) (key : String) : Option Nat :=
  (definitions 0 calls).lookup key

/-- Where the next byte is at the first end of an instruction. -/
def firstEnd? (ip : Nat) : List BufferCall → Option Nat
  | [] => none
  | endInstruction :: _ => some ip
  | call :: rest => firstEnd? (ip + call.bytes.length) rest

/-- The references among calls that start at `ip`. Each is measured from the first end of an
instruction after it, or from the end of its own field. -/
def referencesFrom (ip : Nat) : List BufferCall → List Reference
  | [] => []
  | writeRef key name kind :: rest =>
    let stop := ip + kind.width
    ⟨ip, key, name, kind, (firstEnd? stop rest).getD stop⟩ :: referencesFrom stop rest
  | call :: rest => referencesFrom (ip + call.bytes.length) rest

def references (calls : List BufferCall) : List Reference := referencesFrom 0 calls

end BufferCall

/-! ## What a call does -/

namespace BufferCall

variable (b : CodeBuffer)

theorem after_define (key : String) : after b (define key) = after b (defineAt key b.ip) := rfl

theorem after_defineAt (key : String) (target : Nat) :
    after b (defineAt key target) =
      if (b.address? key).isSome then b else { b with labels := b.labels ++ [(key, target)] } := by
  cases hkey : b.address? key <;> simp [after, run, CodeBuffer.defineAt, hkey]

theorem recent_after_defineAt (key : String) (target : Nat) :
    (after b (defineAt key target)).recent = b.recent := by
  rw [after_defineAt]
  split <;> rfl

theorem recent_after_writeRef (key name : String) (kind : FixupKind) :
    (after b (writeRef key name kind)).recent = ⟨b.ip, key, name, kind, none⟩ :: b.recent := rfl

theorem recent_after_endInstruction :
    (after b endInstruction).recent = CodeBuffer.closeAll b.ip b.recent := rfl

theorem toList_code_after (call : BufferCall) :
    (call.after b).code.toList = b.code.toList ++ call.bytes := by
  have hdefineAt (key : String) (target : Nat) :
      (after b (defineAt key target)).code.toList = b.code.toList ++ [] := by
    rw [after_defineAt, List.append_nil]
    split <;> rfl
  cases call with
  | write bytes => exact Array.toList_appendList
  | define key => exact hdefineAt key b.ip
  | defineAt key target => exact hdefineAt key target
  | writeRef key name kind => exact Array.toList_appendList
  | endInstruction => exact (List.append_nil _).symm

theorem ip_after (call : BufferCall) : (call.after b).ip = b.ip + call.bytes.length := by
  rw [CodeBuffer.ip, ← Array.length_toList, toList_code_after, List.length_append,
    Array.length_toList, CodeBuffer.ip]

/-- A definition counts unless there is one already. -/
theorem address?_after (call : BufferCall) (key : String) :
    (call.after b).address? key =
      (b.address? key).or ((call.definition? b.ip).toList.lookup key) := by
  have hdefineAt (k : String) (target : Nat) :
      (after b (defineAt k target)).address? key =
          (b.address? key).or ([(k, target)].lookup key) := by
    rw [after_defineAt]
    split
    · next hdefined =>
        -- refused: the key that is looked up is defined already, or it is another one
        by_cases hk : key = k
        · subst hk
          rw [Option.or_of_isSome hdefined]
        · simp [List.lookup_cons, beq_false_of_ne hk]
    · exact List.lookup_append
  cases call with
  | define k => exact hdefineAt k b.ip
  | defineAt k target => exact hdefineAt k target
  | write bytes => exact (Option.or_none).symm
  | writeRef k name kind => exact (Option.or_none).symm
  | endInstruction => exact (Option.or_none).symm

end BufferCall

/-! ## What a run of calls does -/

namespace CodeBuffer

open BufferCall

theorem toList_code_afterAll (calls : List BufferCall) (b : CodeBuffer) :
    (b.afterAll calls).code.toList = b.code.toList ++ rawCode calls := by
  induction calls generalizing b with
  | nil => exact (List.append_nil _).symm
  | cons call rest ih =>
      have hrest := ih (call.after b)
      rw [toList_code_after, List.append_assoc] at hrest
      exact hrest

theorem address?_afterAll (calls : List BufferCall) (b : CodeBuffer) (key : String) :
    (b.afterAll calls).address? key =
      (b.address? key).or ((definitions b.ip calls).lookup key) := by
  induction calls generalizing b with
  | nil => exact (Option.or_none).symm
  | cons call rest ih =>
      have hrest := ih (call.after b)
      rw [address?_after, ip_after, Option.or_assoc, ← List.lookup_append] at hrest
      exact hrest

end CodeBuffer

/-- The reference of a fix-up, if the next end of an instruction is at `next?`. -/
def Fixup.reference (next? : Option Nat) (f : Fixup) : Reference :=
  ⟨f.offset, f.key, f.name, f.kind, (f.nextIp.or next?).getD (f.offset + f.kind.width)⟩

namespace CodeBuffer

open BufferCall

/-- The fix-ups that wait for the end of their instruction come first. -/
def OpenFirst (fs : List Fixup) : Prop :=
  fs.Pairwise fun later earlier => earlier.nextIp = none → later.nextIp = none

theorem OpenFirst.nextIp_ne_none {f : Fixup} {fs : List Fixup} (h : OpenFirst (f :: fs))
    (hf : f.nextIp ≠ none) : ∀ g ∈ f :: fs, g.nextIp ≠ none :=
  List.forall_mem_cons.mpr ⟨hf, fun g hg hopen => hf ((List.pairwise_cons.mp h).1 g hg hopen)⟩

/-- Marking the end of an instruction leaves no fix-up that waits for one. -/
theorem OpenFirst.nextIp_closeAll {fs : List Fixup} (h : OpenFirst fs) (ip : Nat) :
    ∀ f ∈ CodeBuffer.closeAll ip fs, f.nextIp ≠ none := by
  induction fs with
  | nil => exact fun f hf => absurd hf List.not_mem_nil
  | cons f fs ih =>
      cases hf : f.nextIp with
      | none =>
          simp only [CodeBuffer.closeAll, hf, List.forall_mem_cons]
          exact ⟨Option.some_ne_none ip, ih h.of_cons⟩
      | some n =>
          simp only [CodeBuffer.closeAll, hf]
          exact h.nextIp_ne_none (hf ▸ Option.some_ne_none n)

theorem OpenFirst.closeAll {fs : List Fixup} (h : OpenFirst fs) (ip : Nat) :
    OpenFirst (CodeBuffer.closeAll ip fs) :=
  List.pairwise_of_forall_mem_list fun _ _ g hg hopen => absurd hopen (h.nextIp_closeAll ip g hg)

/-- Its place is where every fix-up that waited is measured from. -/
theorem OpenFirst.map_reference_closeAll {fs : List Fixup} (h : OpenFirst fs) (ip : Nat)
    (next? : Option Nat) :
    (CodeBuffer.closeAll ip fs).map (Fixup.reference next?) =
      fs.map (Fixup.reference (some ip)) := by
  induction fs with
  | nil => rfl
  | cons f fs ih =>
      cases hf : f.nextIp with
      | none =>
          simp only [CodeBuffer.closeAll, hf, List.map_cons, ih h.of_cons, Fixup.reference,
            Option.none_or, Option.some_or]
      | some n =>
          -- the walk stops here, and by the invariant nothing further back is waiting
          simp only [CodeBuffer.closeAll, hf]
          refine List.map_congr_left fun g hg => ?_
          obtain ⟨stop, hstop⟩ := Option.ne_none_iff_exists'.mp
            (h.nextIp_ne_none (hf ▸ Option.some_ne_none n) g hg)
          simp only [Fixup.reference, hstop, Option.some_or]

theorem OpenFirst.after {b : CodeBuffer} (h : OpenFirst b.recent) (call : BufferCall) :
    OpenFirst (call.after b).recent := by
  cases call with
  | write bytes => exact h
  | define key => exact (recent_after_defineAt b key b.ip).symm ▸ h
  | defineAt key target => exact (recent_after_defineAt b key target).symm ▸ h
  | writeRef key name kind => exact List.pairwise_cons.mpr ⟨fun _ _ _ => rfl, h⟩
  | endInstruction => exact h.closeAll b.ip

/-- One call moves a reference from the calls to the fix-ups, or tells the waiting fix-ups where
their instruction ends. -/
theorem OpenFirst.map_reference_after {b : CodeBuffer} (h : OpenFirst b.recent) (call : BufferCall)
    (rest : List BufferCall) :
    (call.after b).fixups.map (Fixup.reference (firstEnd? (call.after b).ip rest)) ++
        referencesFrom (call.after b).ip rest =
      b.fixups.map (Fixup.reference (firstEnd? b.ip (call :: rest))) ++
        referencesFrom b.ip (call :: rest) := by
  rw [ip_after, fixups, fixups]
  cases call with
  | write bytes => rfl
  | define key =>
      rw [after_define, recent_after_defineAt]
      rfl
  | defineAt key target =>
      rw [recent_after_defineAt]
      rfl
  | writeRef key name kind =>
      rw [recent_after_writeRef, List.reverse_cons, List.map_append, List.append_assoc]
      simp only [firstEnd?, BufferCall.bytes, List.length_replicate]
      rfl
  | endInstruction =>
      rw [recent_after_endInstruction, List.map_reverse, h.map_reference_closeAll,
        ← List.map_reverse]
      rfl

theorem OpenFirst.map_reference_afterAll (calls : List BufferCall) {b : CodeBuffer}
    (h : OpenFirst b.recent) :
    (b.afterAll calls).fixups.map (Fixup.reference none) =
      b.fixups.map (Fixup.reference (firstEnd? b.ip calls)) ++ referencesFrom b.ip calls := by
  induction calls generalizing b with
  | nil => exact (List.append_nil _).symm
  | cons call rest ih => exact (ih (h.after call)).trans (h.map_reference_after call rest)

end CodeBuffer

/-! ## Where references and labels can be -/

/-- The reference lies, and is measured from a place, between `start` and `stop`. -/
structure Reference.Within (r : Reference) (start stop : Nat) : Prop where
  start_le : start ≤ r.offset
  le_stop : r.offset + r.kind.width ≤ stop
  base_le : r.base ≤ stop

namespace BufferCall

theorem length_rawCode_cons (call : BufferCall) (rest : List BufferCall) :
    (rawCode (call :: rest)).length = call.bytes.length + (rawCode rest).length := by
  rw [rawCode, List.flatMap_cons, List.length_append, rawCode]

theorem firstEnd?_le {calls : List BufferCall} {ip stop : Nat}
    (h : firstEnd? ip calls = some stop) :
    stop ≤ ip + (rawCode calls).length := by
  induction calls generalizing ip with
  | nil => cases h
  | cons call rest ih =>
      rw [length_rawCode_cons]
      cases call with
      | endInstruction =>
          obtain rfl := Option.some.inj h
          exact Nat.le_add_right _ _
      | _ => exact Nat.add_assoc ip _ _ ▸ ih h

theorem within_referencesFrom (calls : List BufferCall) (ip : Nat) :
    ∀ r ∈ referencesFrom ip calls, r.Within ip (ip + (rawCode calls).length) := by
  induction calls generalizing ip with
  | nil => exact fun r hr => absurd hr List.not_mem_nil
  | cons call rest ih =>
      have hrest : ∀ r ∈ referencesFrom (ip + call.bytes.length) rest,
          r.Within ip (ip + (rawCode (call :: rest)).length) := by
        intro r hr
        obtain ⟨hstart, hstop, hbase⟩ := ih _ r hr
        rw [Nat.add_assoc, ← length_rawCode_cons] at hstop hbase
        exact ⟨Nat.le_of_add_right_le hstart, hstop, hbase⟩
      cases call with
      | writeRef key name kind =>
          rw [length_rawCode_cons, bytes, List.length_replicate] at hrest ⊢
          refine List.forall_mem_cons.mpr ⟨⟨Nat.le_refl ip, ?_, ?_⟩, hrest⟩
          · exact Nat.add_le_add_left (Nat.le_add_right _ _) ip
          · cases hend : firstEnd? (ip + kind.width) rest with
            | none => exact Nat.add_le_add_left (Nat.le_add_right _ _) ip
            | some stop => exact Nat.add_assoc ip _ _ ▸ firstEnd?_le hend
      | _ => exact hrest

/-- Fields follow one after the other. -/
theorem pairwise_referencesFrom (calls : List BufferCall) (ip : Nat) :
    (referencesFrom ip calls).Pairwise fun q r => q.offset + q.kind.width ≤ r.offset := by
  induction calls generalizing ip with
  | nil => exact .nil
  | cons call rest ih =>
      cases call with
      | writeRef key name kind =>
          exact List.pairwise_cons.mpr
            ⟨fun r hr => (within_referencesFrom rest (ip + kind.width) r hr).start_le, ih _⟩
      | _ => exact ih _

theorem lt_of_mem_definitions {bound : Nat} {calls : List BufferCall} {ip : Nat}
    (hdefineAt : ∀ key target, defineAt key target ∈ calls → target < bound)
    (hsize : ip + (rawCode calls).length < bound) :
    ∀ d ∈ definitions ip calls, d.2 < bound := by
  induction calls generalizing ip with
  | nil => exact fun d hd => absurd hd List.not_mem_nil
  | cons call rest ih =>
      rw [length_rawCode_cons] at hsize
      have hrest : ∀ d ∈ definitions (ip + call.bytes.length) rest, d.2 < bound :=
        ih (fun key target h => hdefineAt key target (List.mem_cons_of_mem _ h)) (by omega)
      intro d hd
      rcases List.mem_append.mp hd with hfirst | hlater
      · cases call with
        | define key =>
            obtain rfl := List.mem_singleton.mp hfirst
            exact Nat.lt_of_le_of_lt (Nat.le_add_right ip _) hsize
        | defineAt key target =>
            obtain rfl := List.mem_singleton.mp hfirst
            exact hdefineAt key target List.mem_cons_self
        | _ => exact absurd hfirst List.not_mem_nil
      · exact hrest d hlater

end BufferCall

/-! ## Filling one field -/

theorem signed64_eq {n : Int} (hlow : -2 ^ 63 ≤ n) (hhigh : n < 2 ^ 63) : signed64 n = n :=
  Int.bmod_eq_of_le hlow hhigh

theorem Fixup.fill_eq (f : Fixup) {target : Nat} (htarget : target < 2 ^ 63)
    (hbase : (f.reference none).base < 2 ^ 63) :
    f.fill target =
      if f.kind.Holds ((f.reference none).value target) then .ok ((f.reference none).stored target)
      else .error (.jumpOutOfRange f.name ((f.reference none).value target)) := by
  obtain ⟨offset, key, name, kind, nextIp⟩ := f
  cases kind with
  | absolute32 | absolute24 =>
      have h64 : signed64 target = target := signed64_eq (by omega) (by omega)
      refine ite_congr (propext ?_) (fun hfits => ?_) fun _ => congrArg _ (congrArg _ h64)
      · simp only [reference, Reference.value, FixupKind.Holds]
        omega
      · simp only [reference, Reference.value, FixupKind.Holds] at hfits
        refine congrArg (fun n => Except.ok (leBytes _ n)) ?_
        simp only [reference, Reference.value, FixupKind.width]
        omega
  | relative16 =>
      simp only [reference, FixupKind.width, Option.or_none] at hbase
      have h64 : signed64 (target - nextIp.getD (offset + 2)) = target - nextIp.getD (offset + 2) :=
        signed64_eq (by omega) (by omega)
      simp only [fill, base, reference, Reference.value, Reference.stored, FixupKind.Holds,
        FixupKind.width, Option.or_none, h64]
      rfl

theorem toList_patch_of_le {code : Array UInt8} {start : Nat} {bs : Bytes}
    (h : start + bs.length ≤ code.size) :
    (patch code start bs).toList =
      code.toList.take start ++ bs ++ code.toList.drop (start + bs.length) := by
  have hsize : code.toList.length = code.size := Array.length_toList
  have hfront : (code.toList.take start).length = start := by
    rw [List.length_take]
    omega
  have hold : ((code.toList.drop start).take bs.length).length = bs.length := by
    rw [List.length_take, List.length_drop]
    omega
  have hcode : code.toList = code.toList.take start ++ (code.toList.drop start).take bs.length ++
      code.toList.drop (start + bs.length) := by
    rw [List.append_assoc, ← List.drop_drop, List.take_append_drop, List.take_append_drop]
  have hpatch := toList_patch bs hcode hold
  rwa [hfront] at hpatch

theorem size_patch (code : Array UInt8) (start : Nat) (bs : Bytes) :
    (patch code start bs).size = code.size := by
  induction bs generalizing code start with
  | nil => rfl
  | cons b bs ih => rw [patch, ih, Array.size_setIfInBounds]

theorem getElem?_patch_of_outside {start i : Nat} {bs : Bytes} (code : Array UInt8)
    (hi : i < start ∨ start + bs.length ≤ i) : (patch code start bs)[i]? = code[i]? := by
  induction bs generalizing code start with
  | nil => rfl
  | cons b bs ih =>
      rw [List.length_cons] at hi
      rw [patch, ih _ (by omega), Array.getElem?_setIfInBounds_ne (by omega)]

namespace Reference

theorem length_stored (r : Reference) (target : Nat) : (r.stored target).length = r.kind.width :=
  length_leBytes _ _

theorem field_patch {r : Reference} {code : Array UInt8} {bs : Bytes}
    (hlen : bs.length = r.kind.width) (h : r.offset + r.kind.width ≤ code.size) :
    r.field (patch code r.offset bs) = bs := by
  rw [← hlen] at h
  have hfront : (code.toList.take r.offset).length = r.offset := by
    rw [List.length_take]
    have hsize : code.toList.length = code.size := Array.length_toList
    omega
  rw [field, toList_patch_of_le h, List.append_assoc, List.drop_left' hfront, List.take_left' hlen]

theorem field_congr {r : Reference} {code code' : Array UInt8}
    (h : ∀ i, r.Covers i → code'[i]? = code[i]?) : r.field code' = r.field code := by
  apply List.ext_getElem?
  intro k
  rw [field, field, List.getElem?_take, List.getElem?_take]
  split
  · next hk =>
      rw [List.getElem?_drop, List.getElem?_drop, Array.getElem?_toList, Array.getElem?_toList]
      exact h _ ⟨Nat.le_add_right _ _, Nat.add_lt_add_left hk _⟩
  · rfl

namespace Filled

variable {address? : String → Option Nat} {rs : List Reference} {raw code : Array UInt8}

theorem nil : Filled address? [] raw raw :=
  ⟨rfl, fun _ _ => rfl, fun _ hr => absurd hr List.not_mem_nil⟩

theorem fillable (h : Filled address? rs raw code) : ∀ r ∈ rs, r.Fillable address? := by
  intro r hr
  obtain ⟨target, hkey, hvalue, _⟩ := h.fields r hr
  exact ⟨target, hkey, hvalue⟩

/-- Filling a field behind those that are filled leaves them as they are. -/
theorem concat {r : Reference} {target : Nat} (h : Filled address? rs raw code)
    (hbehind : ∀ q ∈ rs, q.offset + q.kind.width ≤ r.offset)
    (hstop : r.offset + r.kind.width ≤ raw.size) (hkey : address? r.key = some target)
    (hvalue : r.kind.Holds (r.value target)) :
    Filled address? (rs ++ [r]) raw (patch code r.offset (r.stored target)) := by
  have hlen := r.length_stored target
  have houtside {i : Nat} (hi : ¬ r.Covers i) :
      (patch code r.offset (r.stored target))[i]? = code[i]? := by
    apply getElem?_patch_of_outside
    rw [Covers] at hi
    omega
  constructor
  · rw [size_patch, h.size]
  · intro i hi
    rw [houtside (hi r (List.mem_append_right _ List.mem_cons_self))]
    exact h.outside i fun q hq => hi q (List.mem_append_left _ hq)
  · intro q hq
    rcases List.mem_append.mp hq with hq | hq
    · obtain ⟨target', hkey', hvalue', hfield⟩ := h.fields q hq
      have hbefore := hbehind q hq
      refine ⟨target', hkey', hvalue', ?_⟩
      -- this field ends before the new one starts
      rw [← hfield]
      exact field_congr fun i hi => houtside fun hr => by
        rw [Covers] at hi hr
        omega
    · obtain rfl := List.mem_singleton.mp hq
      exact ⟨target, hkey, hvalue, field_patch hlen (h.size ▸ hstop)⟩

end Filled

theorem Offends.not_fillable {address? : String → Option Nat} {r : Reference} {e : EncodingError}
    (h : r.Offends address? e) : ¬ r.Fillable address? := by
  rintro ⟨target, hkey, hvalue⟩
  cases h with
  | unresolved hnone => cases hnone.symm.trans hkey
  | outOfRange hsome hout =>
      obtain rfl := Option.some.inj (hsome.symm.trans hkey)
      exact hout hvalue

end Reference

/-! ## Filling all fields -/

section Resolution

variable {address? : String → Option Nat}
  (haddress : ∀ key target, address? key = some target → target < 2 ^ 63)
include haddress

theorem fillField_ends {f : Fixup} (code : Array UInt8) (hbase : (f.reference none).base < 2 ^ 63) :
    Ends ((f.reference none).Offends address?) (fillField address? code f) fun code' =>
      ∃ target, address? f.key = some target ∧ f.kind.Holds ((f.reference none).value target) ∧
        code' = patch code f.offset ((f.reference none).stored target) := by
  cases hkey : address? f.key with
  | none =>
      simp only [fillField, hkey]
      exact .error (.unresolved hkey)
  | some target =>
      simp only [fillField, hkey, f.fill_eq (haddress _ _ hkey) hbase]
      split
      · next hvalue => exact .ok ⟨target, rfl, hvalue, rfl⟩
      · next hvalue => exact .error (.outOfRange hkey hvalue)

/-- The loop over the fix-ups. The fields of those gone through are filled, and the rest of the code
is as it was. -/
theorem fillFields_ends {fs : List Fixup} {raw : Array UInt8}
    (hlaid : (fs.map (Fixup.reference none)).Pairwise fun q r => q.offset + q.kind.width ≤ r.offset)
    (hwithin : ∀ r ∈ fs.map (Fixup.reference none), r.Within 0 raw.size)
    (hsize : raw.size < 2 ^ 63) :
    Ends (Reference.FirstOffends address? (fs.map (Fixup.reference none)))
      (fs.foldlM (fillField address?) raw)
      (Reference.Filled address? (fs.map (Fixup.reference none)) raw) := by
  refine Ends.foldlM (I := fun done => Reference.Filled address? (done.map (Fixup.reference none))
    raw) fs .nil fun before f after code hfs hfilled => ?_
  have hmap : fs.map (Fixup.reference none) = before.map (Fixup.reference none) ++
      f.reference none :: after.map (Fixup.reference none) := by
    rw [hfs, List.map_append, List.map_cons]
  rw [hmap] at hlaid hwithin
  have hmem : f.reference none ∈ before.map (Fixup.reference none) ++
      f.reference none :: after.map (Fixup.reference none) :=
    List.mem_append_right _ List.mem_cons_self
  obtain ⟨_, hstop, hbase⟩ := hwithin _ hmem
  rcases fillField_ends haddress code (Nat.lt_of_le_of_lt hbase hsize) with
    ⟨code', hfill, target, hkey, hvalue, rfl⟩ | ⟨e, hfill, hoffends⟩
  · rw [hfill, List.map_append]
    have hbehind := (List.pairwise_append.mp hlaid).2.2
    exact .ok (hfilled.concat (fun q hq => hbehind q hq _ List.mem_cons_self) hstop hkey hvalue)
  · rw [hfill]
    exact .error ⟨_, _, _, hmap, hfilled.fillable, hoffends⟩

end Resolution

namespace CodeBuffer

open BufferCall

theorem resolve_ends {calls : List BufferCall}
    (hdefineAt : ∀ key ip, BufferCall.defineAt key ip ∈ calls → ip < 2 ^ 63)
    (hsize : (rawCode calls).length < 2 ^ 63) :
    Ends (Reference.FirstOffends (labelAt? calls) (references calls)) (afterAll {} calls).resolve
      (Reference.Filled (labelAt? calls) (references calls) (afterAll {} calls).code) := by
  have hcode : (afterAll {} calls).code.size = (rawCode calls).length := by
    rw [← Array.length_toList, toList_code_afterAll]
    rfl
  have hlabels : (afterAll {} calls).address? = labelAt? calls :=
    funext fun key => address?_afterAll calls {} key
  have hreferences : (afterAll {} calls).fixups.map (Fixup.reference none) = references calls :=
    OpenFirst.map_reference_afterAll calls .nil
  have haddress (key : String) (target : Nat) (hkey : labelAt? calls key = some target) :
      target < 2 ^ 63 :=
    lt_of_mem_definitions hdefineAt ((Nat.zero_add _).symm ▸ hsize) _ (mem_of_lookup hkey)
  rw [← hreferences]
  rw [← hlabels] at haddress ⊢
  refine fillFields_ends haddress ?_ ?_ (hcode ▸ hsize)
  · rw [hreferences]
    exact pairwise_referencesFrom calls 0
  · rw [hreferences, hcode, ← Nat.zero_add (rawCode calls).length]
    exact within_referencesFrom calls 0

/-- Resolving the buffer succeeds if and only if the label of every reference is defined and its
field has room for the address, or the distance, that it is to hold. The code that results has the
size of the raw code, differs from it in the fields only, and holds these numbers there. Otherwise
the error is about the first reference in the order of writing that cannot be filled. -/
theorem resolve_exact (calls : List BufferCall)
    (hdefineAt : ∀ key ip, BufferCall.defineAt key ip ∈ calls → ip < 2 ^ 63)
    (hsize : (rawCode calls).length < 2 ^ 63) :
    (afterAll {} calls).code.toList = rawCode calls ∧
      ((∃ code, (afterAll {} calls).resolve = .ok code) ↔
        ∀ r ∈ references calls, r.Fillable (labelAt? calls)) ∧
      (∀ code, (afterAll {} calls).resolve = .ok code →
        Reference.Filled (labelAt? calls) (references calls) (afterAll {} calls).code code) ∧
      ∀ e, (afterAll {} calls).resolve = .error e →
        Reference.FirstOffends (labelAt? calls) (references calls) e := by
  refine ⟨toList_code_afterAll calls {}, ?_⟩
  rcases resolve_ends hdefineAt hsize with ⟨code, hok, hfilled⟩ | ⟨e, herror, hoffends⟩
  · rw [hok]
    refine ⟨⟨fun _ => hfilled.fillable, fun _ => ⟨code, rfl⟩⟩, ?_, fun e he => nomatch he⟩
    intro code' heq
    obtain rfl := Except.ok.inj heq
    exact hfilled
  · rw [herror]
    have hnot : ¬ ∀ r ∈ references calls, r.Fillable (labelAt? calls) := by
      obtain ⟨front, r, back, hrs, _, hr⟩ := hoffends
      exact fun hall => hr.not_fillable (hall r (hrs ▸ List.mem_append_right _ List.mem_cons_self))
    refine ⟨⟨?_, fun hall => absurd hall hnot⟩, fun code hcode => (nomatch hcode), ?_⟩
    · rintro ⟨code, hcode⟩
      cases hcode
    · intro e' heq
      obtain rfl := Except.error.inj heq
      exact hoffends

/-- Two references in one instruction, ends marked twice and not at all, and a label defined
again. -/
def patrolLoop : List BufferCall :=
  [.define "loop", .write [0x50], .writeRef "exit" "exit" .absolute32,
    .writeRef "loop" "loop" .relative16, .endInstruction, .endInstruction,
    .write [0x51, 0x52], .define "loop", .writeRef "base" "base" .absolute24, .define "exit",
    .writeRef "exit" "exit" .relative16, .defineAt "base" 0x123456]

/-- The same, with a jump that is out of reach before one whose label is missing. -/
def patrolTooFar : List BufferCall :=
  patrolLoop ++ [.writeRef "base" "faraway" .relative16, .endInstruction,
    .writeRef "nowhere" "nowhere" .absolute32]

/-- The first loop is patched in its fields only; the second stops at the jump that is out of
reach. -/
theorem resolve_exact_patrol :
    (∀ key ip, BufferCall.defineAt key ip ∈ patrolTooFar → ip < 2 ^ 63) ∧
      (rawCode patrolTooFar).length < 2 ^ 63 ∧
      (∃ code, (afterAll {} patrolLoop).resolve = .ok code ∧
        code.toList = [0x50, 12, 0, 0, 0, 0xF9, 0xFF, 0x51, 0x52, 0x56, 0x34, 0x12, 0xFE, 0xFF] ∧
        Reference.Filled (labelAt? patrolLoop) (references patrolLoop) (afterAll {} patrolLoop).code
          code) ∧
      (afterAll {} patrolTooFar).resolve = .error (.jumpOutOfRange "faraway" 0x123446) ∧
      Reference.FirstOffends (labelAt? patrolTooFar) (references patrolTooFar)
        (.jumpOutOfRange "faraway" 0x123446) := by
  have hdefineAt : ∀ key ip, BufferCall.defineAt key ip ∈ patrolTooFar → ip < 2 ^ 63 := by
    simp [patrolTooFar, patrolLoop]
  have hsize : (rawCode patrolTooFar).length < 2 ^ 63 := by decide
  have hok : (afterAll {} patrolLoop).resolve =
      .ok #[0x50, 12, 0, 0, 0, 0xF9, 0xFF, 0x51, 0x52, 0x56, 0x34, 0x12, 0xFE, 0xFF] :=
    ok_of_toOption (by decide +kernel)
  have herror : (afterAll {} patrolTooFar).resolve =
      .error (.jumpOutOfRange "faraway" 0x123446) := by
    rfl
  refine ⟨hdefineAt, hsize, ⟨_, hok, rfl, ?_⟩, herror, ?_⟩
  · have hloop := resolve_exact patrolLoop
      (fun key ip h => hdefineAt key ip (List.mem_append_left _ h)) (by decide)
    exact hloop.2.2.1 _ hok
  · exact (resolve_exact patrolTooFar hdefineAt hsize).2.2.2 _ herror

end CodeBuffer
end GameScript
