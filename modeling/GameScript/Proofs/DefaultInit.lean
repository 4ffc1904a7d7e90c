import Mathlib.Logic.Function.Basic
import GameScript.Proofs.AssemblyLines
import GameScript.Proofs.DefaultWords

/-!
# Locals start like statics

A local of a type with counts or defaults is written to in place, by code that walks over the type
with the address of the local on the stack. The instructions of that code are given a meaning on a
stack of words and addresses and on storage; addresses have no largest value. The code always ends
with the stack it found and writes nothing outside the local, and into zeros it writes the words of
a fresh static. The last part needs that the distances it adds are not cut: they are pushed as
words, so a part that lies 2^32 slots or more into the whole is reached at a wrong place.
-/
namespace GameScript

/-- What lies in one slot of the stack: a word, or the address of a slot of storage. -/
inductive Cell where
  | word (value : Word)
  | place (address : Nat)

structure StorageState where
  stack : List Cell
  memory : Nat → Word

/-- What the instructions that initialise storage do. -/
def Opcode.exec? (o : Opcode) (s : StorageState) : Option StorageState :=
  match o, s.stack with
  | .null, σ => some ⟨.word 0 :: σ, s.memory⟩
  | .dup, c :: σ => some ⟨c :: c :: σ, s.memory⟩
  | .drop, _ :: σ => some ⟨σ, s.memory⟩
  | .iadd, .word n :: .place a :: σ => some ⟨.place (a + n.toNat) :: σ, s.memory⟩
  | .storeRev, .word w :: .place a :: σ => some ⟨.place a :: σ, Function.update s.memory a w⟩
  | _, _ => none

def Statement.exec? (i : Statement) (s : StorageState) : Option StorageState :=
  match i.label, i.mnemonic with
  | none, some mnemonic =>
    if sameName mnemonic pushMnemonic then
      match i.operands with
      | [.int v] => some ⟨.word (Word.ofInt v) :: s.stack, s.memory⟩
      | [.float v] => some ⟨.word v.bits :: s.stack, s.memory⟩
      | _ => none
    else
      match Op.ofMnemonic? mnemonic, i.operands with
      | some (.named o), [] => o.exec? s
      | _, _ => none
  | _, _ => none

def execAll : List Statement → StorageState → Option StorageState
  | [], s => some s
  | i :: rest, s => (i.exec? s).bind (execAll rest)

theorem execAll_append (code code' : List Statement) (s : StorageState) :
    execAll (code ++ code') s = (execAll code s).bind (execAll code') := by
  induction code generalizing s with
  | nil => rfl
  | cons i code ih =>
      simp only [List.cons_append, execAll, Option.bind_assoc]
      exact congrArg _ (funext ih)

theorem Statement.exec?_op (o : Opcode) (s : StorageState) : (op o).exec? s = o.exec? s := by
  simp only [exec?, op, o.mnemonic_spec.1, o.mnemonic_spec.2, Bool.false_eq_true, if_false]

theorem Statement.exec?_pushInt (v : Int) (s : StorageState) :
    (pushInt v).exec? s = some ⟨.word (Word.ofInt v) :: s.stack, s.memory⟩ := rfl

theorem Word.ofInt_natCast (w : Word) : Word.ofInt w.toNat = w := by
  have hw : w.toNat < 0x100000000 := w.toNat_lt
  have hmod : ((w.toNat : Int) % 0x100000000).toNat = w.toNat := by omega
  rw [Word.ofInt, hmod, UInt32.ofNat_toNat]

theorem Word.ofInt_toInt (v : Int32) : Word.ofInt v.toInt = v.toUInt32 := by
  have hv : v.toInt = Int.bmod v.toUInt32.toNat 0x100000000 := BitVec.toInt_eq_toNat_bmod _
  have hmod : Int.bmod v.toUInt32.toNat 0x100000000 % 0x100000000 =
      (v.toUInt32.toNat : Int) % 0x100000000 := Int.bmod_emod
  rw [Word.ofInt, hv, hmod]
  exact ofInt_natCast v.toUInt32

/-! ## Storage -/

def readWords (m : Nat → Word) (a n : Nat) : List Word := (List.range' a n).map m

def Blank (m : Nat → Word) (a n : Nat) : Prop := ∀ i, a ≤ i → i < a + n → m i = 0

variable {m m' m'' : Nat → Word} {a b n k : Nat}

theorem readWords_add (m : Nat → Word) (a n k : Nat) :
    readWords m a (n + k) = readWords m a n ++ readWords m (a + n) k := by
  rw [readWords, readWords, readWords, ← List.map_append, List.range'_append_1]

theorem readWords_congr (h : ∀ i, a ≤ i → i < a + n → m' i = m i) :
    readWords m' a n = readWords m a n := by
  refine List.map_congr_left fun i hi => ?_
  obtain ⟨hle, hlt⟩ := List.mem_range'_1.mp hi
  exact h i hle hlt

theorem Blank.readWords (h : Blank m a n) : readWords m a n = List.replicate n 0 := by
  rw [readWords_congr (m := fun _ => 0) h, GameScript.readWords, List.map_const',
    List.length_range']

/-- `ws` is laid `s` slots after `a`. Nothing before `a` or after the words changes; if no distance
was cut, nothing between `a` and the words changes either, and zeros become the words. -/
structure Lays (uncut : Prop) (s : Nat) (ws : List Word) (a : Nat) (m m' : Nat → Word) : Prop where
  outside : ∀ i, i < a ∨ a + s + ws.length ≤ i → m' i = m i
  before : uncut → ∀ i, i < a + s → m' i = m i
  inside : uncut → Blank m (a + s) ws.length → readWords m' (a + s) ws.length = ws

namespace Lays

variable {p q : Prop} {s : Nat} {ws ws' : List Word}

theorem zeros (h : ∀ w ∈ ws, w = 0) : Lays p s ws a m m where
  outside _ _ := rfl
  before _ _ _ := rfl
  inside _ hblank := by
    rw [hblank.readWords]
    exact (List.eq_replicate_iff.mpr ⟨rfl, h⟩).symm

theorem single (w : Word) : Lays p 0 [w] a m (Function.update m a w) where
  outside i hi := by
    have hne : i ≠ a := by
      simp only [List.length_singleton] at hi
      omega
    rw [Function.update_of_ne hne]
  before _ i hi := by
    rw [Function.update_of_ne (by omega)]
  inside _ _ := by
    simp [readWords]

/-- Words laid one after the other. -/
theorem append (h : Lays p s ws a m m') (h' : Lays q (s + ws.length) ws' a m' m'') :
    Lays (p ∧ q) s (ws ++ ws') a m m'' where
  outside i hi := by
    rw [List.length_append] at hi
    rw [h'.outside i (by omega), h.outside i (by omega)]
  before hpq i hi := by
    rw [h'.before hpq.2 i (by omega), h.before hpq.1 i hi]
  inside hpq hblank := by
    rw [List.length_append] at hblank
    rw [List.length_append, readWords_add]
    have hfirst : readWords m'' (a + s) ws.length = ws := by
      rw [readWords_congr fun i _ hi => h'.before hpq.2 i (by omega)]
      exact h.inside hpq.1 fun i hle hlt => hblank i hle (by omega)
    have hsecond : readWords m'' (a + s + ws.length) ws'.length = ws' := by
      rw [Nat.add_assoc a]
      refine h'.inside hpq.2 fun i hle hlt => ?_
      rw [h.outside i (by omega)]
      exact hblank i (by omega) (by omega)
    rw [hfirst, hsecond]

/-- Words laid from an address `c` slots after `a`, where `s` slots were meant. -/
theorem shift {c : Nat} (h : Lays p 0 ws (a + c) m m') (hc : c ≤ s) :
    Lays (p ∧ c = s) s ws a m m' where
  outside i hi := h.outside i (by omega)
  before hp i hi := h.before hp.1 i (by omega)
  inside hp hblank := by
    obtain ⟨hp, rfl⟩ := hp
    exact h.inside hp hblank

/-- Where no words are laid, nothing changes. -/
theorem of_nil (h : Lays p 0 [] b m m') : Lays q s [] a m m' := by
  have hsame (i : Nat) : m' i = m i := h.outside i (Nat.lt_or_ge i b)
  exact ⟨fun i _ => hsame i, fun _ i _ => hsame i, fun _ _ => rfl⟩

theorem imp (h : Lays p s ws a m m') (hq : q → p) : Lays q s ws a m m' where
  outside := h.outside
  before hq' := h.before (hq hq')
  inside hq' := h.inside (hq hq')

end Lays

/-! ## Code -/

mutual

/-- Every distance that is added to reach a part that is written fits a word. -/
def Ty.OffsetsFit : Ty → Prop
  | .array item length => item.needsDefaultInit = true → 0 < length.toNat →
      item.OffsetsFit ∧ (1 < length.toNat → item.slots < 0x100000000)
  | .struct _ fields => fields.OffsetsFit 0
  | _ => True

/-- The same for fields, the first of which lies `start` bytes into the whole. -/
def Fields.OffsetsFit : Fields → Nat → Prop
  | .nil, _ => True
  | .cons _ ty init rest, start =>
      (init.isSome = true ∨ ty.needsDefaultInit = true → start / slotSize < 0x100000000) ∧
        ty.OffsetsFit ∧ rest.OffsetsFit (start + ty.size)

end

/-- With an address on top of the stack, the code moves that address by `d` slots, leaves what is
below it alone and changes storage as `P` says. -/
def Advances (code : List Statement) (d : Nat) (P : Nat → (Nat → Word) → (Nat → Word) → Prop) :
    Prop :=
  ∀ a σ m, ∃ m', execAll code ⟨.place a :: σ, m⟩ = some ⟨.place (a + d) :: σ, m'⟩ ∧ P a m m'

namespace Advances

variable {code code' : List Statement} {d d' : Nat}
  {P P' : Nat → (Nat → Word) → (Nat → Word) → Prop}

theorem nil : Advances [] 0 fun _ m m' => m' = m := fun _ _ m => ⟨m, rfl, rfl⟩

theorem append (h : Advances code d P) (h' : Advances code' d' P') :
    Advances (code ++ code') (d + d') fun a m m'' => ∃ m', P a m m' ∧ P' (a + d) m' m'' := by
  intro a σ m
  obtain ⟨m', hrun, hP⟩ := h a σ m
  obtain ⟨m'', hrun', hP'⟩ := h' (a + d) σ m'
  refine ⟨m'', ?_, m', hP, hP'⟩
  rw [execAll_append, hrun, ← Nat.add_assoc]
  exact hrun'

theorem imp {Q : Nat → (Nat → Word) → (Nat → Word) → Prop} (h : Advances code d P)
    (hQ : ∀ a m m', P a m m' → Q a m m') : Advances code d Q := fun a σ m =>
  let ⟨m', hrun, hP⟩ := h a σ m
  ⟨m', hrun, hQ a m m' hP⟩

/-- Code that works on a copy of the address. -/
theorem onCopy (h : Advances code d P) :
    Advances ([Statement.op .dup] ++ code ++ [Statement.op .drop]) 0 P := by
  intro a σ m
  obtain ⟨m', hrun, hP⟩ := h a (.place a :: σ) m
  refine ⟨m', ?_, hP⟩
  rw [List.append_assoc, execAll_append]
  simp only [execAll, Statement.exec?_op, Opcode.exec?, Option.bind_some, execAll_append, hrun]
  rfl

end Advances

namespace Lowering

open Statement (op push pushInt)

theorem offset_advances (n : UInt32) : Advances (offset n) n.toNat fun _ m m' => m' = m := by
  intro a σ m
  refine ⟨m, ?_, rfl⟩
  unfold offset
  split
  · next hzero =>
      rw [hzero]
      rfl
  · have hword : Word.ofInt n.toNat = n := Word.ofInt_natCast n
    simp only [execAll, Statement.exec?_pushInt, Statement.exec?_op, Opcode.exec?, Option.bind_some,
      hword]

/-- A word that is pushed above an address is written there. -/
theorem store_advances {i : Statement} {w : Word}
    (h : ∀ s : StorageState, i.exec? s = some ⟨.word w :: s.stack, s.memory⟩) :
    Advances [i, op .storeRev] 0 fun a m m' => m' = Function.update m a w := by
  intro a σ m
  refine ⟨_, ?_, rfl⟩
  simp only [execAll, h, Statement.exec?_op, Opcode.exec?, Option.bind_some]
  rfl

theorem literal_advances {v : Literal} {w : Word} (h : v.word? = some w) :
    Advances (literal v ++ [op .storeRev]) 0 (Lays True 0 [w]) := by
  suffices hpush : ∃ i, literal v = [i] ∧
      ∀ s : StorageState, i.exec? s = some ⟨.word w :: s.stack, s.memory⟩ by
    obtain ⟨i, hi, hexec⟩ := hpush
    rw [hi]
    exact (store_advances hexec).imp fun a m m' hm => hm ▸ Lays.single w
  cases v with
  | text s => cases h
  | int n =>
      obtain rfl := Option.some.inj h
      exact ⟨_, rfl, fun s => by rw [Statement.exec?_pushInt, Word.ofInt_toInt]⟩
  | float f =>
      obtain rfl := Option.some.inj h
      exact ⟨_, rfl, fun s => rfl⟩
  | bool b =>
      obtain rfl := Option.some.inj h
      refine ⟨_, rfl, fun s => ?_⟩
      cases b <;> rfl
  | null =>
      obtain rfl := Option.some.inj h
      exact ⟨_, rfl, fun s => by rw [Statement.exec?_op]; rfl⟩

theorem toNat_ofNat_le (n : Nat) : (UInt32.ofNat n).toNat ≤ n := by
  rw [UInt32.toNat_ofNat']
  exact Nat.mod_le _ _

/-- Code for a part that lies `s` slots into the whole. -/
theorem part_advances {code : List Statement} {d : Nat} {p : Prop} {ws : List Word}
    (h : Advances code d (Lays p 0 ws)) (s : Nat) :
    Advances ([op .dup] ++ offset (UInt32.ofNat s) ++ code ++ [op .drop]) 0
      (Lays (p ∧ s < 0x100000000) s ws) := by
  have hcopy := ((offset_advances (UInt32.ofNat s)).append h).onCopy
  rw [← List.append_assoc] at hcopy
  refine hcopy.imp fun a m m'' ⟨m', hsame, hlays⟩ => ?_
  subst hsame
  exact (hlays.shift (toNat_ofNat_le s)).imp fun ⟨hp, hs⟩ => ⟨hp, UInt32.toNat_ofNat_of_lt' hs⟩

theorem slot_add {start : Nat} (h : start % slotSize = 0) (n : Nat) :
    (start + slotSize * n) % slotSize = 0 ∧
      (start + slotSize * n) / slotSize = start / slotSize + n :=
  ⟨by rw [Nat.add_mul_mod_self_left, h], Nat.add_mul_div_left _ _ (by decide)⟩

/-- Parts one behind the other. -/
theorem parts_advances {code code' : List Statement} {p q : Prop} {s : Nat} {ws ws' : List Word}
    (h : Advances code 0 (Lays p s ws)) (h' : Advances code' 0 (Lays q (s + ws.length) ws')) :
    Advances (code ++ code') 0 (Lays (p ∧ q) s (ws ++ ws')) :=
  (h.append h').imp fun _ _ _ ⟨_, hlays, hlays'⟩ => hlays.append hlays'

theorem zeros_advances {ws : List Word} (h : ∀ w ∈ ws, w = 0) (p : Prop) (s : Nat) :
    Advances [] 0 (Lays p s ws) :=
  Advances.nil.imp fun _ _ _ hm => hm ▸ Lays.zeros h

/-- The same code once for each of `n` items, each as far behind the one before as the address is
moved. -/
theorem items_advances {code : List Statement} {p : Prop} {ws : List Word} {c : Nat}
    (h : Advances code c (Lays p 0 ws)) (hc : c ≤ ws.length) (n : Nat) :
    Advances (List.replicate n code).flatten (n * c)
      (Lays ((0 < n → p) ∧ (1 < n → c = ws.length)) 0 (List.replicate n ws).flatten) := by
  induction n with
  | zero =>
      rw [Nat.zero_mul]
      exact zeros_advances (fun w hw => absurd hw List.not_mem_nil) _ 0
  | succ n ih =>
      rw [List.replicate_succ, List.flatten_cons, Nat.succ_mul, Nat.add_comm, List.replicate_succ,
        List.flatten_cons]
      refine (h.append ih).imp fun a m m'' ⟨m', hfirst, hrest⟩ => ?_
      cases n with
      | zero =>
          exact (hfirst.append (q := True) hrest.of_nil).imp fun hp => ⟨hp.1 Nat.one_pos, trivial⟩
      | succ n =>
          have hshift : Lays _ (0 + ws.length) _ a m' m'' := hrest.shift (by omega)
          refine (hfirst.append hshift).imp fun ⟨hp, hcut⟩ => ?_
          have hcut := hcut (by omega)
          exact ⟨hp (by omega), ⟨fun _ => hp (by omega), fun _ => hcut⟩, by omega⟩

mutual

theorem initInPlace_advances : (ty : Ty) → ty.PlainDefaults →
    Advances (initInPlace ty) 0 (Lays ty.OffsetsFit 0 ty.defaultWords)
  | .array item length, h => by
      have hslots : item.defaultWords.length = item.slots := Ty.slots_defaultWords h
      have hcount : Advances [pushInt length.toNat, op .storeRev] 0 (Lays True 0 [length]) := by
        refine (store_advances fun s => ?_).imp fun a m m' hm => hm ▸ Lays.single length
        rw [Statement.exec?_pushInt, Word.ofInt_natCast]
      rw [initInPlace, Ty.defaultWords, ← List.singleton_append]
      split
      · next hneeds =>
          have hitem : Advances (initInPlace item ++ offset (UInt32.ofNat item.slots))
              (0 + (UInt32.ofNat item.slots).toNat) (Lays item.OffsetsFit 0 item.defaultWords) :=
            ((initInPlace_advances item h).append (offset_advances _)).imp
              fun a m m'' ⟨m', hlays, hsame⟩ => hsame ▸ hlays
          rw [Nat.zero_add] at hitem
          have hitems := items_advances hitem (hslots ▸ toNat_ofNat_le item.slots) length.toNat
          refine (parts_advances hcount (part_advances hitems 1)).imp fun a m m' hlays => ?_
          refine hlays.imp fun hfit =>
            ⟨trivial, ⟨fun hn => (hfit hneeds hn).1, fun hn => ?_⟩, by decide⟩
          rw [hslots]
          exact UInt32.toNat_ofNat_of_lt' ((hfit hneeds (by omega)).2 hn)
      · next hneeds =>
          have hzero : ∀ w ∈ (List.replicate length.toNat item.defaultWords).flatten, w = 0 := by
            intro w hw
            obtain ⟨ws, hws, hw⟩ := List.mem_flatten.mp hw
            obtain rfl := List.eq_of_mem_replicate hws
            exact item.defaultWords_zero (Bool.eq_false_iff.mpr hneeds) w hw
          refine (parts_advances hcount (zeros_advances hzero True _)).imp fun a m m' hlays => ?_
          exact hlays.imp fun _ => ⟨trivial, trivial⟩
  | .struct _ fields, h => by
      rw [initInPlace, Ty.defaultWords, Ty.OffsetsFit]
      exact initFields_advances fields h 0 rfl
  | .void, _ | .int, _ | .float, _ | .bool, _ | .string, _ | .null, _ | .any, _ | .auto, _
  | .vector, _ | .handle _, _ | .textLabel _, _ | .enum _ _, _ | .function _ _, _
  | .typeName _, _ => by
      simp only [Ty.defaultWords]
      exact zeros_advances (fun w hw => List.eq_of_mem_replicate hw) _ 0

theorem initFields_advances : (fields : Fields) → fields.PlainDefaults → (start : Nat) →
    start % slotSize = 0 →
      Advances (initFields start fields) 0
        (Lays (fields.OffsetsFit start) (start / slotSize) fields.defaultWords)
  | .nil, _, start, _ => by
      rw [initFields, Fields.defaultWords]
      exact zeros_advances (fun w hw => absurd hw List.not_mem_nil) _ _
  | .cons name ty (some v) rest, h, start, hstart => by
      have hsize : ty.size = slotSize * 1 := by
        rcases (h.2.1 v rfl).1 with rfl | rfl | rfl <;> rfl
      have hword := Literal.word?_of_not_text (h.2.1 v rfl).2
      have hhere := part_advances (literal_advances hword) (start / slotSize)
      have hrest := initFields_advances rest h.2.2 (start + ty.size) (hsize ▸ (slot_add hstart 1).1)
      have hnext : (start + ty.size) / slotSize = start / slotSize + 1 :=
        hsize ▸ (slot_add hstart 1).2
      rw [hnext] at hrest
      have hboth := parts_advances hhere hrest
      rw [Fields.defaultWords, ← List.singleton_append]
      simp only [List.append_assoc, List.cons_append, List.nil_append] at hboth
      unfold initFields
      simp only [List.append_assoc, List.cons_append, List.nil_append]
      exact hboth.imp fun a m m' hlays => hlays.imp fun hfit =>
        ⟨⟨trivial, hfit.1 (.inl rfl)⟩, hfit.2.2⟩
  | .cons name ty none rest, h, start, hstart => by
      have hsize := ty.length_defaultWords h.1
      have hrest := initFields_advances rest h.2.2 (start + ty.size) (hsize ▸ (slot_add hstart _).1)
      have hnext : (start + ty.size) / slotSize = start / slotSize + ty.defaultWords.length :=
        hsize ▸ (slot_add hstart _).2
      rw [hnext] at hrest
      rw [Fields.defaultWords]
      unfold initFields
      dsimp only
      split
      · next hneeds =>
          have hhere := part_advances (initInPlace_advances ty h.1) (start / slotSize)
          refine (parts_advances hhere hrest).imp fun a m m' hlays => ?_
          exact hlays.imp fun hfit => ⟨⟨hfit.2.1, hfit.1 (.inr hneeds)⟩, hfit.2.2⟩
      · next hneeds =>
          have hzero := ty.defaultWords_zero (Bool.eq_false_iff.mpr hneeds)
          refine (parts_advances (zeros_advances hzero True _) hrest).imp fun a m m' hlays => ?_
          exact hlays.imp fun hfit => ⟨trivial, hfit.2.2⟩

end

end Lowering

theorem slotsFor_mono {n k : Nat} (h : n ≤ k) : slotsFor n ≤ slotsFor k :=
  Nat.div_le_div_right (Nat.add_le_add_right h 3)

mutual

/-- In a type of fewer than 2^32 slots every distance fits. -/
theorem Ty.offsetsFit_of_slots : (ty : Ty) → ty.slots < 0x100000000 → ty.OffsetsFit
  | .array item length, h => by
      have hsize : (Ty.array item length).size = slotSize + length.toNat * item.size := rfl
      rw [Ty.OffsetsFit]
      intro _ hn
      have hitem : item.slots < 0x100000000 := by
        have hle : item.size ≤ length.toNat * item.size := Nat.le_mul_of_pos_left _ hn
        exact Nat.lt_of_le_of_lt (slotsFor_mono (by omega)) h
      exact ⟨item.offsetsFit_of_slots hitem, fun _ => hitem⟩
  | .struct _ fields, h => by
      rw [Ty.OffsetsFit]
      exact fields.offsetsFit_of_slots 0 (by rw [Nat.zero_add]; exact h)
  | .void, _ | .int, _ | .float, _ | .bool, _ | .string, _ | .null, _ | .any, _ | .auto, _
  | .vector, _ | .handle _, _ | .textLabel _, _ | .enum _ _, _ | .function _ _, _
  | .typeName _, _ => trivial

theorem Fields.offsetsFit_of_slots : (fields : Fields) → (start : Nat) →
    slotsFor (start + fields.size) < 0x100000000 → fields.OffsetsFit start
  | .nil, _, _ => trivial
  | .cons name ty init rest, start, h => by
      have hsize : (Fields.cons name ty init rest).size = ty.size + rest.size := rfl
      rw [hsize, ← Nat.add_assoc] at h
      refine ⟨fun _ => ?_, ty.offsetsFit_of_slots ?_, rest.offsetsFit_of_slots _ h⟩
      · exact Nat.lt_of_le_of_lt (Nat.div_le_div_right (by omega)) h
      · exact Nat.lt_of_le_of_lt (slotsFor_mono (by omega)) h

end

/-- The code that initialises a local in place ends with the stack it found and writes nothing
outside the local. Where every distance fits a word, it turns zeros into the words of a static of
that type without an initializer; those are all zero when the type is judged to need no code. The
type must be one of which there can be a static, so no larger than can be allocated. -/
theorem initInPlace_static (name : String) (isArg : Bool) {ty : Ty} (h : ty.PlainDefaults)
    (hlimit : ty.size ≤ allocationLimit) :
    ∃ bs, DataField.bytes ⟨name, ty, none, isArg⟩ = .ok bs ∧
      (∀ a σ m, ∃ m',
        execAll (Lowering.initInPlace ty) ⟨.place a :: σ, m⟩ = some ⟨.place a :: σ, m'⟩ ∧
        (∀ i, i < a ∨ a + ty.slots ≤ i → m' i = m i) ∧
        (ty.OffsetsFit → Blank m a ty.slots → readWords m' a ty.slots = wordsOfBytes bs)) ∧
      (ty.needsDefaultInit = false → ∀ w ∈ wordsOfBytes bs, w = 0) := by
  refine ⟨_, DataField.bytes_defaultWords name isArg h hlimit, fun a σ m => ?_, ?_⟩
  · obtain ⟨m', hrun, hlays⟩ := Lowering.initInPlace_advances ty h a σ m
    rw [wordsOfBytes_bytesOfWords, ← Ty.slots_defaultWords h]
    exact ⟨m', hrun, hlays.outside, hlays.inside⟩
  · rw [wordsOfBytes_bytesOfWords]
    exact ty.defaultWords_zero

/-- Arrays in structs in arrays, with text labels, defaults and an array without items. -/
def convoy : Ty :=
  let truck : Ty := .struct "TRUCK" (.cons "name" (.textLabel 16) none
    (.cons "speed" .float (some (.float ⟨0x3F800000⟩)) (.cons "loads" (.array .auto 0) none .nil)))
  .struct "CONVOY" (.cons "lead" .vector none
    (.cons "trucks" (.array truck 2) none (.cons "open" .bool (some (.bool true)) .nil)))

def overlong : Ty :=
  .struct "OVERLONG" (.cons "items" (.array .int 0xFFFFFFFF) none
    (.cons "last" .int (some (.int 7)) .nil))

/-- The convoy is initialised like a static. The default of the overlong struct lands on the count
of its array, where a static holds the count. -/
theorem initInPlace_static_convoy :
    convoy.PlainDefaults ∧ convoy.OffsetsFit ∧
      (∃ m', execAll (Lowering.initInPlace convoy) ⟨[.place 5], fun _ => 0⟩ =
          some ⟨[.place 5], m'⟩ ∧
        readWords m' 5 17 =
          [0, 0, 0, 2, 0, 0, 0, 0, 0x3F800000, 0, 0, 0, 0, 0, 0x3F800000, 0, 1]) ∧
      overlong.PlainDefaults ∧
      ∃ bs m', DataField.bytes ⟨"far", overlong, none, false⟩ = .ok bs ∧
        execAll (Lowering.initInPlace overlong) ⟨[.place 5], fun _ => 0⟩ = some ⟨[.place 5], m'⟩ ∧
        (wordsOfBytes bs).head? = some 0xFFFFFFFF ∧ m' 5 = 7 := by
  have hconvoy : convoy.PlainDefaults := by
    refine ⟨trivial, nofun, ⟨rfl, nofun, trivial, ?_, trivial, nofun, trivial⟩, nofun, trivial, ?_,
      trivial⟩
    · rintro v ⟨⟩
      exact ⟨.inr (.inl rfl), nofun⟩
    · rintro v ⟨⟩
      exact ⟨.inr (.inr rfl), nofun⟩
  have hoverlong : overlong.PlainDefaults := by
    refine ⟨trivial, nofun, trivial, ?_, trivial⟩
    rintro v ⟨⟩
    exact ⟨.inl rfl, nofun⟩
  have hfit : convoy.OffsetsFit := convoy.offsetsFit_of_slots (by decide +kernel)
  refine ⟨hconvoy, hfit, ?_, hoverlong, ?_⟩
  · obtain ⟨bs, hbs, hall, -⟩ := initInPlace_static "front" false hconvoy (by decide)
    obtain ⟨m', hrun, -, hwords⟩ := hall 5 [] fun _ => 0
    have hdefaults := DataField.bytes_defaultWords "front" false hconvoy (by decide)
    obtain rfl := Except.ok.inj (hdefaults.symm.trans hbs)
    rw [wordsOfBytes_bytesOfWords] at hwords
    have hslots : convoy.slots = 17 := by decide +kernel
    have hdefault : convoy.defaultWords =
        [0, 0, 0, 2, 0, 0, 0, 0, 0x3F800000, 0, 0, 0, 0, 0, 0x3F800000, 0, 1] := by decide +kernel
    exact ⟨m', hrun, hslots ▸ hdefault ▸ hwords hfit fun _ _ _ => rfl⟩
  · have hcode : Lowering.initInPlace overlong = [.op .dup, .pushInt 0xFFFFFFFF, .op .storeRev,
        .op .drop, .op .dup, .pushInt 7, .op .storeRev, .op .drop] := by decide +kernel
    refine ⟨_, Function.update (Function.update (fun _ => 0) 5 (Word.ofInt 0xFFFFFFFF)) 5
      (Word.ofInt 7), DataField.bytes_defaultWords "far" false hoverlong (by decide), ?_, ?_, ?_⟩
    · rw [hcode]
      simp only [execAll, Statement.exec?_op, Statement.exec?_pushInt, Opcode.exec?,
        Option.bind_some]
    · rw [wordsOfBytes_bytesOfWords]
      rfl
    · rw [Function.update_self]
      decide

end GameScript
