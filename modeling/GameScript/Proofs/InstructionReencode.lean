import Mathlib.Data.List.TakeWhile
import GameScript.Proofs.CodeRegions

/-!
# One instruction, read and written again

Whatever the decoder reads from the bytes of an instruction is encoded as the same bytes. For most
layouts the bytes alone decide this. The others need that texts have their shortest form and frame
openings no name, which is so for code that was assembled, and that the name of an address leads
back to that address.
-/
namespace GameScript

/-! ## Operands of a fixed size -/

namespace Encode

theorem byteOf_natCast {n : Nat} (h : n < 0x100) (mnemonic : String) :
    byteOf mnemonic n = .ok (leBytes 1 n) := by
  rw [byteOf, if_pos (by omega)]
  rfl

theorem halfOf_natCast {n : Nat} (h : n < 0x10000) (mnemonic : String) :
    halfOf mnemonic n = .ok (leBytes 2 n) := by
  rw [halfOf, if_pos (by omega)]
  rfl

theorem wordOf_natCast {n : Nat} (h : n < 0x100000000) (mnemonic : String) :
    wordOf mnemonic n = .ok (leBytes 4 n) := by
  have hmod : ((n : Int) % 0x100000000).toNat = n := by omega
  rw [wordOf, if_pos (by omega), hmod]

/-- The signed reading of a word has the digits of the word. -/
theorem wordOf_toSigned (w : Word) (mnemonic : String) :
    wordOf mnemonic w.toSigned = .ok w.toBytes := by
  have hword := sameWord_toSigned w
  have hw : w.toNat < 0x100000000 := w.toNat_lt
  have hlow : -0x80000000 ≤ w.toSigned ∧ w.toSigned < 0x80000000 := by
    unfold Word.toSigned
    constructor
    · have h := Int.le_bmod (x := w.toNat) (m := 0x100000000) (by decide)
      omega
    · have h := Int.bmod_lt (x := w.toNat) (m := 0x100000000) (by decide)
      omega
  have hmod : (w.toSigned % 0x100000000).toNat = w.toNat := by
    unfold SameWord at hword
    omega
  rw [wordOf, if_pos (by omega), hmod]
  rfl

end Encode

/-- Every name has the identity under which it is known. -/
def NativeNames.Consistent (natives : NativeNames) : Prop :=
  ∀ e ∈ natives.entries, (Identity.ofName e.2).value = e.1

instance : DecidablePred NativeNames.Consistent := fun natives =>
  inferInstanceAs (Decidable (∀ e ∈ natives.entries, (Identity.ofName e.2).value = e.1))

theorem NativeNames.Consistent.find? {natives : NativeNames} (h : natives.Consistent)
    {hash : UInt32} {name : String} (hname : natives.find? hash = some name) :
    (Identity.ofName name).value = hash :=
  h (hash, name) (mem_of_lookup hname)

section
variable {labels : AddressLabels} {natives : NativeNames} {o : Opcode} {code tail : Bytes}
  {operands : List Operand} {key : String → String} {mnemonic : String}

/-- Operands that are one number take the digits of that number. -/
theorem digits_of_read? {k : Nat} {f : Nat → Operand}
    (h : (tail.read? k).bind (fun p => some ([f p.1], k)) = some (operands, tail.length)) :
    ∃ n < Nat.pow 256 k, operands = [f n] ∧ tail = leBytes k n := by
  obtain ⟨⟨n, rest⟩, hread, heq⟩ := Option.bind_eq_some_iff.mp h
  obtain ⟨rfl, hlength⟩ := Prod.mk.inj (Option.some.inj heq)
  obtain ⟨rfl, hn⟩ := Bytes.eq_of_read? hread
  rw [List.length_append, length_leBytes] at hlength
  have hrest : rest = [] := List.eq_nil_of_length_eq_zero (by omega)
  exact ⟨n, hn, rfl, by rw [hrest, List.append_nil]⟩

theorem named_of_decode_none (hl : o.layout = .none)
    (h : decodeOperands? labels natives o code tail = some (operands, tail.length)) :
    Encode.named key mnemonic o operands = .ok [.bytes (o.toByte :: tail)] := by
  rw [decodeOperands?, hl] at h
  obtain ⟨rfl, hlength⟩ := Prod.mk.inj (Option.some.inj h)
  obtain rfl := List.eq_nil_of_length_eq_zero hlength.symm
  simp only [Encode.named, hl]
  rfl

theorem named_of_decode_u8 (hl : o.layout = .u8)
    (h : decodeOperands? labels natives o code tail = some (operands, tail.length)) :
    Encode.named key mnemonic o operands = .ok [.bytes (o.toByte :: tail)] := by
  rw [decodeOperands?, hl] at h
  obtain ⟨n, hn, rfl, rfl⟩ := digits_of_read? (k := 1) (f := fun n => .int n) h
  simp only [Encode.named, hl]
  exact bind_eq_ok.mpr
    ⟨(), rfl, bind_eq_ok.mpr ⟨n, rfl, bind_eq_ok.mpr ⟨_, Encode.byteOf_natCast hn _, rfl⟩⟩⟩

theorem named_of_decode_u16 (hl : o.layout = .u16)
    (h : decodeOperands? labels natives o code tail = some (operands, tail.length)) :
    Encode.named key mnemonic o operands = .ok [.bytes (o.toByte :: tail)] := by
  rw [decodeOperands?, hl] at h
  obtain ⟨n, hn, rfl, rfl⟩ := digits_of_read? (k := 2) (f := fun n => .int n) h
  simp only [Encode.named, hl]
  exact bind_eq_ok.mpr
    ⟨(), rfl, bind_eq_ok.mpr ⟨n, rfl, bind_eq_ok.mpr ⟨_, Encode.halfOf_natCast hn _, rfl⟩⟩⟩

theorem named_of_decode_u32 (hl : o.layout = .u32)
    (h : decodeOperands? labels natives o code tail = some (operands, tail.length)) :
    Encode.named key mnemonic o operands = .ok [.bytes (o.toByte :: tail)] := by
  rw [decodeOperands?, hl] at h
  obtain ⟨n, hn, rfl, rfl⟩ := digits_of_read? (k := 4) (f := fun n => .int n) h
  simp only [Encode.named, hl]
  exact bind_eq_ok.mpr
    ⟨(), rfl, bind_eq_ok.mpr ⟨n, rfl, bind_eq_ok.mpr ⟨_, Encode.wordOf_natCast hn _, rfl⟩⟩⟩

theorem named_of_decode_f32 (hl : o.layout = .f32)
    (h : decodeOperands? labels natives o code tail = some (operands, tail.length)) :
    Encode.named key mnemonic o operands = .ok [.bytes (o.toByte :: tail)] := by
  rw [decodeOperands?, hl] at h
  obtain ⟨⟨w, rest⟩, hread, heq⟩ := Option.bind_eq_some_iff.mp h
  obtain ⟨rfl, hlength⟩ := Prod.mk.inj (Option.some.inj heq)
  obtain rfl := Bytes.eq_of_readWord? hread
  rw [List.length_append, Word.length_toBytes] at hlength
  obtain rfl : rest = [] := List.eq_nil_of_length_eq_zero (by omega)
  simp only [Encode.named, hl, List.append_nil]
  rfl

theorem named_of_decode_leave (hl : o.layout = .leave)
    (h : decodeOperands? labels natives o code tail = some (operands, tail.length)) :
    Encode.named key mnemonic o operands = .ok [.bytes (o.toByte :: tail)] := by
  rw [decodeOperands?, hl] at h
  obtain ⟨⟨params, bs⟩, hparams, h⟩ := Option.bind_eq_some_iff.mp h
  obtain ⟨⟨results, rest⟩, hresults, heq⟩ := Option.bind_eq_some_iff.mp h
  obtain ⟨rfl, hlength⟩ := Prod.mk.inj (Option.some.inj heq)
  obtain ⟨rfl, hp⟩ := Bytes.eq_of_read? hparams
  obtain ⟨rfl, hr⟩ := Bytes.eq_of_read? hresults
  simp only [List.length_append, length_leBytes] at hlength
  obtain rfl : rest = [] := List.eq_nil_of_length_eq_zero (by omega)
  have hparams := Encode.byteOf_natCast hp mnemonic
  have hresults := Encode.byteOf_natCast hr mnemonic
  simp only [Encode.named, hl, List.append_nil]
  exact bind_eq_ok.mpr ⟨(), rfl, bind_eq_ok.mpr ⟨params, rfl, bind_eq_ok.mpr ⟨_, hparams,
    bind_eq_ok.mpr ⟨results, rfl, bind_eq_ok.mpr ⟨_, hresults, rfl⟩⟩⟩⟩⟩

/-- A command is written by its name or by its identity. -/
theorem named_of_decode_native (hnatives : natives.Consistent) (hl : o.layout = .native)
    (h : decodeOperands? labels natives o code tail = some (operands, tail.length)) :
    Encode.named key mnemonic o operands = .ok [.bytes (o.toByte :: tail)] := by
  rw [decodeOperands?, hl] at h
  obtain ⟨⟨params, bs⟩, hparams, h⟩ := Option.bind_eq_some_iff.mp h
  obtain ⟨⟨results, bs'⟩, hresults, h⟩ := Option.bind_eq_some_iff.mp h
  obtain ⟨⟨hash, rest⟩, hhash, heq⟩ := Option.bind_eq_some_iff.mp h
  obtain ⟨rfl, hlength⟩ := Prod.mk.inj (Option.some.inj heq)
  obtain ⟨rfl, hp⟩ := Bytes.eq_of_read? hparams
  obtain ⟨rfl, hr⟩ := Bytes.eq_of_read? hresults
  obtain rfl := Bytes.eq_of_readWord? hhash
  simp only [List.length_append, length_leBytes, Word.length_toBytes] at hlength
  obtain rfl : rest = [] := List.eq_nil_of_length_eq_zero (by omega)
  have hparams := Encode.byteOf_natCast hp mnemonic
  have hresults := Encode.byteOf_natCast hr mnemonic
  have hcommand (a b : Operand) :
      Encode.commandOperand mnemonic [a, b, commandName natives hash] = .ok hash.toBytes := by
    unfold commandName
    cases hname : natives.find? hash with
    | none => exact Encode.wordOf_natCast hash.toNat_lt mnemonic
    | some name =>
        have hidentity := hnatives.find? hname
        exact congrArg (fun w : Word => Except.ok w.toBytes) hidentity
  simp only [Encode.named, hl, List.append_nil]
  refine bind_eq_ok.mpr ⟨(), rfl, bind_eq_ok.mpr ⟨params, rfl, bind_eq_ok.mpr ⟨_, hparams,
    bind_eq_ok.mpr
      ⟨results, rfl, bind_eq_ok.mpr ⟨_, hresults, bind_eq_ok.mpr ⟨_, hcommand _ _, ?_⟩⟩⟩⟩⟩⟩
  rw [List.append_assoc]
  rfl

end

/-! ## Addresses -/

/-- The name of the address leads back to it. -/
def AddressLabels.LeadsTo (labels : AddressLabels) (address? : String → Option Nat)
    (key : String → String) (ip : Nat) : Prop :=
  ∃ label, labels.lookup ip = some label ∧ address? (key label) = some ip

/-- The outcome of encoding is an instruction that has these bytes once its labels are placed. -/
def EncodesAs (address? : String → Option Nat) (encoded : Except EncodingError (List Piece))
    (bs : Bytes) : Prop :=
  ∃ pieces, encoded = .ok pieces ∧ (∀ p ∈ pieces, p.Placed address?) ∧
    filledAll (fun key => (address? key).getD 0) pieces = bs

section
variable {labels : AddressLabels} {natives : NativeNames} {o : Opcode} {code tail : Bytes}
  {operands : List Operand} {address? : String → Option Nat} {key : String → String}
    {mnemonic : String}

theorem encodesAs_bytes {encoded : Except EncodingError (List Piece)} {bs : Bytes}
    (h : encoded = .ok [.bytes bs]) : EncodesAs address? encoded bs :=
  ⟨_, h, List.forall_mem_singleton.mpr trivial, List.append_nil bs⟩

theorem encodesAs_target (bs : Bytes) (target : String → String) (label : String) {ip : Nat}
    {encoded : Except EncodingError (List Piece)}
    (h : encoded = .ok [.bytes bs, .address (target label) label]) (hip : ip < 0x100000000)
    (haddress : address? (target label) = some ip) :
    EncodesAs address? encoded (bs ++ leBytes 4 ip) := by
  refine ⟨_, h, ?_, ?_⟩
  · rw [List.forall_mem_cons, List.forall_mem_singleton]
    exact ⟨trivial, ip, haddress, hip⟩
  · simp only [filledAll_cons, filledAll_nil, Piece.filled, haddress, Option.getD_some,
      List.append_nil]

/-- The number behind the opcode of a jump or a call. -/
theorem address_of_decode (hl : o.layout = .label ∨ o.layout = .function)
    (h : decodeOperands? labels natives o code tail = some (operands, tail.length)) :
    ∃ ip < 0x100000000, operands = [targetOperand labels ip] ∧ tail = leBytes 4 ip ∧
      addressAt (o.toByte :: tail) 1 = ip := by
  have hdigits : ∃ ip < Nat.pow 256 4, operands = [targetOperand labels ip] ∧
      tail = leBytes 4 ip := by
    rw [decodeOperands?] at h
    rcases hl with hl | hl
    · rw [hl] at h
      exact digits_of_read? (k := 4) (f := targetOperand labels) h
    · rw [hl] at h
      exact digits_of_read? (k := 4) (f := targetOperand labels) h
  obtain ⟨ip, hip, rfl, rfl⟩ := hdigits
  refine ⟨ip, hip, rfl, rfl, ?_⟩
  have hread : addressAt ([o.toByte] ++ (leBytes 4 ip ++ [])) 1 = ip := addressAt_append rfl hip []
  rwa [List.append_nil] at hread

theorem encodesAs_of_decode_label (hl : o.layout = .label)
    (h : decodeOperands? labels natives o code tail = some (operands, tail.length))
    (htarget : labels.LeadsTo address? key (addressAt (o.toByte :: tail) 1)) :
    EncodesAs address? (Encode.named key mnemonic o operands) (o.toByte :: tail) := by
  obtain ⟨ip, hip, rfl, rfl, hread⟩ := address_of_decode (.inl hl) h
  rw [hread] at htarget
  obtain ⟨label, hlabel, haddress⟩ := htarget
  refine encodesAs_target [o.toByte] key label ?_ hip haddress
  simp only [Encode.named, hl, targetOperand, hlabel]
  rfl

theorem encodesAs_of_decode_function (hl : o.layout = .function)
    (h : decodeOperands? labels natives o code tail = some (operands, tail.length))
    (htarget : labels.LeadsTo address? functionKey (addressAt (o.toByte :: tail) 1)) :
    EncodesAs address? (Encode.named key mnemonic o operands) (o.toByte :: tail) := by
  obtain ⟨ip, hip, rfl, rfl, hread⟩ := address_of_decode (.inr hl) h
  rw [hread] at htarget
  obtain ⟨label, hlabel, haddress⟩ := htarget
  refine encodesAs_target [o.toByte] functionKey label ?_ hip haddress
  simp only [Encode.named, hl, targetOperand, hlabel]
  rfl

/-! ## Cases -/

theorem caseBytes_of_decode {n used : Nat} {bs : Bytes}
    (h : decodeCases labels n bs = some (operands, used)) :
    ∃ (cs : List (Nat × Nat)) (rest : Bytes), cs.length = n ∧ used = 8 * n ∧
      bs = caseBytes cs ++ rest ∧
      (∀ c ∈ cs, c.1 < 0x100000000 ∧ c.2 < 0x100000000) ∧
        operands = cs.map (caseOperand labels) := by
  induction n generalizing bs operands used with
  | zero =>
      obtain ⟨rfl, rfl⟩ := Prod.mk.inj (Option.some.inj h)
      exact ⟨[], bs, rfl, rfl, rfl, fun c hc => absurd hc List.not_mem_nil, rfl⟩
  | succ n ih =>
      obtain ⟨⟨value, bs'⟩, hvalue, h⟩ := Option.bind_eq_some_iff.mp h
      obtain ⟨⟨target, bs''⟩, htarget, h⟩ := Option.bind_eq_some_iff.mp h
      obtain ⟨⟨more, used'⟩, hmore, heq⟩ := Option.bind_eq_some_iff.mp h
      obtain ⟨rfl, rfl⟩ := Prod.mk.inj (Option.some.inj heq)
      obtain rfl := Bytes.eq_of_readWord? hvalue
      obtain rfl := Bytes.eq_of_readWord? htarget
      obtain ⟨cs, rest, hlength, rfl, rfl, hbounds, rfl⟩ := ih hmore
      refine ⟨(value.toNat, target.toNat) :: cs, rest, congrArg (· + 1) hlength, by omega, ?_, ?_,
        ?_⟩
      · simp only [caseBytes, List.flatMap_cons, List.append_assoc, Word.toBytes]
      · rw [List.forall_mem_cons]
        exact ⟨⟨value.toNat_lt, target.toNat_lt⟩, hbounds⟩
      · rw [List.map_cons, caseOperand, UInt32.ofNat_toNat]

/-- The address of a case stands behind its value. -/
theorem addressAt_caseBytes {cs : List (Nat × Nat)} (hbounds : ∀ c ∈ cs, c.1 < 0x100000000 ∧
    c.2 < 0x100000000) {i : Nat} {c : Nat × Nat} (hc : cs[i]? = some c) (front : Bytes) :
    addressAt (front ++ caseBytes cs) (front.length + 8 * i + 4) = c.2 := by
  induction cs generalizing i front with
  | nil => cases hc
  | cons d cs ih =>
      rw [List.forall_mem_cons] at hbounds
      rw [caseBytes, List.flatMap_cons, List.append_assoc]
      cases i with
      | zero =>
          obtain rfl := Option.some.inj hc
          rw [← List.append_assoc]
          exact addressAt_append (by rw [List.length_append, length_leBytes]) hbounds.1.2 _
      | succ i =>
          have hnext := ih hbounds.2 hc (front ++ (leBytes 4 d.1 ++ leBytes 4 d.2))
          simp only [List.length_append, length_leBytes, List.append_assoc] at hnext
          have hoffset :
              front.length + (4 + 4) + 8 * i + 4 = front.length + 8 * (i + 1) + 4 := by omega
          rwa [hoffset] at hnext

theorem encodesAs_cases (mnemonic : String) {cs : List (Nat × Nat)}
    (hbounds : ∀ c ∈ cs, c.1 < 0x100000000 ∧ c.2 < 0x100000000)
    (htargets : ∀ c ∈ cs, labels.LeadsTo address? key c.2) (index : Nat) :
    EncodesAs address? (Encode.cases mnemonic key index (cs.map (caseOperand labels)))
      (caseBytes cs) := by
  induction cs generalizing index with
  | nil => exact ⟨[], rfl, fun p hp => absurd hp List.not_mem_nil, rfl⟩
  | cons c cs ih =>
      rw [List.forall_mem_cons] at hbounds htargets
      obtain ⟨label, hlabel, haddress⟩ := htargets.1
      obtain ⟨more, hmore, hplaced, hfilled⟩ := ih hbounds.2 htargets.2 (index + 1)
      have hnat : (UInt32.ofNat c.1).toNat = c.1 := UInt32.toNat_ofNat_of_lt' hbounds.1.1
      have hvalue := Encode.wordOf_toSigned (UInt32.ofNat c.1) mnemonic
      rw [Word.toBytes, hnat] at hvalue
      refine ⟨.bytes (leBytes 4 c.1) :: .address (key label) label :: more, ?_, ?_, ?_⟩
      · rw [List.map_cons, caseOperand, hlabel]
        exact bind_eq_ok.mpr ⟨_, hvalue, bind_eq_ok.mpr ⟨more, hmore, rfl⟩⟩
      · rw [List.forall_mem_cons, List.forall_mem_cons]
        exact ⟨trivial, ⟨c.2, haddress, hbounds.1.2⟩, hplaced⟩
      · simp only [filledAll_cons, Piece.filled, haddress, Option.getD_some, hfilled, caseBytes,
          List.flatMap_cons, List.append_assoc]

theorem encodesAs_of_decode_switch (hl : o.layout = .switch)
    (h : decodeOperands? labels natives o code tail = some (operands, tail.length))
    (htargets : ∀ i < (tail.headD 0).toNat,
      labels.LeadsTo address? key (addressAt (o.toByte :: tail) (2 + 8 * i + 4))) :
    EncodesAs address? (Encode.named key mnemonic o operands) (o.toByte :: tail) := by
  rw [decodeOperands?, hl] at h
  obtain ⟨⟨count, bs⟩, hcount, h⟩ := Option.bind_eq_some_iff.mp h
  obtain ⟨⟨cases, used⟩, hcases, heq⟩ := Option.bind_eq_some_iff.mp h
  obtain ⟨rfl, hlength⟩ := Prod.mk.inj (Option.some.inj heq)
  obtain ⟨rfl, hbyte⟩ := Bytes.eq_of_read? hcount
  obtain ⟨cs, rest, rfl, rfl, rfl, hbounds, rfl⟩ := caseBytes_of_decode hcases
  simp only [List.length_append, length_leBytes, length_caseBytes] at hlength
  obtain rfl : rest = [] := List.eq_nil_of_length_eq_zero (by omega)
  rw [List.append_nil] at htargets ⊢
  have hleads : ∀ c ∈ cs, labels.LeadsTo address? key c.2 := by
    intro c hc
    obtain ⟨i, hi⟩ := List.mem_iff_getElem?.mp hc
    have hhead : ((leBytes 1 cs.length ++ caseBytes cs).headD 0).toNat = cs.length :=
      UInt8.toNat_ofNat_of_lt' hbyte
    have hread :
        addressAt (o.toByte :: (leBytes 1 cs.length ++ caseBytes cs)) (2 + 8 * i + 4) = c.2 :=
      addressAt_caseBytes hbounds hi (o.toByte :: leBytes 1 cs.length)
    rw [hhead] at htargets
    have htarget := htargets i (List.getElem?_eq_some_iff.mp hi).1
    rwa [hread] at htarget
  obtain ⟨more, hmore, hplaced, hfilled⟩ := encodesAs_cases mnemonic hbounds hleads 0
  refine ⟨.bytes (o.toByte :: leBytes 1 cs.length) :: more, ?_, ?_, ?_⟩
  · have hcount := Encode.byteOf_natCast hbyte mnemonic
    simp only [Encode.named, hl, List.length_map]
    exact bind_eq_ok.mpr ⟨_, hcount, bind_eq_ok.mpr ⟨more, hmore, rfl⟩⟩
  · rw [List.forall_mem_cons]
    exact ⟨trivial, hplaced⟩
  · rw [filledAll_cons, hfilled]
    rfl

end

/-! ## Instructions -/

/-- What the bytes of an instruction do not say by themselves: its opcode has a meaning, a text has
its shortest form, and a frame opening has no name. -/
structure Instruction.Canonical (i : Instruction) : Prop where
  assigned : ∀ n, i.op ≠ .unassigned n
  string : i.op = .named .string → ∃ s, i.operands = [.text s] ∧
    ∀ mnemonic, Encode.string mnemonic s = .ok i.bytes
  enter : i.op = .named .enter → ∃ params frame : Nat, params < 0x100 ∧ frame < 0x10000 ∧
    i.operands = [.int params, .int frame] ∧
      i.bytes = Encode.enter (leBytes 1 params) (leBytes 2 frame) none

namespace Op

/-- What stands after the stem in the folded name of a small push. -/
def pushSuffix (n : Fin 176) : List Char :=
  if n.val < 16 then 'm' :: Nat.toDigits 10 (16 - n.val) else Nat.toDigits 10 (n.val - 16)

theorem toList_foldName_push (n : Fin 176) :
    (foldName (push n).mnemonic).toList = (foldName pushStem).toList ++ pushSuffix n := by
  simp only [mnemonic, pushSuffix]
  split
  · have hstem : (foldName (pushStem ++ "M")).toList = (foldName pushStem).toList ++ ['m'] := by
      decide +kernel
    rw [toList_foldName_numbered, hstem, List.append_assoc, List.singleton_append]
  · exact toList_foldName_numbered pushStem _

/-- Whether a text begins with a number, with the letter that negates it or without. -/
def beginsNumber (text : List Char) : Bool := text.head?.any fun c => c == 'm' || c.isDigit

/-- No opcode's name goes on after the stem as that of a small push does. -/
theorem foldName_push_ne (n : Fin 176) (o : Opcode) :
    foldName o.mnemonic ≠ foldName (push n).mnemonic := by
  intro h
  have hlist := congrArg String.toList h
  rw [toList_foldName_push, toList_foldName] at hlist
  have hnumber : ∀ n : Fin 176, beginsNumber (pushSuffix n) = true := by decide +kernel
  have hother : ∀ o ∈ Opcode.all,
      (foldName pushStem).toList <+: o.mnemonic.toList.map Char.toLower →
      beginsNumber
        ((o.mnemonic.toList.map Char.toLower).drop (foldName pushStem).toList.length) = false := by
    decide +kernel
  have hfalse := hother o (Opcode.mem_all o) ⟨_, hlist.symm⟩
  rw [hlist, List.drop_left, hnumber n] at hfalse
  cases hfalse

/-- The name of a small push is its own, and its constant can be read off it. -/
theorem mnemonic_push (n : Fin 176) : ofMnemonic? (push n).mnemonic = some (push n) ∧
    sameName (push n).mnemonic Statement.pushMnemonic = false := by
  constructor
  · have hnone : Opcode.ofMnemonic? (push n).mnemonic = none := by
      exact List.find?_eq_none.mpr fun o _ hsame => foldName_push_ne n o (eq_of_beq hsame)
    have hstem : (foldName pushStem).toList.isPrefixOf
        ((foldName pushStem).toList ++ pushSuffix n) = true :=
      List.isPrefixOf_iff_prefix.mpr (List.prefix_append _ _)
    simp only [ofMnemonic?, hnone, toList_foldName_push, hstem, if_true, List.drop_left]
    clear hnone hstem
    revert n
    decide +kernel
  · refine beq_eq_false_iff_ne.mpr fun h => ?_
    have hlist := congrArg (List.length ∘ String.toList) h
    have hshort : (foldName Statement.pushMnemonic).toList.length <
        (foldName pushStem).toList.length := by
      decide +kernel
    simp only [Function.comp_apply, toList_foldName_push, List.length_append] at hlist
    omega

end Op

theorem eq_of_layout_function {o : Opcode} (h : o.layout = .function) : o = .call := by
  cases o <;> first | rfl | cases h

theorem eq_of_layout_switch {o : Opcode} (h : o.layout = .switch) : o = .switch := by
  cases o <;> first | rfl | cases h

section
variable {labels : AddressLabels} {natives : NativeNames} {address? : String → Option Nat}
  {key : String → String} {i : Instruction}

/-- The address behind the opcode of a jump is its target. -/
theorem Instruction.mem_targets_of_label {o : Opcode} (hop : i.op = .named o)
    (hl : o.layout = .label) :
    addressAt i.bytes 1 ∈ i.targets := by
  unfold targets
  rw [hop]
  cases o <;> first | exact List.mem_cons_self | cases hl

theorem encodesAs_named (hcanonical : i.Canonical)
    (hnatives : natives.Consistent)
    (htargets : ∀ ip ∈ i.targets, labels.LeadsTo address? key ip)
    (hcall : i.op = .named .call → labels.LeadsTo address? functionKey (addressAt i.bytes 1))
    {o : Opcode} {code tail : Bytes} (hop : i.op = .named o) (hbytes : i.bytes = o.toByte :: tail)
    (h : decodeOperands? labels natives o code tail = some (i.operands, tail.length)) :
    EncodesAs address? (Encode.named key o.mnemonic o i.operands) i.bytes := by
  rw [hbytes]
  cases hl : o.layout with
  | none => exact encodesAs_bytes (named_of_decode_none hl h)
  | u8 => exact encodesAs_bytes (named_of_decode_u8 hl h)
  | u16 => exact encodesAs_bytes (named_of_decode_u16 hl h)
  | u32 => exact encodesAs_bytes (named_of_decode_u32 hl h)
  | f32 => exact encodesAs_bytes (named_of_decode_f32 hl h)
  | leave => exact encodesAs_bytes (named_of_decode_leave hl h)
  | native => exact encodesAs_bytes (named_of_decode_native hnatives hl h)
  | label =>
      have htarget := htargets _ (Instruction.mem_targets_of_label hop hl)
      exact encodesAs_of_decode_label hl h (hbytes ▸ htarget)
  | function =>
      obtain rfl := eq_of_layout_function hl
      exact encodesAs_of_decode_function hl h (hbytes ▸ hcall hop)
  | switch =>
      obtain rfl := eq_of_layout_switch hl
      refine encodesAs_of_decode_switch hl h fun n hn => htargets _ ?_
      unfold Instruction.targets
      rw [hop, hbytes]
      exact List.mem_map_of_mem (List.mem_range.mpr hn)
  | string =>
      obtain rfl := eq_string_of_layout hl
      obtain ⟨s, hoperands, hstring⟩ := hcanonical.string hop
      rw [hoperands, ← hbytes]
      apply encodesAs_bytes
      exact bind_eq_ok.mpr ⟨(), rfl, bind_eq_ok.mpr ⟨_, hstring _, rfl⟩⟩
  | enter =>
      obtain rfl := eq_enter_of_layout hl
      obtain ⟨params, frame, hp, hf, hoperands, henter⟩ := hcanonical.enter hop
      rw [hoperands, ← hbytes, henter]
      apply encodesAs_bytes
      have hparams := Encode.byteOf_natCast hp Opcode.enter.mnemonic
      have hframe := Encode.halfOf_natCast hf Opcode.enter.mnemonic
      unfold Encode.named
      rw [if_neg (by simp)]
      exact bind_eq_ok.mpr ⟨params, rfl, bind_eq_ok.mpr ⟨_, hparams,
        bind_eq_ok.mpr ⟨frame, rfl, bind_eq_ok.mpr ⟨_, hframe, bind_eq_ok.mpr ⟨none, rfl, rfl⟩⟩⟩⟩⟩

/-- An instruction is encoded again as the bytes it was decoded from, if the names of its targets
lead to them. -/
theorem encodesAs_of_isInstruction (h : IsInstruction labels natives i.op i.operands i.bytes)
    (hcanonical : i.Canonical)
    (hnatives : natives.Consistent)
    (htargets : ∀ ip ∈ i.targets, labels.LeadsTo address? key ip)
    (hcall : i.op = .named .call → labels.LeadsTo address? functionKey (addressAt i.bytes 1)) :
    EncodesAs address? (Encode.instruction key i.op.mnemonic i.operands) i.bytes := by
  obtain ⟨tail, hbytes⟩ : ∃ tail, i.bytes = i.op.toByte :: tail := by
    cases hbs : i.bytes with
    | nil =>
        have hfirst := h.first
        rw [hbs] at hfirst
        cases hfirst
    | cons b tail =>
        have hfirst := h.first
        rw [hbs] at hfirst
        exact ⟨tail, congrArg (· :: tail) (Option.some.inj hfirst)⟩
  have hdecode := h.decode []
  rw [List.append_nil] at hdecode
  cases hop : i.op with
  | named o =>
      rw [hop] at hbytes hdecode
      rw [hbytes] at hdecode
      have hnamed := encodesAs_named hcanonical hnatives htargets hcall hop hbytes hdecode
      rw [Op.mnemonic, Encode.instruction_op]
      exact hnamed
  | push n =>
      rw [hop] at hbytes hdecode
      obtain ⟨hoperands, hlength⟩ := Prod.mk.inj (Option.some.inj hdecode)
      rw [hbytes, List.length_cons, Nat.add_sub_cancel] at hlength
      obtain rfl := List.eq_nil_of_length_eq_zero hlength.symm
      rw [hbytes, ← hoperands]
      apply encodesAs_bytes
      unfold Encode.instruction
      rw [(Op.mnemonic_push n).1, (Op.mnemonic_push n).2]
      rfl
  | unassigned n => exact absurd hop (hcanonical.assigned n)

end

/-! ## Instructions of assembled code -/

/-- An operand that a listing shows in full: a text does not end early, and a label is not that of
another function. -/
def Operand.Listable : Operand → Prop
  | .text s => '\x00' ∉ s.toList
  | .ident name | .case _ name => '.' ∉ name.toList
  | _ => True

/-- Frames are opened by functions only. -/
def Statement.Listable (s : Statement) : Prop :=
  (∀ mnemonic ∈ s.mnemonic, sameName mnemonic Opcode.enter.mnemonic = false) ∧
    ∀ x ∈ s.operands, x.Listable

instance : DecidablePred Operand.Listable
  | .int _ | .float _ => inferInstanceAs (Decidable True)
  | .text s => inferInstanceAs (Decidable ('\x00' ∉ s.toList))
  | .ident name | .case _ name => inferInstanceAs (Decidable ('.' ∉ name.toList))

instance : DecidablePred Statement.Listable := fun _ => inferInstanceAs (Decidable (_ ∧ _))

theorem Op.ofMnemonic?_ne_unassigned (mnemonic : String) (n : Fin 3) :
    Op.ofMnemonic? mnemonic ≠ some (.unassigned n) := by
  have hpush (v : Int) : Op.push? v ≠ some (.unassigned n) := by
    unfold Op.push?
    split
    · exact fun h => nomatch Option.some.inj h
    · exact fun h => nomatch h
  intro h
  unfold Op.ofMnemonic? at h
  split at h
  · cases h
  · dsimp only at h
    split at h
    · split at h
      · obtain ⟨v, _, hv⟩ := Option.bind_eq_some_iff.mp h
        exact hpush _ hv
      · obtain ⟨v, _, hv⟩ := Option.bind_eq_some_iff.mp h
        exact hpush _ hv
    · cases h

theorem beforeNulChar_eq_self {s : String} (h : '\x00' ∉ s.toList) : beforeNulChar s = s := by
  have hall : ∀ c ∈ s.toList, (c != '\x00') = true := by
    intro c hc
    rw [bne_iff_ne]
    rintro rfl
    exact h hc
  rw [beforeNulChar, List.takeWhile_eq_self_iff.mpr hall, String.ofList_toList]

/-- The mnemonic is only named in errors. -/
theorem Encode.string_mnemonic {mnemonic s : String} {bs : Bytes}
    (h : Encode.string mnemonic s = .ok bs) (mnemonic' : String) :
    Encode.string mnemonic' s = .ok bs := by
  unfold Encode.string Encode.halfOf at h ⊢
  dsimp only at h ⊢
  split at h
  · next hshort =>
      rw [if_pos hshort]
      exact h
  · next hlong =>
      rw [if_neg hlong]
      split at h
      · next hfits =>
          rw [if_pos hfits]
          exact h
      · cases h

section
variable {r : Reading} {f : FunctionDef} {mnemonic : String} {operands : List Operand}
  {i : Instruction}

theorem Line.Decoded.canonical_opening (h : (Line.opening f).Decoded false r i) : i.Canonical := by
  obtain ⟨hop, hoperands⟩ := h.readsBack
  obtain ⟨pieces, ⟨bytes, hnaked, hopening, rfl⟩, -, hbytes⟩ := h.encodes
  simp only [Assemble.prologue, hnaked, Bool.false_eq_true, if_false, bind_eq_ok] at hopening
  obtain ⟨params, hparams, frame, hframe, hopening⟩ := hopening
  obtain rfl := Except.ok.inj hopening
  obtain ⟨n, hn, hargs, rfl⟩ := Encode.byteOf_ok hparams
  obtain ⟨m, hm, hsize, rfl⟩ := Encode.halfOf_ok hframe
  rw [filledAll_cons, filledAll_nil, List.append_nil] at hbytes
  rw [hargs, hsize] at hoperands
  constructor
  case assigned => simp [hop]
  case string => simp [hop]
  case enter => exact fun _ => ⟨n, m, hn, hm, hoperands, hbytes⟩

/-- A push is no text and opens no frame. -/
theorem PushReadsBack.canonical (h : PushReadsBack operands i.op i.operands) : i.Canonical := by
  have hne {op : Op} {read : List Operand} (h : PushReadsBack operands op read) :
      (∀ n, op ≠ .unassigned n) ∧ op ≠ .named .string ∧ op ≠ .named .enter := by
    cases h <;> simp
  obtain ⟨hassigned, hstring, henter⟩ := hne h
  exact ⟨hassigned, fun hop => absurd hop hstring, fun hop => absurd hop henter⟩

/-- Only the mnemonic of a frame opening is read back as one. -/
theorem Line.Decoded.op_ne_enter {withNames : Bool}
    (h : (Line.instruction f mnemonic operands).Decoded withNames r i)
    (henter : sameName mnemonic Opcode.enter.mnemonic = false) : i.op ≠ .named .enter := by
  intro hop
  have hread : r.Instruction (referenceKey f.name (ownLabels f.body)) mnemonic operands i.op
      i.operands :=
    h.readsBack
  rw [hop] at hread
  unfold Reading.Instruction at hread
  split at hread
  · cases hread
  · have hfound := List.find?_some (Opcode.ofMnemonic?_of_named hread.1)
    have hsame : foldName Opcode.enter.mnemonic = foldName mnemonic := beq_iff_eq.mp hfound
    rw [sameName, hsame, beq_self_eq_true] at henter
    cases henter

theorem Line.Decoded.canonical_instruction
    (h : (Line.instruction f mnemonic operands).Decoded false r i)
    (henter : sameName mnemonic Opcode.enter.mnemonic = false)
    (hoperands : ∀ x ∈ operands, x.Listable) :
    i.Canonical := by
  have hread : r.Instruction (referenceKey f.name (ownLabels f.body)) mnemonic operands i.op
      i.operands :=
    h.readsBack
  unfold Reading.Instruction at hread
  split at hread
  · exact hread.canonical
  · obtain ⟨hmnemonic, hread⟩ := hread
    constructor
    case assigned =>
      intro n hop
      exact Op.ofMnemonic?_ne_unassigned mnemonic n (hop ▸ hmnemonic)
    case string =>
      intro hop
      rw [hop] at hmnemonic hread
      obtain ⟨s, rfl, hlisted⟩ := hread
      have hs : beforeNulChar s = s := beforeNulChar_eq_self (hoperands _ List.mem_cons_self)
      rw [hs] at hlisted
      refine ⟨s, hlisted, ?_⟩
      obtain ⟨pieces, hencodes, -, hbytes⟩ := h.encodes
      rw [Line.Encodes, Encode.instruction_of_named hmnemonic] at hencodes
      obtain ⟨_, _, hencodes⟩ := bind_eq_ok.mp hencodes
      obtain ⟨bs, hstring, hpieces⟩ := bind_eq_ok.mp hencodes
      obtain rfl := Except.ok.inj hpieces
      rw [filledAll_cons, filledAll_nil, List.append_nil] at hbytes
      rw [hbytes]
      exact Encode.string_mnemonic hstring
    case enter => exact fun hop => absurd hop (h.op_ne_enter henter)

end
end GameScript
