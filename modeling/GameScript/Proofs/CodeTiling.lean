import GameScript.Proofs.AddressNames

/-!
# Instructions tile the code

The length of an instruction is described twice: by the size rule, which looks at a few of its
bytes, and by the decoder, which reads its operands one after the other. The two agree on every byte
string that is long enough for the size rule, whatever it contains. Disassembly therefore succeeds
exactly on code that the size rule cuts into whole instructions, and otherwise names the first place
where it cannot.
-/
namespace GameScript

/-! ## Reading from long enough strings -/

namespace Bytes

theorem split?_of_le {n : Nat} {bs : Bytes} (h : n ≤ bs.length) :
    split? n bs = some (bs.take n, bs.drop n) := by
  have hsplit := split?_append (List.length_take_of_le h) (bs.drop n)
  rwa [List.take_append_drop] at hsplit

theorem read?_of_le {k : Nat} {bs : Bytes} (h : k ≤ bs.length) :
    read? k bs = some (leValue (bs.take k), bs.drop k) := by
  rw [read?, split?_of_le h]

theorem readWord?_of_le {bs : Bytes} (h : 4 ≤ bs.length) :
    readWord? bs = some (UInt32.ofNat (leValue (bs.take 4)), bs.drop 4) := by
  rw [readWord?, read?_of_le h]

/-- A byte is read as the number that it is. -/
theorem read?_one_drop {k : Nat} {bs : Bytes} {b : UInt8} (h : bs[k]? = some b) :
    read? 1 (bs.drop k) = some (b.toNat, bs.drop (k + 1)) := by
  obtain ⟨hk, hb⟩ := List.getElem?_eq_some_iff.mp h
  rw [List.drop_eq_getElem_cons hk, hb]
  rfl

end Bytes

/-! ## Two descriptions of one length -/

section
variable {labels : AddressLabels} {natives : NativeNames} {o : Opcode} {code operands : Bytes}
  {size : Nat}

/-- The decoder takes from the operands exactly what the size rule leaves for them. -/
def TakesDeclared (labels : AddressLabels) (natives : NativeNames) (o : Opcode)
    (code operands : Bytes) (size : Nat) : Prop :=
  (decodeOperands? labels natives o code operands).map Prod.snd = some (size - 1)

theorem takes_of_constantSize (h : o.layout.constantSize? = some size)
    (hle : size ≤ operands.length + 1) :
    TakesDeclared labels natives o code operands size := by
  unfold TakesDeclared decodeOperands?
  cases hl : o.layout <;> rw [hl] at h <;> cases h <;> dsimp only
  case none => rfl
  case u8 => rw [Bytes.read?_of_le (by omega)]; rfl
  case u16 => rw [Bytes.read?_of_le (by omega)]; rfl
  case u32 => rw [Bytes.read?_of_le (by omega)]; rfl
  case f32 => rw [Bytes.readWord?_of_le (by omega)]; rfl
  case label => rw [Bytes.read?_of_le (by omega)]; rfl
  case function => rw [Bytes.read?_of_le (by omega)]; rfl
  case leave =>
      have hresults : 1 ≤ (operands.drop 1).length := by rw [List.length_drop]; omega
      rw [Bytes.read?_of_le (k := 1) (by omega), Option.bind_eq_bind, Option.bind_some,
        Bytes.read?_of_le hresults]
      rfl
  case native =>
      have hresults : 1 ≤ (operands.drop 1).length := by rw [List.length_drop]; omega
      have hhash : 4 ≤ ((operands.drop 1).drop 1).length := by
        rw [List.length_drop, List.length_drop]; omega
      rw [Bytes.read?_of_le (k := 1) (by omega), Option.bind_eq_bind, Option.bind_some,
        Bytes.read?_of_le hresults, Option.bind_eq_bind, Option.bind_some, Bytes.readWord?_of_le
          hhash]
      rfl

/-- The name stands behind its length, which is the fourth byte of the operands. -/
theorem takes_enter (hl : o.layout = .enter) {n : UInt8} (hn : operands[3]? = some n)
    (hle : 4 + n.toNat ≤ operands.length) :
    TakesDeclared labels natives o code operands (5 + n.toNat) := by
  have hframe : 2 ≤ (operands.drop 1).length := by rw [List.length_drop]; omega
  have hname : n.toNat ≤ (operands.drop (3 + 1)).length := by rw [List.length_drop]; omega
  rw [TakesDeclared, decodeOperands?, hl]
  dsimp only
  rw [Bytes.read?_of_le (k := 1) (by omega), Option.bind_eq_bind, Option.bind_some,
    Bytes.read?_of_le hframe,
    Option.bind_eq_bind, Option.bind_some, List.drop_drop, Bytes.read?_one_drop hn,
      Option.bind_some]
  dsimp only
  rw [Bytes.split?_of_le hname, show 5 + n.toNat - 1 = 4 + n.toNat by omega]
  rfl

theorem decodeCases_of_le (labels : AddressLabels) {n : Nat} {bs : Bytes} (h : 8 * n ≤ bs.length) :
    ∃ decoded, decodeCases labels n bs = some (decoded, 8 * n) := by
  induction n generalizing bs with
  | zero => exact ⟨[], rfl⟩
  | succ n ih =>
      have htarget : 4 ≤ (bs.drop 4).length := by rw [List.length_drop]; omega
      have hmore : 8 * n ≤ ((bs.drop 4).drop 4).length := by
        rw [List.length_drop, List.length_drop]; omega
      obtain ⟨more, hmore⟩ := ih hmore
      exact ⟨_, Option.bind_eq_some_iff.mpr ⟨_, Bytes.readWord?_of_le (by omega),
        Option.bind_eq_some_iff.mpr ⟨_, Bytes.readWord?_of_le htarget,
          Option.bind_eq_some_iff.mpr ⟨_, hmore, rfl⟩⟩⟩⟩

theorem takes_switch (hl : o.layout = .switch) {n : UInt8} (hn : operands[0]? = some n)
    (hle : 1 + 8 * n.toNat ≤ operands.length) :
    TakesDeclared labels natives o code operands (2 + 8 * n.toNat) := by
  have hcases : 8 * n.toNat ≤ (operands.drop 1).length := by rw [List.length_drop]; omega
  obtain ⟨decoded, hdecoded⟩ := decodeCases_of_le labels hcases
  have hcount : Bytes.read? 1 operands = some (n.toNat, operands.drop 1) :=
    Bytes.read?_one_drop (k := 0) hn
  rw [TakesDeclared, decodeOperands?, hl]
  dsimp only
  rw [hcount, Option.bind_eq_bind, Option.bind_some, hdecoded, show 2 + 8 * n.toNat - 1 = 1 +
    8 * n.toNat by omega]
  rfl

theorem takes_shortString (hl : o.layout = .string) {n : UInt8} {text : Bytes} (hn : n ≠ 0)
    (hle : n.toNat ≤ text.length) :
    TakesDeclared labels natives o code (n :: text) (2 + n.toNat) := by
  have hnat : n.toNat ≠ 0 := fun h => hn (UInt8.toNat_inj.mp h)
  have hlength : Bytes.read? 1 (n :: text) = some (n.toNat, text) := rfl
  rw [TakesDeclared, decodeOperands?, hl]
  dsimp only
  rw [hlength, Option.bind_eq_bind, Option.bind_some]
  dsimp only
  rw [if_neg hnat, Option.bind_eq_bind, Option.bind_some, Bytes.split?_of_le hle,
    show 2 + n.toNat - 1 = 1 + n.toNat by omega]
  rfl

theorem takes_longString (hl : o.layout = .string) {lo hi : UInt8} {text : Bytes}
    (hle : leValue [lo, hi] ≤ text.length) :
    TakesDeclared labels natives o code (0 :: lo :: hi :: text) (4 + leValue [lo, hi]) := by
  have hshort : Bytes.read? 1 (0 :: lo :: hi :: text) = some (0, lo :: hi :: text) := rfl
  have hlong : Bytes.read? 2 (lo :: hi :: text) = some (leValue [lo, hi], text) := rfl
  rw [TakesDeclared, decodeOperands?, hl]
  dsimp only
  rw [hshort, Option.bind_eq_bind, Option.bind_some]
  dsimp only
  rw [if_pos rfl, hlong, Option.map_some, Option.bind_eq_bind, Option.bind_some,
    Bytes.split?_of_le hle, show 4 + leValue [lo, hi] - 1 = 3 + leValue [lo, hi] by omega]
  rfl

end

/-- Wherever the size rule finds a whole instruction, the decoder reads one of the same length. -/
theorem decodeFront_of_instructionSize? (labels : AddressLabels) (natives : NativeNames)
    {code : Bytes} {size : Nat} (hsize : Op.instructionSize? code = some size)
    (hle : size ≤ code.length) :
    ∃ decoded, decodeFront labels natives (Op.ofByte (code.headD 0)) code =
      some (decoded, size - 1) := by
  cases code with
  | nil => cases hsize
  | cons first rest =>
      rw [List.length_cons] at hle
      unfold Op.instructionSize? at hsize
      show ∃ decoded, decodeFront labels natives (Op.ofByte first) (first :: rest) =
        some (decoded, size - 1)
      cases hop : Op.ofByte first with
      | push n =>
          simp only [hop, Option.some.injEq] at hsize
          exact ⟨[], by rw [← hsize]; rfl⟩
      | unassigned n =>
          simp only [hop, Option.some.injEq] at hsize
          exact ⟨[], by rw [← hsize]; rfl⟩
      | named o =>
          simp only [hop] at hsize
          suffices htakes : TakesDeclared labels natives o (first :: rest) rest size by
            obtain ⟨⟨decoded, used⟩, hdecoded, rfl⟩ := Option.map_eq_some_iff.mp htakes
            exact ⟨decoded, hdecoded⟩
          split at hsize
          · next hl =>
              obtain ⟨n, hn, rfl⟩ := Option.map_eq_some_iff.mp hsize
              exact takes_enter hl hn (by omega)
          · next hl =>
              obtain ⟨n, hn, rfl⟩ := Option.map_eq_some_iff.mp hsize
              exact takes_switch hl hn (by omega)
          · next hl =>
              split at hsize
              · cases hsize
              · next n text =>
                  rw [List.length_cons] at hle
                  split at hsize
                  · next hzero =>
                      obtain rfl := eq_of_beq hzero
                      split at hsize
                      · obtain rfl := Option.some.inj hsize
                        simp only [List.length_cons] at hle
                        exact takes_longString hl (by omega)
                      · cases hsize
                  · next hne =>
                      obtain rfl := Option.some.inj hsize
                      exact takes_shortString hl (fun h => hne (beq_iff_eq.mpr h)) (by omega)
          · exact takes_of_constantSize hsize hle

/-! ## Stepping through code -/

/-- Stepping from the start of the code by the size rule, over whole instructions only, passes the
addresses `ips` and comes to `ip`. -/
inductive Steps (code : Bytes) : List Nat → Nat → Prop where
  | start : Steps code [] 0
  | step {ips : List Nat} {ip size : Nat} : Steps code ips ip →
      Op.instructionSize? (code.drop ip) = some size →
      ip + size ≤ code.length → Steps code (ips ++ [ip]) (ip + size)

/-- No whole instruction begins at `ip`, although the code goes on there. -/
def CutShort (code : Bytes) (ip : Nat) : Prop :=
  ip < code.length ∧ ∀ size, Op.instructionSize? (code.drop ip) = some size →
    code.length < ip + size

structure Cut.Within (code : Bytes) (c : Cut) : Prop where
  rest : c.rest = code.drop c.ip
  size : Op.instructionSize? c.rest = some c.size
  le : c.size ≤ c.rest.length

section
variable {code : Bytes} {ips : List Nat} {ip : Nat}

theorem Steps.le (h : Steps code ips ip) : ip ≤ code.length := by
  cases h with
  | start => exact Nat.zero_le _
  | step _ _ hle => exact hle

/-- Addresses grow, because no instruction is empty. -/
theorem Steps.sorted (h : Steps code ips ip) : ips.Pairwise (· < ·) ∧ ∀ x ∈ ips, x < ip := by
  induction h with
  | start => exact ⟨.nil, fun x hx => absurd hx List.not_mem_nil⟩
  | @step ips ip size _ hsize _ ih =>
      have hpos := Op.instructionSize?_pos hsize
      constructor
      · rw [List.pairwise_append]
        exact ⟨ih.1, List.pairwise_singleton _ _,
          fun x hx y hy => List.mem_singleton.mp hy ▸ ih.2 x hx⟩
      · rw [List.forall_mem_append, List.forall_mem_singleton]
        exact ⟨fun x hx => Nat.lt_of_lt_of_le (ih.2 x hx) (Nat.le_add_right ip size), by omega⟩

theorem cutFrom_whole {rest : Bytes} {size : Nat} (hsize : Op.instructionSize? rest = some size)
    (hle : size ≤ rest.length) (ip : Nat) :
    cutFrom ip rest = (cutFrom (ip + size) (rest.drop size)).map (⟨ip, size, rest⟩ :: ·) := by
  have hsplit := Bytes.split?_of_le hle
  rw [cutFrom]
  split
  · next hempty =>
      rw [List.isEmpty_iff.mp hempty] at hsize
      cases hsize
  · split
    · next hnone => cases hnone.symm.trans hsize
    · next size' hsome =>
        obtain rfl := Option.some.inj (hsome.symm.trans hsize)
        split
        · next hnone => cases hnone.symm.trans hsplit
        · next front more hsome =>
            obtain ⟨-, rfl⟩ := Prod.mk.inj (Option.some.inj (hsome.symm.trans hsplit))
            cases cutFrom (ip + size') (rest.drop size') <;> rfl

/-- Cutting follows the steps: the cuts made so far are those at the addresses passed. -/
theorem Steps.cutFrom_eq (h : Steps code ips ip) :
    ∃ front : List Cut, front.map Cut.ip = ips ∧
      cutFrom 0 code = (cutFrom ip (code.drop ip)).map (front ++ ·) := by
  induction h with
  | start =>
      refine ⟨[], rfl, ?_⟩
      rw [List.drop_zero]
      cases cutFrom 0 code <;> rfl
  | @step ips ip size _ hsize hle ih =>
      obtain ⟨front, rfl, hfront⟩ := ih
      have hlength : size ≤ (code.drop ip).length := by rw [List.length_drop]; omega
      refine ⟨front ++ [⟨ip, size, code.drop ip⟩], List.map_append, ?_⟩
      rw [hfront, cutFrom_whole hsize hlength, List.drop_drop]
      cases cutFrom (ip + size) (code.drop (ip + size)) with
      | error e => rfl
      | ok more => exact congrArg Except.ok (List.append_cons _ _ _)

/-- Cutting reaches the end over whole instructions or stops where there is none. -/
theorem cutFrom_of_steps {rest : Bytes} (h : Steps code ips ip) (hrest : rest = code.drop ip) :
    (∃ cuts, cutFrom ip rest = .ok cuts ∧ Steps code (ips ++ cuts.map Cut.ip) code.length ∧
        ∀ c ∈ cuts, c.Within code) ∨
      ∃ ips' ip', cutFrom ip rest = .error (.truncatedInstruction ip') ∧ Steps code ips' ip' ∧
        CutShort code ip' := by
  fun_induction cutFrom ip rest generalizing ips with
  | case1 ip rest hempty =>
      have hend : ip = code.length := by
        have hlength := congrArg List.length (hrest.symm.trans (List.isEmpty_iff.mp hempty))
        rw [List.length_drop, List.length_nil] at hlength
        have hle := h.le
        omega
      refine .inl ⟨[], rfl, ?_, fun c hc => absurd hc List.not_mem_nil⟩
      rw [List.map_nil, List.append_nil, ← hend]
      exact h
  | case2 ip rest hempty hnone =>
      refine .inr ⟨ips, ip, rfl, h, ?_, fun size hsize => ?_⟩
      · by_contra hge
        exact hempty (by rw [hrest, List.drop_eq_nil_of_le (by omega), List.isEmpty_nil])
      · rw [← hrest, hnone] at hsize
        cases hsize
  | case3 ip rest hempty size hsize hsplit =>
      have hlong : rest.length < size := by
        by_contra hge
        cases hsplit.symm.trans (Bytes.split?_of_le (by omega))
      have hlength : rest.length = code.length - ip := by rw [hrest, List.length_drop]
      refine .inr ⟨ips, ip, rfl, h, ?_, fun size' hsize' => ?_⟩
      · by_contra hge
        exact hempty (by rw [hrest, List.drop_eq_nil_of_le (by omega), List.isEmpty_nil])
      · rw [← hrest, hsize] at hsize'
        obtain rfl := Option.some.inj hsize'
        omega
  | case4 ip rest hempty size hsize front more hsplit ih =>
      have hlength := Bytes.length_of_split? hsplit
      have hle : ip + size ≤ code.length := by
        have hdrop : rest.length = code.length - ip := by rw [hrest, List.length_drop]
        have hip := h.le
        omega
      have hmore : more = code.drop (ip + size) := by
        obtain ⟨heq, rfl⟩ := Bytes.eq_of_split? hsplit
        rw [← List.drop_drop, ← hrest, heq, List.drop_left]
      have hcut : Cut.Within code ⟨ip, size, rest⟩ := ⟨hrest, hsize, by dsimp only; omega⟩
      rcases ih (h.step (hrest ▸ hsize) hle) hmore
        with ⟨cuts, hcuts, hsteps, hwithin⟩ | ⟨ips', ip', hcuts, hstop⟩
      · refine .inl
          ⟨⟨ip, size, rest⟩ :: cuts, by rw [hcuts]; rfl, ?_,
            List.forall_mem_cons.mpr ⟨hcut, hwithin⟩⟩
        rw [List.map_cons, List.append_cons]
        exact hsteps
      · exact .inr ⟨ips', ip', by rw [hcuts]; rfl, hstop⟩

/-- The length check of the decoder never fails on a cut. -/
theorem decodeCut_of_within {c : Cut} (h : c.Within code) (labels : AddressLabels)
    (natives : NativeNames) :
    ∃ i, decodeCut labels natives c = .ok i := by
  obtain ⟨decoded, hdecoded⟩ := decodeFront_of_instructionSize? labels natives h.size h.le
  have hsize : 1 + (c.size - 1) = c.size := by
    have hpos := Op.instructionSize?_pos h.size
    omega
  unfold decodeCut Cut.op
  cases hop : Op.ofByte (c.rest.headD 0) with
  | named o =>
      rw [hop, decodeFront] at hdecoded
      simp only [hdecoded, pure_bind, hsize, if_true]
      exact ⟨_, rfl⟩
  | push n =>
      rw [hop] at hdecoded
      have hused := (Prod.mk.inj (Option.some.inj hdecoded)).2
      rw [← hused] at hsize
      simp only [pure_bind, hsize, if_true]
      exact ⟨_, rfl⟩
  | unassigned n =>
      rw [hop] at hdecoded
      have hused := (Prod.mk.inj (Option.some.inj hdecoded)).2
      rw [← hused] at hsize
      simp only [pure_bind, hsize, if_true]
      exact ⟨_, rfl⟩

end

/-! ## Disassembly -/

/-- The instructions lie end to end in the code, each as long as the size rule says. -/
structure Disassembly.Tiles (code : Bytes) (ips : List Nat) (d : Disassembly) : Prop where
  addresses : d.instructions.map (·.ip) = ips
  sizes : ∀ i ∈ d.instructions, Op.instructionSize? (code.drop i.ip) = some i.bytes.length ∧
    i.bytes <+: code.drop i.ip
  bytes : (d.instructions.map (·.bytes)).flatten = code
  length : d.codeLength = code.length

theorem Cut.DecodesTo.size {code : Bytes} {labels : AddressLabels} {c : Cut} {i : Instruction}
    (h : c.DecodesTo labels i) (hc : c.Within code) :
    Op.instructionSize? (code.drop i.ip) = some i.bytes.length ∧ i.bytes <+: code.drop i.ip := by
  rw [h.ip, h.bytes, ← hc.rest, Cut.bytes, List.length_take_of_le hc.le]
  exact ⟨hc.size, List.take_prefix _ _⟩

/-- Code that is cut into whole instructions is decoded. -/
theorem disassemble_of_cuts {code : Bytes} {cuts : List Cut} (hcuts : cutFrom 0 code = .ok cuts)
    (hwithin : ∀ c ∈ cuts, c.Within code) (natives : NativeNames) :
    ∃ d, disassemble code natives = .ok d ∧ d.Tiles code (cuts.map Cut.ip) := by
  obtain ⟨instructions, hdecode⟩ := exists_mapM_ok fun c hc =>
    decodeCut_of_within (hwithin c hc) (collectLabels cuts) natives
  have hd : disassemble code natives = .ok ⟨instructions, collectLabels cuts, code.length⟩ :=
    bind_eq_ok.mpr ⟨cuts, hcuts, bind_eq_ok.mpr ⟨instructions, hdecode, rfl⟩⟩
  have hfields := (forall₂_of_mapM hdecode).imp fun c i hci => Cut.decodesTo hci
  refine ⟨_, hd, ?_, fun i hi => ?_, bytes_of_disassemble hd, rfl⟩
  · have hips : List.Forall₂ (fun i c => i.ip = c.ip) instructions cuts :=
      (hfields.imp fun c i h => h.ip).flip
    rwa [← List.forall₂_eq_eq_eq, List.forall₂_map_left_iff, List.forall₂_map_right_iff]
  · obtain ⟨c, hc, hci⟩ := exists_of_mem_forall₂ hfields hi
    exact hci.size (hwithin c hc)

/-- Disassembly tiles the code if stepping by the size rule reaches its end, and otherwise reports
the first place where no whole instruction begins. The decoder always takes as many bytes as the
size rule declares, so no other error is possible. -/
theorem disassemble_tiles (code : Bytes) (natives : NativeNames) :
    (∀ ips, Steps code ips code.length → ∃ d, disassemble code natives = .ok d ∧ d.Tiles code ips) ∧
      ((∀ ips, ¬ Steps code ips code.length) → ∃ ips ip, Steps code ips ip ∧ CutShort code ip ∧
        disassemble code natives = .error (.truncatedInstruction ip)) ∧
      (∀ ip mnemonic declared consumed,
        disassemble code natives ≠ .error (.lengthMismatch ip mnemonic declared consumed)) ∧
      ∀ labels ip size, Op.instructionSize? (code.drop ip) = some size → ip + size ≤ code.length →
        ∃ decoded used, decodeFront labels natives (Op.ofByte ((code.drop ip).headD 0))
          (code.drop ip) = some (decoded, used) ∧ 1 + used = size := by
  have hends := cutFrom_of_steps (.start : Steps code [] 0) (List.drop_zero (l := code)).symm
  refine ⟨fun ips hsteps => ?_, fun hnone => ?_, fun ip mnemonic declared consumed herror => ?_, ?_⟩
  · obtain ⟨front, rfl, hfront⟩ := hsteps.cutFrom_eq
    have hnil : cutFrom code.length [] = .ok [] := by rw [cutFrom]; rfl
    rw [List.drop_length, hnil] at hfront
    have hcuts : cutFrom 0 code = .ok front :=
      hfront.trans (congrArg Except.ok (List.append_nil front))
    rcases hends with ⟨cuts, hcuts', -, hwithin⟩ | ⟨ips', ip', herror, -⟩
    · obtain rfl := Except.ok.inj (hcuts.symm.trans hcuts')
      exact disassemble_of_cuts hcuts hwithin natives
    · cases hcuts.symm.trans herror
  · rcases hends with ⟨cuts, -, hsteps, -⟩ | ⟨ips, ip, herror, hsteps, hshort⟩
    · exact absurd hsteps (hnone _)
    · exact ⟨ips, ip, hsteps, hshort, by rw [disassemble, herror]; rfl⟩
  · rcases hends with ⟨cuts, hcuts, -, hwithin⟩ | ⟨ips, ip, hcuts, -⟩
    · obtain ⟨d, hd, -⟩ := disassemble_of_cuts hcuts hwithin natives
      cases hd.symm.trans herror
    · rw [disassemble, hcuts] at herror
      cases herror
  · intro labels ip size hsize hle
    have hlength : size ≤ (code.drop ip).length := by rw [List.length_drop]; omega
    obtain ⟨decoded, hdecoded⟩ := decodeFront_of_instructionSize? labels natives hsize hlength
    have hpos := Op.instructionSize?_pos hsize
    exact ⟨decoded, size - 1, hdecoded, by omega⟩

/-- A frame opening with padding for a name, a switch into the middle of it, a text with a long
length, an unassigned byte and the end of the frame. -/
def oddPieces : Bytes :=
  [0x2F, 0, 2, 0, 3, 0xFF, 0xFF, 0] ++ [0x42, 1, 7, 0, 0, 0, 5, 0, 0, 0] ++
    [0x43, 0, 2, 0, 0x41, 0] ++ [0x4E] ++ [0x30, 0, 0]

theorem disassemble_tiles_oddPieces :
    Steps oddPieces [0, 8, 18, 24, 25] 28 ∧ oddPieces.length = 28 ∧
      ∃ d, disassemble oddPieces (.ofNames []) = .ok d ∧ d.Tiles oddPieces [0, 8, 18, 24, 25] := by
  have hname : Steps oddPieces [0] 8 := @Steps.step _ _ _ 8 .start rfl (by decide)
  have hswitch : Steps oddPieces [0, 8] 18 := @Steps.step _ _ _ 10 hname rfl (by decide)
  have htext : Steps oddPieces [0, 8, 18] 24 := @Steps.step _ _ _ 6 hswitch rfl (by decide)
  have hbyte : Steps oddPieces [0, 8, 18, 24] 25 := @Steps.step _ _ _ 1 htext rfl (by decide)
  have hsteps : Steps oddPieces [0, 8, 18, 24, 25] oddPieces.length :=
    @Steps.step _ _ _ 3 hbyte rfl (by decide)
  exact ⟨hsteps, rfl, (disassemble_tiles oddPieces (.ofNames [])).1 _ hsteps⟩

end GameScript
