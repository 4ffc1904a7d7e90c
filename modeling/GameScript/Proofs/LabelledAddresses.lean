import GameScript.Proofs.CodeTiling

/-!
# Labelled addresses

Labels are collected from the bytes of the instructions before any operand is decoded, and the
operands are then decoded with them. Both passes read the same targets from an instruction, so that
no operand is left without a label: the labelled addresses are the frame openings and the targets,
whether or not an instruction begins at the target. Here a frame opening, a jump and a switch are
described by their bytes alone.
-/
namespace GameScript

/-! ## Instructions by their bytes -/

/-- What is shown of the bytes of a name: those behind the padding, up to the first zero byte. -/
def ShownOf (raw shown : Bytes) : Prop :=
  ∃ padding rest, raw = List.replicate padding 0xFF ++ (shown ++ rest) ∧ shown.head? ≠ some 0xFF ∧
    0 ∉ shown ∧ (rest = [] ∨ rest.head? = some 0)

/-- The name that a frame opening carries in its bytes `raw`, if it carries one. -/
def CarriesName (raw : Bytes) (name : Option String) : Prop :=
  ∃ shown, ShownOf raw shown ∧
    name =
      if 2 ≤ raw.length ∧ Utf8.decodeLossy shown ≠ "" then some (Utf8.decodeLossy shown) else none

namespace Instruction

/-- The instruction opens a frame and carries this name. Its operands show the name. -/
def Opens (i : Instruction) (name : Option String) : Prop :=
  ∃ params frame raw, params < 0x100 ∧ frame < 0x10000 ∧ raw.length < 0x100 ∧
    i.bytes = Opcode.enter.toByte ::
      (leBytes 1 params ++ (leBytes 2 frame ++ (leBytes 1 raw.length ++ raw))) ∧
    CarriesName raw name ∧ i.operands = [.int params, .int frame] ++ name.toList.map .text

def JumpsTo (i : Instruction) (target : Nat) : Prop :=
  target < 0x100000000 ∧ ∃ o, i.op = .named o ∧ o.isJump = true ∧
    i.bytes = o.toByte :: leBytes 4 target

def SwitchesTo (i : Instruction) (cs : List (Nat × Nat)) : Prop :=
  cs.length < 0x100 ∧ (∀ c ∈ cs, c.1 < 0x100000000 ∧ c.2 < 0x100000000) ∧ i.op = .named .switch ∧
    i.bytes = Opcode.switch.toByte :: (leBytes 1 cs.length ++ caseBytes cs)

/-- Running the instruction can lead to this address. -/
def RefersTo (i : Instruction) (ip : Nat) : Prop :=
  i.JumpsTo ip ∨ ∃ cs, i.SwitchesTo cs ∧ ip ∈ cs.map Prod.snd

theorem JumpsTo.targets {i : Instruction} {target : Nat} (h : i.JumpsTo target) :
    i.targets = [target] := by
  obtain ⟨htarget, o, hop, hjump, hbytes⟩ := h
  have hread : addressAt ([o.toByte] ++ (leBytes 4 target ++ [])) 1 = target :=
    addressAt_append rfl htarget []
  rw [List.append_nil, List.singleton_append, ← hbytes] at hread
  unfold Instruction.targets
  rw [hop]
  cases o <;> first | exact congrArg (fun ip => [ip]) hread | cases hjump

theorem SwitchesTo.targets {i : Instruction} {cs : List (Nat × Nat)} (h : i.SwitchesTo cs) :
    i.targets = cs.map Prod.snd := by
  obtain ⟨hcount, hbounds, hop, hbytes⟩ := h
  have hhead : ((i.bytes.drop 1).headD 0).toNat = cs.length := by
    rw [hbytes]
    exact UInt8.toNat_ofNat_of_lt' hcount
  unfold Instruction.targets
  rw [hop]
  dsimp only
  rw [hhead, hbytes]
  refine List.ext_getElem? fun n => ?_
  rw [List.getElem?_map, List.getElem?_map]
  by_cases hn : n < cs.length
  · have hread := addressAt_caseBytes hbounds (List.getElem?_eq_getElem hn)
      (Opcode.switch.toByte :: leBytes 1 cs.length)
    rw [List.getElem?_range hn, List.getElem?_eq_getElem hn]
    exact congrArg some hread
  · rw [List.getElem?_eq_none (by rw [List.length_range]; omega), List.getElem?_eq_none (by omega)]
    rfl

theorem isJump_of_mem_targets {i : Instruction} {ip : Nat} (h : ip ∈ i.targets)
    (hswitch : i.op ≠ .named .switch) :
    ∃ o, i.op = .named o ∧ o.isJump = true := by
  unfold Instruction.targets at h
  split at h
  · next hop => exact ⟨_, hop, rfl⟩
  · next hop => exact ⟨_, hop, rfl⟩
  · next hop => exact ⟨_, hop, rfl⟩
  · next hop => exact absurd hop hswitch
  · cases h

end Instruction

/-! ## Embedded names -/

theorem shownOf_beforeNul (raw : Bytes) :
    ShownOf raw (Bytes.beforeNul (raw.dropWhile (· == 0xFF))) := by
  refine ⟨(raw.takeWhile (· == 0xFF)).length, (raw.dropWhile (· == 0xFF)).dropWhile (· != 0), ?_,
    ?_, ?_, ?_⟩
  · have hpadding : raw.takeWhile (· == 0xFF) =
        List.replicate (raw.takeWhile (· == 0xFF)).length 0xFF :=
      List.eq_replicate_iff.mpr
        ⟨rfl, fun b hb => eq_of_beq (List.mem_takeWhile_imp (p := (· == 0xFF)) hb)⟩
    rw [← hpadding, Bytes.beforeNul, List.takeWhile_append_dropWhile,
      List.takeWhile_append_dropWhile]
  · intro hhead
    have hfront : (raw.dropWhile (· == 0xFF)).head? = some 0xFF := by
      cases hdrop : raw.dropWhile (· == 0xFF) with
      | nil => rw [hdrop] at hhead; cases hhead
      | cons b bs =>
          rw [hdrop, Bytes.beforeNul, List.takeWhile_cons] at hhead
          split at hhead
          · exact hhead
          · cases hhead
    have hnot := List.head?_dropWhile_not (· == (0xFF : UInt8)) raw
    rw [hfront] at hnot
    cases hnot
  · intro hzero
    have hne := List.mem_takeWhile_imp hzero
    cases hne
  · have hnot := List.head?_dropWhile_not (· != (0 : UInt8)) (raw.dropWhile (· == 0xFF))
    cases hrest : (raw.dropWhile (· == 0xFF)).dropWhile (· != 0) with
    | nil => exact .inl rfl
    | cons b bs =>
        rw [hrest] at hnot
        simp only [List.head?_cons, bne_eq_false_iff_eq] at hnot
        exact .inr (congrArg some hnot)

theorem ShownOf.eq {raw shown : Bytes} (h : ShownOf raw shown) :
    shown = Bytes.beforeNul (raw.dropWhile (· == 0xFF)) := by
  obtain ⟨padding, rest, rfl, hhead, hzero, hrest⟩ := h
  have hskip :
      (List.replicate padding 0xFF ++ (shown ++ rest)).dropWhile (· == 0xFF) = shown ++ rest := by
    rw [List.dropWhile_append_of_pos fun b hb => beq_iff_eq.mpr (List.eq_of_mem_replicate hb)]
    cases hfront : shown ++ rest with
    | nil => rfl
    | cons b bs =>
        apply List.dropWhile_cons_of_neg
        intro hb
        obtain rfl := eq_of_beq hb
        cases shown with
        | nil =>
            obtain rfl : rest = 0xFF :: bs := hfront
            rcases hrest with hrest | hrest <;> cases hrest
        | cons b' shown =>
            obtain ⟨rfl, -⟩ := List.cons.inj hfront
            exact hhead rfl
  have hstop : Bytes.beforeNul rest = [] := by
    rcases hrest with rfl | hrest
    · rfl
    · cases rest with
      | nil => rfl
      | cons b bs =>
          obtain rfl := Option.some.inj hrest
          rfl
  rw [hskip, Bytes.beforeNul_append fun b hb hb0 => hzero (hb0 ▸ hb), hstop, List.append_nil]

theorem CarriesName.eq {raw : Bytes} {name other : Option String} (h : CarriesName raw name)
    (hother : CarriesName raw other) : name = other := by
  obtain ⟨shown, hshown, rfl⟩ := h
  obtain ⟨shown', hshown', rfl⟩ := hother
  rw [hshown.eq, hshown'.eq]

/-- The bytes behind the name do not matter. -/
theorem carriesName_embeddedName? (o : UInt8) (params frame : Nat) {raw : Bytes}
    (hraw : raw.length < 0x100) (rest : Bytes) :
    CarriesName raw (embeddedName?
      (o :: (leBytes 1 params ++ (leBytes 2 frame ++ (leBytes 1 raw.length ++ raw)) ++ rest))) := by
  refine ⟨_, shownOf_beforeNul raw, ?_⟩
  have hbyte : (UInt8.ofNat raw.length).toNat = raw.length := Utf8.toNat_ofNat_of_lt hraw
  simp only [leBytes, List.cons_append, List.nil_append, embeddedName?, hbyte,
    Bytes.split?_append rfl]
  by_cases hshort : raw.length < 2
  · rw [if_pos hshort, if_neg (by omega)]
  · rw [if_neg hshort]
    by_cases hempty : Utf8.decodeLossy (Bytes.beforeNul (raw.dropWhile (· == 0xFF))) = ""
    · rw [if_pos (String.isEmpty_iff.mpr hempty), if_neg fun h => h.2 hempty]
    · rw [if_neg (fun h => hempty (String.isEmpty_iff.mp h)), if_pos ⟨by omega, hempty⟩]

theorem Instruction.Opens.eq {i : Instruction} {name other : Option String} (h : i.Opens name)
    (hother : i.Opens other) : name = other := by
  obtain ⟨params, frame, raw, -, -, -, hbytes, hname, -⟩ := h
  obtain ⟨params', frame', raw', -, -, -, hbytes', hname', -⟩ := hother
  obtain rfl : raw = raw' := by
    have hfront := (List.cons.inj (hbytes.symm.trans hbytes')).2
    have hframe := (List.append_inj hfront rfl).2
    have hlength := (List.append_inj hframe rfl).2
    exact (List.append_inj hlength rfl).2
  exact hname.eq hname'

/-! ## Decoding by layout -/

section
variable {labels : AddressLabels} {natives : NativeNames} {o : Opcode} {code tail rest : Bytes}
  {operands : List Operand}

theorem label_of_decode (hl : o.layout = .label)
    (h : decodeOperands? labels natives o code (tail ++ rest) = some (operands, tail.length)) :
    ∃ ip < 0x100000000, tail = leBytes 4 ip ∧ operands = [targetOperand labels ip] := by
  rw [decodeOperands?, hl] at h
  obtain ⟨⟨ip, more⟩, hread, heq⟩ := Option.bind_eq_some_iff.mp h
  obtain ⟨rfl, hlength⟩ := Prod.mk.inj (Option.some.inj heq)
  obtain ⟨hbytes, hip⟩ := Bytes.eq_of_read? hread
  exact ⟨ip, hip, (List.append_inj hbytes (by rw [← hlength, length_leBytes])).1, rfl⟩

theorem switch_of_decode (hl : o.layout = .switch)
    (h : decodeOperands? labels natives o code (tail ++ rest) = some (operands, tail.length)) :
    ∃ cs : List (Nat × Nat), cs.length < 0x100 ∧ (∀ c ∈ cs, c.1 < 0x100000000 ∧ c.2 < 0x100000000) ∧
      tail = leBytes 1 cs.length ++ caseBytes cs ∧ operands = cs.map (caseOperand labels) := by
  rw [decodeOperands?, hl] at h
  obtain ⟨⟨count, more⟩, hcount, h⟩ := Option.bind_eq_some_iff.mp h
  obtain ⟨⟨decoded, used⟩, hcases, heq⟩ := Option.bind_eq_some_iff.mp h
  obtain ⟨rfl, hlength⟩ := Prod.mk.inj (Option.some.inj heq)
  obtain ⟨hbytes, hbyte⟩ := Bytes.eq_of_read? hcount
  obtain ⟨cs, rest', rfl, rfl, rfl, hbounds, rfl⟩ := caseBytes_of_decode hcases
  rw [← List.append_assoc] at hbytes
  have hlengths : tail.length = (leBytes 1 cs.length ++ caseBytes cs).length := by
    rw [List.length_append, length_leBytes, length_caseBytes, ← hlength]
  exact ⟨cs, hbyte, hbounds, (List.append_inj hbytes hlengths).1, rfl⟩

theorem enter_of_decode (hl : o.layout = .enter)
    (h : decodeOperands? labels natives o code (tail ++ rest) = some (operands, tail.length)) :
    ∃ params frame raw, params < 0x100 ∧ frame < 0x10000 ∧ raw.length < 0x100 ∧
      tail = leBytes 1 params ++ (leBytes 2 frame ++ (leBytes 1 raw.length ++ raw)) ∧
      operands = [.int params, .int frame] ++ (embeddedName? code).toList.map .text := by
  rw [decodeOperands?, hl] at h
  obtain ⟨⟨params, bs⟩, hparams, h⟩ := Option.bind_eq_some_iff.mp h
  obtain ⟨⟨frame, bs'⟩, hframe, h⟩ := Option.bind_eq_some_iff.mp h
  obtain ⟨⟨length, bs''⟩, hname, h⟩ := Option.bind_eq_some_iff.mp h
  obtain ⟨⟨raw, more⟩, hraw, heq⟩ := Option.bind_eq_some_iff.mp h
  obtain ⟨rfl, hlength⟩ := Prod.mk.inj (Option.some.inj heq)
  obtain ⟨hbytes, hp⟩ := Bytes.eq_of_read? hparams
  obtain ⟨rfl, hf⟩ := Bytes.eq_of_read? hframe
  obtain ⟨rfl, hn⟩ := Bytes.eq_of_read? hname
  obtain ⟨rfl, rfl⟩ := Bytes.eq_of_split? hraw
  have hbytes' : tail ++ rest =
      leBytes 1 params ++ (leBytes 2 frame ++ (leBytes 1 raw.length ++ raw)) ++ more := by
    rw [hbytes]
    simp only [List.append_assoc]
  refine ⟨params, frame, raw, hp, hf, hn, (List.append_inj hbytes' ?_).1, rfl⟩
  rw [← hlength]
  simp only [List.length_append, length_leBytes]
  omega

end

/-! ## Tables with one label for each address -/

theorem nodup_addTargets (targets : List Nat) {labels : AddressLabels}
    (h : (labels.map Prod.fst).Nodup) :
    ((targets.foldl AddressLabels.addTarget labels).map Prod.fst).Nodup := by
  induction targets generalizing labels with
  | nil => exact h
  | cons target targets ih =>
      apply ih
      unfold AddressLabels.addTarget
      split
      · exact h
      · next hnew =>
          have hnone := not_mem_keys_of_lookup (Option.not_isSome_iff_eq_none.mp hnew)
          rw [List.map_append]
          refine List.nodup_append.mpr ⟨h, List.nodup_singleton _, fun a ha b hb hab => ?_⟩
          obtain rfl := hab.trans (List.mem_singleton.mp hb)
          exact hnone ha

theorem nodup_entryLabels {instructions : List Instruction} (h : (instructions.map (·.ip)).Nodup) :
    ((entryLabels instructions).map Prod.fst).Nodup := by
  refine List.Nodup.sublist ?_ h
  induction instructions with
  | nil => exact .slnil
  | cons i instructions ih =>
      rw [List.map_cons, List.nodup_cons] at h
      rw [entryLabels, List.filterMap_cons, List.map_cons]
      split
      · exact (ih h.2).cons _
      · next entry hentry =>
          split at hentry
          · obtain rfl := Option.some.inj hentry
            exact (ih h.2).cons_cons _
          · cases hentry

theorem functionLabel_eq (ip : Nat) (bytes : Bytes) :
    functionLabel ip bytes = (embeddedName? bytes).getD (entryLabel ip) := by
  unfold functionLabel entryLabel
  cases embeddedName? bytes <;> rfl

theorem caseOperand_labelled {labels : AddressLabels} {cs : List (Nat × Nat)}
    (hcs : ∀ c ∈ cs, ∃ label, labels.lookup c.2 = some label) :
    List.Forall₂ (fun c operand => ∃ label, (c.2, label) ∈ labels ∧
      operand = .case (Word.toSigned (UInt32.ofNat c.1)) label) cs
        (cs.map (caseOperand labels)) := by
  rw [List.forall₂_map_right_iff, List.forall₂_same]
  intro c hc
  obtain ⟨label, hlabel⟩ := hcs c hc
  exact ⟨label, mem_of_lookup hlabel, by rw [caseOperand, hlabel, Option.getD_some]⟩

/-! ## Instructions of a disassembly -/

theorem Op.toByte_of_ofByte {b : UInt8} {o : Opcode} (h : ofByte b = .named o) : b = o.toByte := by
  unfold ofByte at h
  split at h
  · next o' ho =>
      obtain rfl := Op.named.inj h
      obtain ⟨hlt, hget⟩ := List.getElem?_eq_some_iff.mp ho
      have hindex : ∀ k : Fin Opcode.all.length, (Opcode.all.get k).toByte =
        UInt8.ofNat k := by decide
      have hbyte := hindex ⟨b.toNat, hlt⟩
      rw [List.get_eq_getElem, hget, UInt8.ofNat_toNat] at hbyte
      exact hbyte.symm
  · split at h <;> cases h

theorem Cut.decodeFront_eq {labels : AddressLabels} {natives : NativeNames} {c : Cut}
    {i : Instruction} (h : decodeCut labels natives c = .ok i) :
    0 < c.size ∧ decodeFront labels natives c.op c.rest = some (i.operands, c.size - 1) := by
  have hdone {decoded : List Operand × Nat}
      (hfront : decodeFront labels natives c.op c.rest = some decoded)
      (h : (if 1 + decoded.2 = c.size then
          (pure ⟨labels.lookup c.ip, c.ip, c.op, decoded.1, c.bytes⟩ :
            Except EncodingError Instruction)
        else throw (.lengthMismatch c.ip c.op.mnemonic c.size (1 + decoded.2))) = .ok i) :
      0 < c.size ∧ decodeFront labels natives c.op c.rest = some (i.operands, c.size - 1) := by
    split at h
    · next hsize =>
        obtain rfl := Except.ok.inj h
        exact ⟨by omega, by rw [hfront, ← hsize, Nat.add_sub_cancel_left]⟩
    · cases h
  unfold decodeCut at h
  dsimp only at h
  split at h
  · next o hop =>
      split at h
      · next decoded hdecoded => exact hdone (by rw [hop]; exact hdecoded) h
      · cases h
  · next hop =>
      refine hdone ?_ h
      unfold decodeFront
      split
      · next o hnamed => exact absurd hnamed (hop o)
      · rfl

section
variable {code : Bytes} {natives : NativeNames} {d : Disassembly}
  (h : disassemble code natives = .ok d)
include h

theorem tiles_of_disassemble : ∃ ips, Steps code ips code.length ∧ d.Tiles code ips := by
  obtain ⟨cuts, hcuts, -⟩ := bind_eq_ok.mp h
  rcases cutFrom_of_steps (.start : Steps code [] 0) (List.drop_zero (l := code)).symm with
    ⟨cuts', hcuts', hsteps, hwithin⟩ | ⟨ips, ip, herror, -⟩
  · obtain ⟨d', hd', htiles⟩ := disassemble_of_cuts hcuts' hwithin natives
    obtain rfl := Except.ok.inj (h.symm.trans hd')
    exact ⟨_, hsteps, htiles⟩
  · cases hcuts.symm.trans herror

theorem nodup_addresses : (d.instructions.map (·.ip)).Nodup := by
  obtain ⟨ips, hsteps, htiles⟩ := tiles_of_disassemble h
  rw [htiles.addresses]
  exact hsteps.sorted.1.imp fun hlt => Nat.ne_of_lt hlt

/-- The operands of a named opcode are decoded from the bytes behind it. -/
theorem tail_of_disassemble {i : Instruction} (hi : i ∈ d.instructions) {o : Opcode}
    (hop : i.op = .named o) :
    ∃ tail rest, i.bytes = o.toByte :: tail ∧
      decodeOperands? d.labels natives o (o.toByte :: (tail ++ rest)) (tail ++ rest) =
        some (i.operands, tail.length) := by
  obtain ⟨-, rest, hdecode⟩ := decodeCut_of_disassemble h hi
  obtain ⟨hpos, hfront⟩ := Cut.decodeFront_eq hdecode
  have hsame := (Cut.decodesTo hdecode).op
  unfold Cut.op at hsame hfront
  dsimp only at hpos hfront hsame
  cases hbytes : i.bytes with
  | nil => rw [hbytes] at hpos; cases hpos
  | cons b tail =>
      rw [hbytes] at hfront hsame
      obtain rfl := Op.toByte_of_ofByte (hsame.symm.trans hop)
      refine ⟨tail, rest, rfl, ?_⟩
      rw [← hsame, hop] at hfront
      exact hfront

/-- The operands show the name that the bytes carry. -/
theorem opens_of_disassemble {i : Instruction} (hi : i ∈ d.instructions)
    (hop : i.op = .named .enter) :
    i.Opens (embeddedName? i.bytes) := by
  obtain ⟨tail, rest, hbytes, hdecode⟩ := tail_of_disassemble h hi hop
  obtain ⟨params, frame, raw, hp, hf, hraw, rfl, hoperands⟩ := enter_of_decode rfl hdecode
  have hname := carriesName_embeddedName? Opcode.enter.toByte params frame hraw []
  have hsame := (carriesName_embeddedName? Opcode.enter.toByte params frame hraw rest).eq hname
  rw [List.append_nil] at hname hsame
  rw [hsame] at hoperands
  rw [hbytes]
  exact ⟨params, frame, raw, hp, hf, hraw, hbytes, hname, hoperands⟩

theorem jumpsTo_of_disassemble {i : Instruction} (hi : i ∈ d.instructions) {o : Opcode}
    (hop : i.op = .named o) (hjump : o.isJump = true) :
    ∃ target, i.JumpsTo target ∧ i.operands = [targetOperand d.labels target] := by
  obtain ⟨tail, rest, hbytes, hdecode⟩ := tail_of_disassemble h hi hop
  obtain ⟨target, htarget, rfl, hoperands⟩ :=
    label_of_decode (Opcode.layout_of_isJump hjump) hdecode
  exact ⟨target, ⟨htarget, o, hop, hjump, hbytes⟩, hoperands⟩

theorem switchesTo_of_disassemble {i : Instruction} (hi : i ∈ d.instructions)
    (hop : i.op = .named .switch) :
    ∃ cs, i.SwitchesTo cs ∧ i.operands = cs.map (caseOperand d.labels) := by
  obtain ⟨tail, rest, hbytes, hdecode⟩ := tail_of_disassemble h hi hop
  obtain ⟨cs, hcount, hbounds, rfl, hoperands⟩ := switch_of_decode rfl hdecode
  exact ⟨cs, ⟨hcount, hbounds, hop, hbytes⟩, hoperands⟩

/-- Both passes read the same targets. -/
theorem mem_targets_iff {i : Instruction} (hi : i ∈ d.instructions) {ip : Nat} :
    ip ∈ i.targets ↔ i.RefersTo ip := by
  constructor
  · intro htarget
    by_cases hswitch : i.op = .named .switch
    · obtain ⟨cs, hcs, -⟩ := switchesTo_of_disassemble h hi hswitch
      rw [hcs.targets] at htarget
      exact .inr ⟨cs, hcs, htarget⟩
    · obtain ⟨o, hop, hjump⟩ := Instruction.isJump_of_mem_targets htarget hswitch
      obtain ⟨target, hto, -⟩ := jumpsTo_of_disassemble h hi hop hjump
      rw [hto.targets, List.mem_singleton] at htarget
      exact .inl (htarget ▸ hto)
  · rintro (hjump | ⟨cs, hcs, htarget⟩)
    · rw [hjump.targets]
      exact List.mem_singleton_self ip
    · rwa [hcs.targets]

theorem nodup_labels : (d.labels.map Prod.fst).Nodup := by
  rw [labels_of_disassemble h]
  exact nodup_addTargets _ (nodup_entryLabels (nodup_addresses h))

theorem mem_labels_iff {ip : Nat} {label : String} :
    (ip, label) ∈ d.labels ↔ d.labels.lookup ip = some label :=
  ⟨lookup_of_mem (nodup_labels h), mem_of_lookup⟩

/-- A frame opening keeps its label even if something jumps there. -/
theorem lookup_labels_opening {i : Instruction} (hi : i ∈ d.instructions)
    (hop : i.op = .named .enter) :
    d.labels.lookup i.ip = some ((embeddedName? i.bytes).getD (entryLabel i.ip)) := by
  have hmem : (i.ip, functionLabel i.ip i.bytes) ∈ entryLabels d.instructions :=
    mem_entryLabels.mpr ⟨i, hi, hop, rfl, rfl⟩
  rw [lookup_labels h, lookup_of_mem (nodup_entryLabels (nodup_addresses h)) hmem, functionLabel_eq]
  rfl

/-- Nothing refers to an address without a label. -/
theorem lookup_labels_target {i : Instruction} (hi : i ∈ d.instructions) {ip : Nat}
    (hip : ip ∈ i.targets) :
    ∃ label, d.labels.lookup ip = some label := by
  rw [lookup_labels h, if_pos (List.mem_flatMap.mpr ⟨i, hi, hip⟩)]
  cases (entryLabels d.instructions).lookup ip <;> exact ⟨_, rfl⟩

theorem mem_addresses_iff (ip : Nat) : ip ∈ d.labels.map Prod.fst ↔
    ∃ i ∈ d.instructions, (i.op = .named .enter ∧ i.ip = ip) ∨ i.RefersTo ip := by
  constructor
  · rintro hip
    obtain ⟨⟨ip, label⟩, hlabel, rfl⟩ := List.mem_map.mp hip
    by_cases hentry : ∃ i ∈ d.instructions, i.op = .named .enter ∧ i.ip = ip
    · obtain ⟨i, hi, hopening⟩ := hentry
      exact ⟨i, hi, .inl hopening⟩
    · have hlookup := (mem_labels_iff h).mp hlabel
      rw [lookup_labels_other h fun i hi hop hsame => hentry ⟨i, hi, hop, hsame⟩] at hlookup
      split at hlookup
      · next htarget =>
          obtain ⟨i, hi, htarget⟩ := List.mem_flatMap.mp htarget
          exact ⟨i, hi, .inr ((mem_targets_iff h hi).mp htarget)⟩
      · cases hlookup
  · rintro ⟨i, hi, ⟨hop, rfl⟩ | hrefers⟩
    · exact List.mem_map_of_mem (mem_of_lookup (lookup_labels_opening h hi hop))
    · obtain ⟨label, hlabel⟩ := lookup_labels_target h hi ((mem_targets_iff h hi).mpr hrefers)
      exact List.mem_map_of_mem (mem_of_lookup hlabel)

end

/-! ## The table of labels -/

/-- The labels of a disassembly are those that its instructions call for, and the operands show
them. -/
structure Disassembly.WellLabelled (d : Disassembly) : Prop where
  nodup : (d.labels.map Prod.fst).Nodup
  addresses : ∀ ip, ip ∈ d.labels.map Prod.fst ↔
    ∃ i ∈ d.instructions, (i.op = .named .enter ∧ i.ip = ip) ∨ i.RefersTo ip
  opens : ∀ i ∈ d.instructions, i.op = .named .enter → ∃ name, i.Opens name
  /-- A frame opening is labelled with the name that it carries, or else after its place. -/
  openings : ∀ i ∈ d.instructions, i.op = .named .enter → ∀ name, i.Opens name →
    (i.ip, name.getD (entryLabel i.ip)) ∈ d.labels
  others : ∀ ip label, (ip, label) ∈ d.labels →
    (∀ i ∈ d.instructions, i.op = .named .enter → i.ip ≠ ip) → label = codeLabel ip
  jumps : ∀ i ∈ d.instructions, ∀ o, i.op = .named o → o.isJump = true →
    ∃ target label, i.JumpsTo target ∧ (target, label) ∈ d.labels ∧ i.operands = [.ident label]
  switches : ∀ i ∈ d.instructions, i.op = .named .switch → ∃ cs, i.SwitchesTo cs ∧
    List.Forall₂ (fun c operand => ∃ label, (c.2, label) ∈ d.labels ∧
      operand = .case (Word.toSigned (UInt32.ofNat c.1)) label) cs i.operands
  /-- An instruction carries the label of its own address. -/
  own : ∀ i ∈ d.instructions, ∀ label, i.label = some label ↔ (i.ip, label) ∈ d.labels
  /-- Labels after places can be told apart however letters are cased. -/
  distinct : (∀ i ∈ d.instructions, ∀ name, ¬ i.Opens (some name)) → ∀ a x b y,
    (a, x) ∈ d.labels → (b, y) ∈ d.labels → foldName x = foldName y → a = b

section
variable {code : Bytes} {natives : NativeNames} {d : Disassembly}
  (h : disassemble code natives = .ok d)
include h

/-- If no function carries a name, a label is made from the address in one of two ways. -/
theorem label_cases (hplain : ∀ i ∈ d.instructions, ∀ name, ¬ i.Opens (some name)) {ip : Nat}
    {label : String} (hlabel : (ip, label) ∈ d.labels) :
    label = entryLabel ip ∨ label = codeLabel ip := by
  have hlookup := (mem_labels_iff h).mp hlabel
  by_cases hentry : ∃ i ∈ d.instructions, i.op = .named .enter ∧ i.ip = ip
  · obtain ⟨i, hi, hop, rfl⟩ := hentry
    have hopens := opens_of_disassemble h hi hop
    rw [lookup_labels_opening h hi hop] at hlookup
    cases hname : embeddedName? i.bytes with
    | none =>
        rw [hname] at hlookup
        exact .inl (Option.some.inj hlookup).symm
    | some name =>
        rw [hname] at hopens
        exact absurd hopens (hplain i hi name)
  · rw [lookup_labels_other h fun i hi hop hsame => hentry ⟨i, hi, hop, hsame⟩] at hlookup
    split at hlookup
    · exact .inr (Option.some.inj hlookup).symm
    · cases hlookup

/-- Every code that can be disassembled is tiled by its instructions, and the table of labels is
complete: it has one label for every frame opening and for everything that is jumped to, and no
other. -/
theorem disassemble_wellLabelled : (∃ ips, Steps code ips code.length ∧ d.Tiles code ips) ∧
    d.WellLabelled := by
  refine ⟨tiles_of_disassemble h, nodup_labels h, mem_addresses_iff h,
    fun i hi hop => ⟨_, opens_of_disassemble h hi hop⟩, fun i hi hop name hname => ?_,
    fun ip label hlabel hother => ?_, fun i hi o hop hjump => ?_, fun i hi hop =>
      ?_, fun i hi label => ?_,
    fun hplain a x b y hx hy hsame => ?_⟩
  · rw [mem_labels_iff h, hname.eq (opens_of_disassemble h hi hop)]
    exact lookup_labels_opening h hi hop
  · have hlookup := (mem_labels_iff h).mp hlabel
    rw [lookup_labels_other h hother] at hlookup
    split at hlookup
    · exact (Option.some.inj hlookup).symm
    · cases hlookup
  · obtain ⟨target, hto, hoperands⟩ := jumpsTo_of_disassemble h hi hop hjump
    obtain ⟨label, hlabel⟩ := lookup_labels_target h hi ((mem_targets_iff h hi).mpr (.inl hto))
    exact ⟨target, label, hto, mem_of_lookup hlabel, by rw [hoperands, targetOperand, hlabel]⟩
  · obtain ⟨cs, hcs, hoperands⟩ := switchesTo_of_disassemble h hi hop
    refine ⟨cs, hcs, hoperands ▸ caseOperand_labelled fun c hc => ?_⟩
    exact lookup_labels_target h hi (hcs.targets ▸ List.mem_map_of_mem hc)
  · rw [mem_labels_iff h, (decodeCut_of_disassemble h hi).1]
  · rcases label_cases h hplain hx with rfl | rfl <;> rcases label_cases h hplain hy with rfl | rfl
    · exact foldName_entryLabel_inj hsame
    · exact absurd hsame.symm (foldName_codeLabel_ne_entryLabel b a)
    · exact absurd hsame (foldName_codeLabel_ne_entryLabel a b)
    · exact foldName_numbered_inj hsame

end

/-- A named function that is jumped back to, a switch into an instruction and past the end, and a
function without a name. -/
def loopedEntries : Bytes :=
  [0x2F, 0, 2, 0, 4, 0xFF, 0x47, 0x6F, 0] ++ [0x22, 0, 0, 0, 0] ++
    [0x42, 2, 1, 0, 0, 0, 3, 0, 0, 0, 0xFF, 0xFF, 0xFF, 0xFF, 0, 2, 0, 0] ++ [0x2F, 0, 2, 0, 0] ++
      [0x30, 0, 0]

theorem disassemble_wellLabelled_loopedEntries :
    ∃ d, disassemble loopedEntries (.ofNames []) = .ok d ∧
      d.labels = [(0, "Go"), (32, "func_32"), (3, "lbl_3"), (512, "lbl_512")] ∧
      (d.instructions.map (·.operands)).take 3 = [[.int 0, .int 2, .text "Go"], [.ident "Go"],
        [.case 1 "lbl_3", .case (-1) "lbl_512"]] ∧ d.WellLabelled := by
  have hd : (disassemble loopedEntries (.ofNames [])).toOption.map (fun d =>
      (d.labels, (d.instructions.map (·.operands)).take 3)) =
        some ([(0, "Go"), (32, "func_32"), (3, "lbl_3"), (512, "lbl_512")],
          [[.int 0, .int 2, .text "Go"], [.ident "Go"],
              [.case 1 "lbl_3", .case (-1) "lbl_512"]]) := by
    decide +kernel
  obtain ⟨d, hd, heq⟩ := Option.map_eq_some_iff.mp hd
  have hok := ok_of_toOption hd
  obtain ⟨hlabels, hoperands⟩ := Prod.mk.inj heq
  exact ⟨d, hok, hlabels, hoperands, (disassemble_wellLabelled hok).2⟩

end GameScript
