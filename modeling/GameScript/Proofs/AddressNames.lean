import GameScript.Proofs.InstructionReencode

/-!
# Names of addresses

A disassembly has to name addresses whose names are lost. A function is named after the place where
it begins unless its frame opening carries a name, and every other address that is jumped to is
named after itself. These names can be told apart however letters are cased, and they contain no
full stop. An instruction carries the name of its own address.
-/
namespace GameScript

/-! ## Made-up names -/

/-- The name of a function that begins at `ip` and carries no name. -/
def entryLabel (ip : Nat) : String := if ip = 0 then entryName else "func_" ++ toString ip

theorem toDigits_inj {a b : Nat} (h : Nat.toDigits 10 a = Nat.toDigits 10 b) : a = b := by
  have hvalue := congrArg (fun digits => Nat.ofDigitChars 10 digits 0) h
  simpa only [Nat.ofDigitChars_ten_toDigits] using hvalue

theorem foldName_numbered_inj {stem : String} {a b : Nat}
    (h : foldName (stem ++ toString a) = foldName (stem ++ toString b)) : a = b := by
  have hlist := congrArg String.toList h
  rw [toList_foldName_numbered, toList_foldName_numbered] at hlist
  exact toDigits_inj (List.append_cancel_left hlist)

theorem noStop_numbered {stem : String} (hstem : '.' ∉ stem.toList) (n : Nat) :
    '.' ∉ (stem ++ toString n).toList := by
  rw [Nat.toString_eq_ofList_toDigits, String.toList_append, String.toList_ofList, List.mem_append,
    not_or]
  refine ⟨hstem, fun hstop => ?_⟩
  have hdigit := Nat.isDigit_of_mem_toDigits (by decide) (Nat.le_refl 10) hstop
  cases hdigit

theorem noStop_entryLabel (ip : Nat) : '.' ∉ (entryLabel ip).toList := by
  unfold entryLabel
  split
  · decide
  · exact noStop_numbered (by decide) ip

/-- The first letter tells the three kinds of names apart. -/
theorem head?_foldName_numbered (stem : String) {c : Char}
    (hstem : (foldName stem).toList.head? = some c) (n : Nat) :
    (foldName (stem ++ toString n)).toList.head? = some c := by
  rw [toList_foldName_numbered, List.head?_append, hstem]
  rfl

theorem foldName_codeLabel_ne_entryLabel (a b : Nat) :
    foldName (codeLabel a) ≠ foldName (entryLabel b) := by
  intro h
  have hhead := congrArg (fun s => s.toList.head?) h
  simp only [codeLabel, entryLabel] at hhead
  rw [head?_foldName_numbered "lbl_" (c := 'l') (by decide)] at hhead
  split at hhead
  · revert hhead
    decide
  · rw [head?_foldName_numbered "func_" (c := 'f') (by decide)] at hhead
    cases hhead

theorem foldName_entryLabel_inj {a b : Nat}
    (h : foldName (entryLabel a) = foldName (entryLabel b)) : a = b := by
  have hmain (n : Nat) : foldName entryName ≠ foldName ("func_" ++ toString n) := by
    intro h
    have hhead := congrArg (fun s => s.toList.head?) h
    rw [head?_foldName_numbered "func_" (c := 'f') (by decide)] at hhead
    revert hhead
    decide
  unfold entryLabel at h
  split at h
  · split at h
    · omega
    · exact absurd h (hmain b)
  · split at h
    · exact absurd h.symm (hmain a)
    · exact foldName_numbered_inj h

theorem functionLabel_enter (ip params frame : Nat) :
    functionLabel ip (Encode.enter (leBytes 1 params) (leBytes 2 frame) none) = entryLabel ip := rfl

/-! ## Tables of names -/

theorem lookup_addTarget (labels : AddressLabels) (target ip : Nat) :
    (labels.addTarget target).lookup ip =
      (labels.lookup ip).or (if ip = target then some (codeLabel ip) else none) := by
  unfold AddressLabels.addTarget
  split
  · next hknown =>
      split
      · next heq =>
          obtain ⟨label, hlabel⟩ := Option.isSome_iff_exists.mp hknown
          rw [heq, hlabel]
          rfl
      · rw [Option.or_none]
  · rw [List.lookup_append]
    congr 1
    split
    · next heq => rw [heq, List.lookup_cons_self]
    · next hne => rw [List.lookup_cons, beq_false_of_ne hne]; rfl

/-- The targets of jumps are named unless they have a name already. -/
theorem lookup_addTargets (targets : List Nat) (labels : AddressLabels) (ip : Nat) :
    (targets.foldl AddressLabels.addTarget labels).lookup ip =
      (labels.lookup ip).or (if ip ∈ targets then some (codeLabel ip) else none) := by
  induction targets generalizing labels with
  | nil => rw [List.foldl_nil, if_neg List.not_mem_nil, Option.or_none]
  | cons target targets ih =>
      rw [List.foldl_cons, ih, lookup_addTarget, Option.or_assoc]
      congr 1
      by_cases heq : ip = target
      · rw [if_pos heq, if_pos (List.mem_cons.mpr (.inl heq))]
        rfl
      · rw [if_neg heq, Option.none_or]
        simp only [List.mem_cons, heq, false_or]

def entryLabels (instructions : List Instruction) : AddressLabels :=
  instructions.filterMap fun i =>
    match i.op with
    | .named .enter => some (i.ip, functionLabel i.ip i.bytes)
    | _ => none

theorem mem_entryLabels {instructions : List Instruction} {ip : Nat} {label : String} :
    (ip, label) ∈ entryLabels instructions ↔
      ∃ i ∈ instructions, i.op = .named .enter ∧ i.ip = ip ∧
        functionLabel i.ip i.bytes = label := by
  rw [entryLabels, List.mem_filterMap]
  refine exists_congr fun i => and_congr_right fun _ => ?_
  split
  · next hop => simp only [hop, Option.some.injEq, Prod.mk.injEq, true_and]
  · next hop => simp only [reduceCtorEq, false_iff, not_and]; exact fun h => absurd h hop

/-! ## Disassemblies -/

theorem size_le_of_cutFrom {ip : Nat} {code : Bytes} {cuts : List Cut}
    (h : cutFrom ip code = .ok cuts) :
    ∀ c ∈ cuts, c.size ≤ c.rest.length := by
  fun_induction cutFrom ip code generalizing cuts with
  | case1 ip code hempty =>
      obtain rfl := Except.ok.inj h
      exact fun c hc => absurd hc List.not_mem_nil
  | case2 => cases h
  | case3 => cases h
  | case4 ip code hempty size hsize front rest hsplit ih =>
      obtain ⟨more, hmore, h⟩ := bind_eq_ok.mp h
      obtain rfl := Except.ok.inj h
      rw [List.forall_mem_cons]
      have hlength := Bytes.length_of_split? hsplit
      exact ⟨by dsimp only; omega, ih hmore⟩

theorem flatten_of_cutFrom {ip : Nat} {code : Bytes} {cuts : List Cut}
    (h : cutFrom ip code = .ok cuts) :
    (cuts.map Cut.bytes).flatten = code := by
  fun_induction cutFrom ip code generalizing cuts with
  | case1 ip code hempty =>
      obtain rfl := Except.ok.inj h
      exact (List.isEmpty_iff.mp hempty).symm
  | case2 => cases h
  | case3 => cases h
  | case4 ip code hempty size hsize front rest hsplit ih =>
      obtain ⟨more, hmore, h⟩ := bind_eq_ok.mp h
      obtain rfl := Except.ok.inj h
      obtain ⟨rfl, rfl⟩ := Bytes.eq_of_split? hsplit
      rw [List.map_cons, List.flatten_cons, ih hmore, Cut.bytes, List.take_left]

structure Cut.DecodesTo (labels : AddressLabels) (c : Cut) (i : Instruction) : Prop where
  ip : i.ip = c.ip
  op : i.op = c.op
  bytes : i.bytes = c.bytes
  label : i.label = labels.lookup c.ip

theorem Cut.decodesTo {labels : AddressLabels} {natives : NativeNames} {c : Cut} {i : Instruction}
    (h : decodeCut labels natives c = .ok i) : c.DecodesTo labels i := by
  have hdone {decoded : List Operand × Nat}
      (h : (if 1 + decoded.2 = c.size then
          (pure ⟨labels.lookup c.ip, c.ip, c.op, decoded.1, c.bytes⟩ :
            Except EncodingError Instruction)
        else throw (.lengthMismatch c.ip c.op.mnemonic c.size (1 + decoded.2))) = .ok i) :
      c.DecodesTo labels i := by
    split at h
    · obtain rfl := Except.ok.inj h
      exact ⟨rfl, rfl, rfl, rfl⟩
    · cases h
  unfold decodeCut at h
  dsimp only at h
  split at h
  · split at h
    · exact hdone h
    · cases h
  · exact hdone h

theorem Cut.DecodesTo.targets {labels : AddressLabels} {c : Cut} {i : Instruction}
    (h : c.DecodesTo labels i) : c.targets = i.targets := by
  have hsame : c.targets = Instruction.targets ⟨none, c.ip, c.op, [], c.bytes⟩ := rfl
  rw [hsame, Instruction.targets, Instruction.targets, h.op, h.bytes]

theorem filterMap_of_forall₂ {α β γ : Type} {f : α → Option γ} {g : β → Option γ} {xs : List α}
    {ys : List β} (h : List.Forall₂ (fun x y => f x = g y) xs ys) :
    xs.filterMap f = ys.filterMap g := by
  induction h with
  | nil => rfl
  | cons hxy _ ih => rw [List.filterMap_cons, List.filterMap_cons, hxy, ih]

theorem functionLabels_eq {labels : AddressLabels} {cuts : List Cut}
    {instructions : List Instruction} (h : List.Forall₂ (Cut.DecodesTo labels) cuts instructions) :
    functionLabels cuts = entryLabels instructions := by
  apply filterMap_of_forall₂
  refine h.imp fun c i hc => ?_
  obtain ⟨label, ip, op, operands, bytes⟩ := i
  obtain rfl : ip = c.ip := hc.ip
  obtain rfl : op = c.op := hc.op
  obtain rfl : bytes = c.bytes := hc.bytes
  rfl

theorem collectLabels_eq {labels : AddressLabels} {cuts : List Cut}
    {instructions : List Instruction} (h : List.Forall₂ (Cut.DecodesTo labels) cuts instructions) :
    collectLabels cuts =
      (instructions.flatMap Instruction.targets).foldl AddressLabels.addTarget
        (entryLabels instructions) := by
  have htargets : cuts.flatMap Cut.targets = instructions.flatMap Instruction.targets := by
    induction h with
    | nil => rfl
    | cons hc _ ih => rw [List.flatMap_cons, List.flatMap_cons, hc.targets, ih]
  rw [collectLabels, htargets, functionLabels_eq h]

section
variable {code : Bytes} {natives : NativeNames} {d : Disassembly}
  (h : disassemble code natives = .ok d)
include h

/-- No byte is lost. -/
theorem bytes_of_disassemble : (d.instructions.map (·.bytes)).flatten = code := by
  obtain ⟨cuts, hcuts, h⟩ := bind_eq_ok.mp h
  obtain ⟨instructions, hdecode, h⟩ := bind_eq_ok.mp h
  obtain rfl := Except.ok.inj h
  have hfields : List.Forall₂ (fun c i => c.bytes = i.bytes) cuts instructions :=
    (forall₂_of_mapM hdecode).imp fun c i hci => (Cut.decodesTo hci).bytes.symm
  have hbytes : cuts.map Cut.bytes = instructions.map (·.bytes) := by
    rwa [← List.forall₂_eq_eq_eq, List.forall₂_map_left_iff, List.forall₂_map_right_iff]
  exact hbytes ▸ flatten_of_cutFrom hcuts

theorem codeLength_of_disassemble : d.codeLength = (d.instructions.map (·.bytes.length)).sum := by
  have hlength : d.codeLength = code.length := by
    obtain ⟨cuts, _, h⟩ := bind_eq_ok.mp h
    obtain ⟨instructions, _, h⟩ := bind_eq_ok.mp h
    obtain rfl := Except.ok.inj h
    rfl
  rw [hlength, ← bytes_of_disassemble h, List.length_flatten, List.map_map]
  rfl

/-- An instruction carries the name of its address. It was decoded from its own bytes and what
follows them. -/
theorem decodeCut_of_disassemble {i : Instruction} (hi : i ∈ d.instructions) :
    i.label = d.labels.lookup i.ip ∧
      ∃ rest, decodeCut d.labels natives ⟨i.ip, i.bytes.length, i.bytes ++ rest⟩ = .ok i := by
  obtain ⟨cuts, hcuts, h⟩ := bind_eq_ok.mp h
  obtain ⟨instructions, hdecode, h⟩ := bind_eq_ok.mp h
  obtain rfl := Except.ok.inj h
  obtain ⟨c, hc, hci⟩ := exists_of_mem_forall₂ (forall₂_of_mapM hdecode) hi
  have hfields := Cut.decodesTo hci
  have hsize := size_le_of_cutFrom hcuts c hc
  refine ⟨hfields.ip ▸ hfields.label, c.rest.drop c.size, ?_⟩
  rw [hfields.ip, hfields.bytes, Cut.bytes, List.take_append_drop, List.length_take_of_le hsize]
  exact hci

theorem labels_of_disassemble : d.labels =
    (d.instructions.flatMap Instruction.targets).foldl AddressLabels.addTarget
      (entryLabels d.instructions) := by
  obtain ⟨cuts, _, h⟩ := bind_eq_ok.mp h
  obtain ⟨instructions, hdecode, h⟩ := bind_eq_ok.mp h
  obtain rfl := Except.ok.inj h
  exact collectLabels_eq ((forall₂_of_mapM hdecode).imp fun c i hci => Cut.decodesTo hci)

theorem lookup_labels (ip : Nat) : d.labels.lookup ip =
    ((entryLabels d.instructions).lookup ip).or
      (if ip ∈ d.instructions.flatMap Instruction.targets then some (codeLabel ip) else none) := by
  rw [labels_of_disassemble h]
  exact lookup_addTargets _ _ ip

/-- A function is named after the place where it begins. -/
theorem lookup_labels_enter (hcanonical : ∀ i ∈ d.instructions, i.Canonical) {i : Instruction}
    (hi : i ∈ d.instructions) (hop : i.op = .named .enter) :
    d.labels.lookup i.ip = some (entryLabel i.ip) := by
  have hmem : (i.ip, functionLabel i.ip i.bytes) ∈ entryLabels d.instructions :=
    mem_entryLabels.mpr ⟨i, hi, hop, rfl, rfl⟩
  have hlookup : (entryLabels d.instructions).lookup i.ip = some (entryLabel i.ip) := by
    cases hfound : (entryLabels d.instructions).lookup i.ip with
    | none =>
        exact absurd (List.mem_map_of_mem (f := Prod.fst) hmem) (not_mem_keys_of_lookup hfound)
    | some label =>
        obtain ⟨j, hj, hjop, hjip, hlabel⟩ := mem_entryLabels.mp (mem_of_lookup hfound)
        obtain ⟨params, frame, -, -, -, hbytes⟩ := (hcanonical j hj).enter hjop
        rw [← hlabel, hbytes, functionLabel_enter, hjip]
  rw [lookup_labels h, hlookup]
  rfl

/-- Every other address has a name only if something jumps there, and is named after itself. -/
theorem lookup_labels_other {ip : Nat}
    (hip : ∀ i ∈ d.instructions, i.op = .named .enter → i.ip ≠ ip) :
    d.labels.lookup ip =
      if ip ∈ d.instructions.flatMap Instruction.targets then some (codeLabel ip) else none := by
  have hlookup : (entryLabels d.instructions).lookup ip = none := by
    cases hfound : (entryLabels d.instructions).lookup ip with
    | none => rfl
    | some label =>
        obtain ⟨i, hi, hop, hsame, -⟩ := mem_entryLabels.mp (mem_of_lookup hfound)
        exact absurd hsame (hip i hi hop)
  rw [lookup_labels h, hlookup, Option.none_or]

end
end GameScript
