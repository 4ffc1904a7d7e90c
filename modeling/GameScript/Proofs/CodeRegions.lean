import GameScript.Proofs.LabelOperands

/-!
# Regions of assembled code

Disassembled code can be cut at the addresses that are reported for functions. For an assembled
script this gives one region for each function, which holds the function's lines of code and nothing
else, and every label of the function stands at an instruction of its region as long as code follows
it. Nothing is assumed of the functions here; what their code does is left to other modules.
-/
namespace GameScript

structure Region where
  name : String
  entry : Nat
  instructions : List Instruction

/-- Cut instructions where functions begin. The last region reaches to the end. -/
def cutRegions : List (String × Nat) → List Instruction → List Region
  | [], _ => []
  | [(name, entry)], instructions => [⟨name, entry, instructions⟩]
  | (name, entry) :: (next, stop) :: more, instructions =>
    ⟨name, entry, instructions.takeWhile (·.ip < stop)⟩ ::
      cutRegions ((next, stop) :: more) (instructions.dropWhile (·.ip < stop))

def Instruction.targets (i : Instruction) : List Nat :=
  match i.op with
  | .named .jump | .named .jumpZero | .named .jumpNonzero => [addressAt i.bytes 1]
  | .named .switch =>
    (List.range ((i.bytes.drop 1).headD 0).toNat).map fun n => addressAt i.bytes (2 + 8 * n + 4)
  | _ => []

/-! ## Decoded lines -/

/-- A line of code is the opening of its function or one of its statements. -/
theorem FunctionDef.line_cases {f : FunctionDef} {line : Line}
    (h : line ∈ f.lines.filter Line.isCode) :
    line = .opening f ∨ ∃ s ∈ f.body, ∃ mnemonic, s.mnemonic = some mnemonic ∧
      line = .instruction f mnemonic s.operands := by
  obtain ⟨hline, hcode⟩ := List.mem_filter.mp h
  rw [FunctionDef.lines, List.mem_cons, List.mem_append, List.mem_flatMap] at hline
  rcases hline with rfl | hopening | ⟨s, hs, hline⟩
  · cases hcode
  · split at hopening
    · cases hopening
    · exact .inl (List.mem_singleton.mp hopening)
  · rw [Statement.lines, List.mem_append, Option.mem_toList, Option.mem_toList] at hline
    rcases hline with hlabel | hinstruction
    · obtain ⟨label, _, rfl⟩ := Option.map_eq_some_iff.mp hlabel
      cases hcode
    · obtain ⟨mnemonic, hm, rfl⟩ := Option.map_eq_some_iff.mp hinstruction
      exact .inr ⟨s, hs, mnemonic, hm, rfl⟩

/-- A statement is read back under an opcode only if its mnemonic is that of the opcode. -/
theorem Reading.Instruction.ofMnemonic {r : Reading} {key : String → String} {mnemonic : String}
    {written read : List Operand} {op : Op} {o : Opcode}
    (h : r.Instruction key mnemonic written op read) (hop : op = .named o)
    (ho : o.layout = .leave ∨ o.layout = .function) :
    Op.ofMnemonic? mnemonic = some (.named o) ∧ r.Operands key o.layout written read := by
  subst hop
  unfold Reading.Instruction at h
  split at h
  · cases h <;> rcases ho with ho | ho <;> cases ho
  · exact h

/-- The instruction is read back as the line, from the bytes that the line is encoded as. -/
structure Line.Decoded (withNames : Bool) (r : Reading) (line : Line) (i : Instruction) : Prop where
  readsBack : line.ReadsBack r withNames i
  encodes : ∃ pieces, line.Encodes withNames pieces ∧ (∀ p ∈ pieces, p.Placed r.address?) ∧
    i.bytes = filledAll r.place pieces

theorem Line.Decoded.bytes_pos {withNames : Bool} {r : Reading} {line : Line} {i : Instruction}
    (h : line.Decoded withNames r i) : 0 < i.bytes.length := by
  obtain ⟨pieces, hencodes, hplaced, hbytes⟩ := h.encodes
  obtain ⟨op, operands, hinstruction, -⟩ := hencodes.readsBack hplaced
  rw [hbytes]
  apply List.length_pos_iff.mpr
  intro hnil
  have hfirst := hinstruction.first
  rw [hnil] at hfirst
  cases hfirst

theorem decoded_of_readsBack {withNames : Bool} {r : Reading} {lines : List Line}
    {groups : List (List Piece)} {instructions : List Instruction}
    (hencodes : List.Forall₂ (Line.Encodes withNames) lines groups)
    (hplaced : ∀ pieces ∈ groups, ∀ p ∈ pieces, p.Placed r.address?)
    (hread : List.Forall₂ (Line.ReadsBack r withNames) lines instructions)
    (hbytes : instructions.map (·.bytes) = groups.map (filledAll r.place)) :
    List.Forall₂ (Line.Decoded withNames r) lines instructions := by
  induction hread generalizing groups with
  | nil => exact .nil
  | @cons line i lines instructions hline _ ih =>
      cases hencodes with
      | @cons _ pieces _ groups hpieces hencodes =>
          rw [List.forall_mem_cons] at hplaced
          obtain ⟨hfirst, hbytes⟩ := List.cons.inj hbytes
          exact .cons ⟨hline, pieces, hpieces, hplaced.1, hfirst⟩ (ih hencodes hplaced.2 hbytes)

/-- Code that consists of encoded lines is disassembled into these lines. -/
theorem disassemble_of_encodes {withNames : Bool} {address? : String → Option Nat}
    {lines : List Line} {groups : List (List Piece)}
    (hencodes : List.Forall₂ (Line.Encodes withNames) lines groups)
    (hplaced : ∀ pieces ∈ groups, ∀ p ∈ pieces, p.Placed address?) (natives : NativeNames) :
    ∃ d, disassemble (groups.map (filledAll fun key => (address? key).getD 0)).flatten natives =
      .ok d ∧ Consecutive 0 d.instructions ∧
      d.instructions.map (·.bytes.length) = groups.map groupSize ∧
      List.Forall₂ (Line.Decoded withNames ⟨d.labels, natives, address?⟩) lines d.instructions := by
  let chunks := groups.map (filledAll fun key => (address? key).getD 0)
  have hcuts : cutFrom 0 chunks.flatten = .ok (cutsOf 0 chunks) :=
    cutFrom_flatten 0 (whole_of_encodes hencodes hplaced)
  let r : Reading := ⟨collectLabels (cutsOf 0 chunks), natives, address?⟩
  obtain ⟨instructions, hdecode, hread, hips, hbytes⟩ := mapM_decodeCut (r := r) hencodes hplaced 0
  refine ⟨⟨instructions, r.labels, chunks.flatten.length⟩, ?_, hips, ?_, ?_⟩
  · rw [disassemble, hcuts]
    exact bind_eq_ok.mpr ⟨_, rfl, bind_eq_ok.mpr ⟨_, hdecode, rfl⟩⟩
  · have hlengths := congrArg (List.map List.length) hbytes
    simpa only [List.map_map, Function.comp_def, length_filledAll] using hlengths
  · exact decoded_of_readsBack hencodes hplaced hread hbytes

/-- The second byte of a switch counts its cases. -/
theorem count_of_switch {key : String → String} {mnemonic : String} {operands : List Operand}
    {pieces : List Piece} (h : Encode.instruction key mnemonic operands = .ok pieces)
    (hop : Op.ofMnemonic? mnemonic = some (.named .switch)) (place : String → Nat) :
    (((filledAll place pieces).drop 1).headD 0).toNat = operands.length := by
  rw [Encode.instruction_of_named hop] at h
  simp only [Encode.named, Opcode.layout, bind_eq_ok] at h
  obtain ⟨count, hcount, more, -, h⟩ := h
  obtain rfl := Except.ok.inj h
  obtain ⟨n, hn, hlength, rfl⟩ := Encode.byteOf_ok hcount
  obtain rfl := Int.ofNat.inj hlength
  exact UInt8.toNat_ofNat_of_lt' hn

/-- The targets of an instruction are the addresses of its label operands. -/
theorem Line.Decoded.jumpOperand {withNames : Bool} {r : Reading} {f : FunctionDef}
    {mnemonic : String} {operands : List Operand} {i : Instruction}
    (h : (Line.instruction f mnemonic operands).Decoded withNames r i) {ip : Nat}
    (hip : ip ∈ i.targets) :
    ∃ offset name, JumpOperand mnemonic operands offset name ∧ ip = addressAt i.bytes offset := by
  have hread : r.Instruction (referenceKey f.name (ownLabels f.body)) mnemonic operands i.op
      i.operands :=
    h.readsBack
  unfold Reading.Instruction at hread
  rw [Instruction.targets] at hip
  split at hread
  · -- A push jumps nowhere.
    generalize i.op = op at hip hread
    generalize i.operands = read at hread
    cases hread <;> cases hip
  · obtain ⟨hop, hoperands⟩ := hread
    have hjump {o : Opcode} (ho : o.isJump = true) (heq : i.op = .named o)
        (hip : ip ∈ [addressAt i.bytes 1]) :
        ∃ offset name, JumpOperand mnemonic operands offset name ∧
            ip = addressAt i.bytes offset := by
      rw [heq] at hop hoperands
      simp only [o.layout_of_isJump ho, Reading.Operands] at hoperands
      obtain ⟨name, target, hname, -⟩ := hoperands
      exact ⟨1, name, .jump hop ho hname, List.mem_singleton.mp hip⟩
    split at hip
    next heq => exact hjump rfl heq hip
    next heq => exact hjump rfl heq hip
    next heq => exact hjump rfl heq hip
    next heq =>
      rw [heq] at hop hoperands
      obtain ⟨k, hk, rfl⟩ := List.mem_map.mp hip
      obtain ⟨pieces, hencodes, -, hbytes⟩ := h.encodes
      rw [List.mem_range, hbytes, count_of_switch hencodes hop] at hk
      obtain ⟨_, _, value, name, _, _, hcase, -⟩ :=
        exists_of_mem_forall₂ hoperands.flip (List.getElem_mem hk)
      have hget : operands[k]? = some (.case value name) := by
        rw [List.getElem?_eq_getElem hk, hcase]
      exact ⟨_, name, .case hop hget, rfl⟩
    next => cases hip

/-! ## Regions and functions -/

/-- The region holds the code of `f` and nothing else. -/
structure Region.Holds (withNames : Bool) (r : Reading) (f : FunctionDef) (region : Region) :
    Prop where
  name : region.name = f.name
  consecutive : Consecutive region.entry region.instructions
  lines : List.Forall₂ (Line.Decoded withNames r) (f.lines.filter Line.isCode) region.instructions
  labels : ∀ key ip, (key, ip) ∈ labelAddresses region.entry f.lines
    (region.instructions.map (·.bytes.length)) → r.address? key = some ip

theorem Consecutive.append {front rest : List Instruction} {ip : Nat}
    (h : Consecutive ip (front ++ rest)) :
    Consecutive ip front ∧ Consecutive (ip + (front.map (·.bytes.length)).sum) rest := by
  induction front generalizing ip with
  | nil => exact ⟨trivial, h⟩
  | cons i front ih =>
      obtain ⟨hfront, hrest⟩ := ih h.2
      rw [List.map_cons, List.sum_cons, ← Nat.add_assoc]
      exact ⟨⟨h.1, hfront⟩, hrest⟩

/-- Cutting where the rest begins separates the rest from what stands before it. -/
theorem cut_consecutive {front rest : List Instruction} {ip : Nat}
    (h : Consecutive ip (front ++ rest)) (hpos : ∀ i ∈ front, 0 < i.bytes.length) :
    let stop := ip + (front.map (·.bytes.length)).sum
    (front ++ rest).takeWhile (·.ip < stop) = front ∧
      (front ++ rest).dropWhile (·.ip < stop) = rest := by
  induction front generalizing ip with
  | nil =>
      cases rest with
      | nil => exact ⟨rfl, rfl⟩
      | cons i rest =>
          have hnot : ¬ (decide (i.ip < ip + 0) = true) := by
            rw [h.1]
            simp
          exact ⟨List.takeWhile_cons_of_neg hnot, List.dropWhile_cons_of_neg hnot⟩
  | cons i front ih =>
      rw [List.forall_mem_cons] at hpos
      obtain ⟨htake, hdrop⟩ := ih h.2 hpos.2
      rw [List.map_cons, List.sum_cons, ← Nat.add_assoc]
      have hfirst :
          decide (i.ip < ip + i.bytes.length + (front.map (·.bytes.length)).sum) = true := by
        rw [h.1, decide_eq_true_eq]
        omega
      simp only [List.cons_append, List.takeWhile_cons, List.dropWhile_cons, hfirst, if_true, htake,
        hdrop, and_self]

section
variable {withNames : Bool} {r : Reading}

/-- Cutting at the entries of functions gives the regions of the functions. The induction is on the
functions whose code is left. -/
theorem cutRegions_holds {fs : List FunctionDef} {entries : List (String × Nat)}
    {instructions : List Instruction} {ip : Nat}
    (hentries : List.Forall₂
      (fun f entry => entry.1 = f.name ∧ r.address? (functionKey f.name) = some entry.2) fs entries)
    (hlines : List.Forall₂ (Line.Decoded withNames r)
      ((fs.flatMap FunctionDef.lines).filter Line.isCode) instructions)
    (hips : Consecutive ip instructions)
    (htable : ∀ key a, (key, a) ∈ labelAddresses ip (fs.flatMap FunctionDef.lines)
      (instructions.map (·.bytes.length)) → r.address? key = some a) :
    List.Forall₂ (Region.Holds withNames r) fs (cutRegions entries instructions) ∧
      (cutRegions entries instructions).flatMap Region.instructions = instructions ∧
      ∀ entry, entries.head? = some entry → entry.2 = ip := by
  induction hentries generalizing instructions ip with
  | nil =>
      cases hlines
      exact ⟨.nil, rfl, fun entry h => nomatch h⟩
  | @cons f entry fs entries hentry hentries ih =>
      obtain ⟨name, start⟩ := entry
      obtain ⟨rfl, haddress⟩ := hentry
      rw [List.flatMap_cons, List.filter_append] at hlines
      obtain ⟨own, rest, rfl, hown, hrest⟩ := forall₂_append_split hlines
      have hlen : (f.lines.filter Line.isCode).length = (own.map (·.bytes.length)).length := by
        rw [hown.length_eq, List.length_map]
      rw [List.flatMap_cons, List.map_append, labelAddresses_append hlen] at htable
      obtain ⟨hipsOwn, hipsRest⟩ := hips.append
      have htableOwn := fun key a h => htable key a (List.mem_append_left _ h)
      have htableRest := fun key a h => htable key a (List.mem_append_right _ h)
      -- The key of a function comes first among its labels.
      have hstart : start = ip := by
        have hkey := htableOwn (functionKey f.name) ip List.mem_cons_self
        rw [haddress] at hkey
        exact Option.some.inj hkey
      subst hstart
      obtain ⟨hregions, hflat, hhead⟩ := ih hrest hipsRest htableRest
      cases hentries with
      | nil =>
          cases hrest
          rw [List.append_nil]
          exact ⟨.cons ⟨rfl, hipsOwn, hown, htableOwn⟩ .nil, List.append_nil _,
            fun entry h => (Option.some.inj h) ▸ rfl⟩
      | @cons g entry fs entries _ _ =>
          obtain ⟨next, stop⟩ := entry
          have hstop : stop = start + (own.map (·.bytes.length)).sum := hhead _ rfl
          have hpos : ∀ i ∈ own, 0 < i.bytes.length := by
            intro i hi
            obtain ⟨line, _, hline⟩ := exists_of_mem_forall₂ hown hi
            exact hline.bytes_pos
          obtain ⟨htake, hdrop⟩ := cut_consecutive hips hpos
          rw [← hstop] at htake hdrop
          rw [cutRegions, htake, hdrop]
          refine ⟨.cons ⟨rfl, hipsOwn, hown, htableOwn⟩ hregions, ?_,
            fun entry h => (Option.some.inj h) ▸ rfl⟩
          rw [List.flatMap_cons, hflat]

/-- A label with code behind it stands at an instruction. The induction is on the lines before the
last one, which is code. -/
theorem label_at_instruction {front : List Line} {last : Line} {instructions : List Instruction}
    {ip : Nat} {key : String} (hlast : last.isCode = true)
    (hlen : ((front ++ [last]).filter Line.isCode).length = instructions.length)
    (hips : Consecutive ip instructions) (hkey : Line.label key ∈ front) :
    ∃ i ∈ instructions,
      (key, i.ip) ∈ labelAddresses ip (front ++ [last]) (instructions.map (·.bytes.length)) := by
  induction front generalizing instructions ip with
  | nil => cases hkey
  | cons line front ih =>
      cases hline : line.isCode with
      | false =>
          obtain ⟨key', rfl⟩ := Line.eq_label hline
          rw [List.cons_append, labelAddresses]
          by_cases heq : key = key'
          · subst heq
            cases instructions with
            | nil =>
                rw [List.cons_append, List.filter_cons_of_neg (by simp [Line.isCode]),
                  List.filter_append, List.filter_cons_of_pos hlast] at hlen
                simp at hlen
            | cons i instructions =>
                refine ⟨i, List.mem_cons_self, ?_⟩
                rw [hips.1]
                exact List.mem_cons_self
          · have hkey : Line.label key ∈ front := by
              rcases List.mem_cons.mp hkey with hsame | hkey
              · exact absurd (Line.label.inj hsame) heq
              · exact hkey
            obtain ⟨i, hi, hmem⟩ := ih hlen hips hkey
            exact ⟨i, hi, List.mem_cons_of_mem _ hmem⟩
      | true =>
          rw [List.cons_append, List.filter_cons_of_pos hline, List.length_cons] at hlen
          have hkey : Line.label key ∈ front := by
            rcases List.mem_cons.mp hkey with rfl | hkey
            · cases hline
            · exact hkey
          cases instructions with
          | nil => cases hlen
          | cons i instructions =>
              obtain ⟨j, hj, hmem⟩ := ih (Nat.succ.inj hlen) hips.2 hkey
              refine ⟨j, List.mem_cons_of_mem _ hj, ?_⟩
              rw [List.cons_append, List.map_cons, labelAddresses_code hline]
              exact hmem

end

end GameScript
