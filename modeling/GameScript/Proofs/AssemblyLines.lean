import Mathlib.Algebra.GroupWithZero.Nat
import GameScript.Proofs.InstructionCodec

/-!
# The lines of an assembled script

Assembly is a list of lines: definitions of labels, frame openings and instructions, in the order in
which functions and statements give them. The buffer that assembly fills is described line by line:
each line other than a label contributes one group of pieces, and the label table says for every
label how many bytes the groups before it take. Resolving the buffer is not part of this module.
-/
namespace GameScript

theorem Opcode.mem_all (o : Opcode) : o ∈ Opcode.all := by
  cases o <;> decide

/-- Every mnemonic is found again, and none is the one that stands for the shortest push. -/
theorem Opcode.mnemonic_spec (o : Opcode) :
    Op.ofMnemonic? o.mnemonic = some (.named o) ∧
      sameName o.mnemonic Statement.pushMnemonic = false := by
  have hall : ∀ o ∈ Opcode.all, Op.ofMnemonic? o.mnemonic = some (.named o) ∧
      sameName o.mnemonic Statement.pushMnemonic = false := by decide +kernel
  exact hall o (mem_all o)

inductive Line where
  | label (key : String)
  /-- The frame opening that a function has without asking for it. -/
  | opening (f : FunctionDef)
  /-- A statement of `f` with a mnemonic. -/
  | instruction (f : FunctionDef) (mnemonic : String) (operands : List Operand)

def Line.isCode : Line → Bool
  | label _ => false
  | opening _ => true
  | instruction _ _ _ => true

def Statement.lines (f : FunctionDef) (s : Statement) : List Line :=
  (s.label.map fun name => Line.label (labelKey f.name name)).toList ++
    (s.mnemonic.map fun mnemonic => Line.instruction f mnemonic s.operands).toList

def FunctionDef.lines (f : FunctionDef) : List Line :=
  Line.label (functionKey f.name) :: ((if f.naked then [] else [Line.opening f]) ++
    f.body.flatMap (Statement.lines f))

/-- Where labels stand among lines that start at `ip`, when the lines of code among them have these
sizes. -/
def labelAddresses : Nat → List Line → List Nat → List (String × Nat)
  | ip, .label key :: lines, sizes => (key, ip) :: labelAddresses ip lines sizes
  | ip, _ :: lines, size :: sizes => labelAddresses (ip + size) lines sizes
  | _, _, _ => []

theorem labelAddresses_code {line : Line} (h : line.isCode = true) (ip size : Nat)
    (lines : List Line) (sizes : List Nat) :
    labelAddresses ip (line :: lines) (size :: sizes) = labelAddresses (ip + size) lines sizes := by
  cases line with
  | label key => cases h
  | opening f => rfl
  | instruction f mnemonic operands => rfl

theorem Line.eq_label {line : Line} (h : line.isCode = false) : ∃ key, line = .label key := by
  cases line with
  | label key => exact ⟨key, rfl⟩
  | opening f => cases h
  | instruction f mnemonic operands => cases h

theorem labelAddresses_append_label (key : String) {ip : Nat} {lines : List Line} {sizes : List Nat}
    (hlen : (lines.filter Line.isCode).length = sizes.length) :
    labelAddresses ip (lines ++ [.label key]) sizes =
      labelAddresses ip lines sizes ++ [(key, ip + sizes.sum)] := by
  induction lines generalizing ip sizes with
  | nil =>
      obtain rfl := List.eq_nil_of_length_eq_zero hlen.symm
      rfl
  | cons line lines ih =>
      cases hline : line.isCode with
      | false =>
          obtain ⟨key', rfl⟩ := Line.eq_label hline
          rw [List.cons_append, labelAddresses, ih hlen]
          rfl
      | true =>
          rw [List.filter_cons_of_pos hline, List.length_cons] at hlen
          cases sizes with
          | nil => cases hlen
          | cons size sizes =>
              rw [List.cons_append, labelAddresses_code hline, labelAddresses_code hline,
                ih (Nat.succ.inj hlen), List.sum_cons, Nat.add_assoc]

theorem labelAddresses_append_code {line : Line} (hline : line.isCode = true) (size : Nat)
    {ip : Nat} {lines : List Line} {sizes : List Nat}
    (hlen : (lines.filter Line.isCode).length = sizes.length) :
    labelAddresses ip (lines ++ [line]) (sizes ++ [size]) = labelAddresses ip lines sizes := by
  induction lines generalizing ip sizes with
  | nil =>
      obtain rfl := List.eq_nil_of_length_eq_zero hlen.symm
      exact labelAddresses_code hline ip size [] []
  | cons first lines ih =>
      cases hfirst : first.isCode with
      | false =>
          obtain ⟨key, rfl⟩ := Line.eq_label hfirst
          rw [List.cons_append, labelAddresses, labelAddresses, ih hlen]
      | true =>
          rw [List.filter_cons_of_pos hfirst, List.length_cons] at hlen
          cases sizes with
          | nil => cases hlen
          | cons n sizes =>
              rw [List.cons_append, List.cons_append, labelAddresses_code hfirst,
                labelAddresses_code hfirst, ih (Nat.succ.inj hlen)]

def Line.Encodes (withNames : Bool) : Line → List Piece → Prop
  | label _, _ => False
  | opening f, pieces => ∃ bytes, f.naked = false ∧ Assemble.prologue f withNames = .ok bytes ∧
      pieces = [.bytes bytes]
  | instruction f mnemonic operands, pieces =>
      Encode.instruction (referenceKey f.name (ownLabels f.body)) mnemonic operands = .ok pieces

def groupSize (pieces : List Piece) : Nat := (pieces.flatMap Piece.blank).length

/-- The buffer holds these lines, and nothing else. -/
structure Written (withNames : Bool) (b : CodeBuffer) (lines : List Line)
    (groups : List (List Piece)) : Prop where
  holds : b.Holds groups.flatten
  labels : b.labels = labelAddresses 0 lines (groups.map groupSize)
  groups : List.Forall₂ (Line.Encodes withNames) (lines.filter Line.isCode) groups

namespace Written

variable {withNames : Bool} {b b' : CodeBuffer} {lines : List Line} {groups : List (List Piece)}

theorem empty : Written withNames {} [] [] := ⟨CodeBuffer.holds_empty, rfl, .nil⟩

theorem length_eq (h : Written withNames b lines groups) :
    (lines.filter Line.isCode).length = (groups.map groupSize).length := by
  rw [List.length_map, h.groups.length_eq]

theorem ip (h : Written withNames b lines groups) : b.ip = (groups.map groupSize).sum := by
  rw [h.holds.ip]
  clear h
  induction groups with
  | nil => rfl
  | cons pieces groups ih =>
      rw [List.flatten_cons, List.flatMap_append, List.length_append, ih]
      rfl

theorem define (h : Written withNames b lines groups) {key : String}
    (hdefine : b.define key = .ok b') : Written withNames b' (lines ++ [.label key]) groups := by
  refine ⟨h.holds.of_defineAt hdefine, ?_, ?_⟩
  · rw [labelAddresses_append_label key h.length_eq, ← h.labels, Nat.zero_add, ← h.ip]
    unfold CodeBuffer.define CodeBuffer.defineAt at hdefine
    split at hdefine
    · contradiction
    · obtain rfl := Except.ok.inj hdefine
      rfl
  · rw [List.filter_append]
    simpa only [List.filter_cons, List.filter_nil, Line.isCode, Bool.false_eq_true, if_false,
      List.append_nil] using h.groups

theorem append (h : Written withNames b lines groups) {line : Line} {pieces : List Piece}
    (hline : line.Encodes withNames pieces) (hb : b'.Holds (groups.flatten ++ pieces))
    (hlabels : b'.labels = b.labels) :
    Written withNames b' (lines ++ [line]) (groups ++ [pieces]) := by
  have hcode : line.isCode = true := by
    cases line with
    | label key => exact hline.elim
    | opening f => rfl
    | instruction f mnemonic operands => rfl
  refine ⟨?_, ?_, ?_⟩
  · rw [List.flatten_append, List.flatten_cons, List.flatten_nil, List.append_nil]
    exact hb
  · rw [hlabels, h.labels, List.map_append]
    exact (labelAddresses_append_code hcode _ h.length_eq).symm
  · rw [List.filter_append, List.filter_cons_of_pos hcode]
    exact List.rel_append h.groups (.cons hline .nil)

end Written

namespace Assemble

variable {withNames : Bool} {b b' : CodeBuffer} {lines : List Line} {groups : List (List Piece)}

theorem labels_writePieces (pieces : List Piece) (b : CodeBuffer) :
    (b.writePieces pieces).labels = b.labels := by
  induction pieces generalizing b with
  | nil => rfl
  | cons piece pieces ih =>
      cases piece with
      | bytes value => exact ih (b.write value)
      | address key name => exact ih (b.writeRef key name .absolute32)

/-- What a statement does that can be assembled. -/
theorem statement_ok {function : String} {own : List String} {s : Statement}
    (h : statement function own b s = .ok b') :
    ∃ marked : CodeBuffer,
      (match s.label with
        | none => marked = b
        | some label => b.define (labelKey function label) = .ok marked) ∧
      match s.mnemonic with
        | none => b' = marked
        | some mnemonic => ∃ pieces,
            Encode.instruction (referenceKey function own) mnemonic s.operands = .ok pieces ∧
            b' = (marked.writePieces pieces).endInstruction := by
  have hcode {marked : CodeBuffer}
      (h : (match s.mnemonic with
        | none => pure marked
        | some mnemonic => do
            let pieces ← Encode.instruction (referenceKey function own) mnemonic s.operands
            return (marked.writePieces pieces).endInstruction) = Except.ok b') :
      match s.mnemonic with
        | none => b' = marked
        | some mnemonic => ∃ pieces,
            Encode.instruction (referenceKey function own) mnemonic s.operands = .ok pieces ∧
            b' = (marked.writePieces pieces).endInstruction := by
    cases hm : s.mnemonic with
    | none =>
        rw [hm] at h
        exact (Except.ok.inj h).symm
    | some mnemonic =>
        simp only [hm] at h ⊢
        obtain ⟨pieces, hpieces, h⟩ := bind_eq_ok.mp h
        exact ⟨pieces, hpieces, (Except.ok.inj h).symm⟩
  unfold statement at h
  cases hl : s.label with
  | none =>
      simp only [hl] at h
      exact ⟨b, rfl, hcode h⟩
  | some label =>
      simp only [hl] at h
      cases hdefine : b.define (labelKey function label) with
      | error e => rw [hdefine] at h; cases h
      | ok marked =>
          rw [hdefine] at h
          exact ⟨marked, hdefine, hcode h⟩

theorem statement_written {f : FunctionDef} {s : Statement} (h : Written withNames b lines groups)
    (hs : statement f.name (ownLabels f.body) b s = .ok b') :
    ∃ more, Written withNames b' (lines ++ s.lines f) (groups ++ more) := by
  obtain ⟨marked, hmarked, hs⟩ := statement_ok hs
  -- The label comes first and takes no code.
  have hlabel : Written withNames marked
      (lines ++ (s.label.map fun name => Line.label (labelKey f.name name)).toList) groups := by
    cases hl : s.label with
    | none =>
        rw [hl] at hmarked
        rw [hmarked]
        simpa using h
    | some label =>
        rw [hl] at hmarked
        exact h.define hmarked
  rw [Statement.lines, ← List.append_assoc]
  cases hm : s.mnemonic with
  | none =>
      rw [hm] at hs
      exact ⟨[], by simpa [hs] using hlabel⟩
  | some mnemonic =>
      simp only [hm] at hs
      obtain ⟨pieces, hpieces, rfl⟩ := hs
      exact ⟨[pieces], hlabel.append hpieces (hlabel.holds.writePieces pieces).endInstruction
        (labels_writePieces pieces marked)⟩

theorem body_written {f : FunctionDef} {body : List Statement}
    (h : Written withNames b lines groups)
    (hbody : body.foldlM (statement f.name (ownLabels f.body)) b = .ok b') :
    ∃ more, Written withNames b' (lines ++ body.flatMap (Statement.lines f)) (groups ++ more) := by
  induction body generalizing b lines groups with
  | nil =>
      obtain rfl := Except.ok.inj hbody
      exact ⟨[], by simpa using h⟩
  | cons s body ih =>
      rw [List.foldlM_cons] at hbody
      obtain ⟨next, hs, hbody⟩ := bind_eq_ok.mp hbody
      obtain ⟨first, hfirst⟩ := statement_written h hs
      obtain ⟨more, hmore⟩ := ih hfirst hbody
      refine ⟨first ++ more, ?_⟩
      rwa [List.flatMap_cons, ← List.append_assoc, ← List.append_assoc]

theorem function_written {f : FunctionDef} (h : Written withNames b lines groups)
    (hf : function withNames b f = .ok b') :
    ∃ more, Written withNames b' (lines ++ f.lines) (groups ++ more) := by
  obtain ⟨defined, hdefine, hf⟩ := bind_eq_ok.mp hf
  obtain ⟨bytes, hbytes, hbody⟩ := bind_eq_ok.mp hf
  have hlabel := h.define hdefine
  have hopening : ∃ more, Written withNames (defined.write bytes).endInstruction
      (lines ++ [.label (functionKey f.name)] ++ if f.naked then [] else [.opening f])
      (groups ++ more) := by
    cases hnaked : f.naked with
    | true =>
        simp only [prologue, hnaked, if_true] at hbytes
        obtain rfl := Except.ok.inj hbytes
        have hholds : (defined.write []).Holds groups.flatten := by
          simpa only [CodeBuffer.write, Array.appendList_nil] using hlabel.holds
        refine ⟨[], ?_⟩
        simp only [if_true, List.append_nil]
        exact ⟨hholds.endInstruction, hlabel.labels, hlabel.groups⟩
    | false =>
        exact ⟨[[.bytes bytes]], hlabel.append ⟨bytes, hnaked, hbytes, rfl⟩
          (hlabel.holds.write bytes).endInstruction rfl⟩
  obtain ⟨first, hfirst⟩ := hopening
  obtain ⟨more, hmore⟩ := body_written hfirst hbody
  refine ⟨first ++ more, ?_⟩
  simpa only [FunctionDef.lines, List.append_assoc, List.cons_append, List.nil_append] using hmore

theorem functions_written {fs : List FunctionDef} {entries : List (String × Nat)}
    (h : Written withNames b lines groups) (hfs : functions withNames b fs = .ok (b', entries)) :
    ∃ more, Written withNames b' (lines ++ fs.flatMap FunctionDef.lines) (groups ++ more) := by
  induction fs generalizing b lines groups entries with
  | nil =>
      obtain rfl := (Prod.mk.inj (Except.ok.inj hfs)).1
      exact ⟨[], by simpa using h⟩
  | cons f fs ih =>
      obtain ⟨next, hf, hrest⟩ := bind_eq_ok.mp hfs
      obtain ⟨⟨last, lastEntries⟩, hlast, heq⟩ := bind_eq_ok.mp hrest
      obtain rfl := (Prod.mk.inj (Except.ok.inj heq)).1
      obtain ⟨first, hfirst⟩ := function_written h hf
      obtain ⟨more, hmore⟩ := ih hfirst hlast
      refine ⟨first ++ more, ?_⟩
      rwa [List.flatMap_cons, ← List.append_assoc, ← List.append_assoc]

end Assemble
end GameScript
