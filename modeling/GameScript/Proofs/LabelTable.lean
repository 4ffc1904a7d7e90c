import GameScript.Proofs.AssembleGenerated
import GameScript.Proofs.DisassembleAssembled

/-!
# The label table of an assembled script

A label can be defined once only, so in a script that is accepted every key of the label table
stands for one line, and looking the key up gives the address of that line. Together with the lines
and their code this is all that later modules need to know of a run of the assembler. What the keys
mean, and which of them an operand selects, is not discussed here.
-/
namespace GameScript

/-! ## Keys are defined once -/

namespace CodeBuffer

def Distinct (b : CodeBuffer) : Prop := (b.labels.map Prod.fst).Nodup

/-- Every label of `b` is one of `b'`, and if no key of `b` is defined twice, none of `b'` is. -/
structure Relabels (b b' : CodeBuffer) : Prop where
  keeps : b.labels ⊆ b'.labels
  distinct : b.Distinct → b'.Distinct

theorem Relabels.of_eq {b b' : CodeBuffer} (h : b'.labels = b.labels) : b.Relabels b' :=
  ⟨fun _ hl => h ▸ hl, fun hd => by rwa [Distinct, h]⟩

theorem Relabels.trans {b₁ b₂ b₃ : CodeBuffer} (h : b₁.Relabels b₂) (h' : b₂.Relabels b₃) :
    b₁.Relabels b₃ :=
  ⟨fun _ hl => h'.keeps (h.keeps hl), fun hd => h'.distinct (h.distinct hd)⟩

theorem relabels_define {b b' : CodeBuffer} {key : String} (h : b.define key = .ok b') :
    b.Relabels b' ∧ (key, b.ip) ∈ b'.labels := by
  unfold define defineAt at h
  split at h
  · contradiction
  · next hfree =>
      obtain rfl := Except.ok.inj h
      refine ⟨⟨List.subset_append_left _ _, fun hd => ?_⟩, ?_⟩
      · rw [Distinct, List.map_append, List.nodup_append]
        refine ⟨hd, List.pairwise_singleton _ _, ?_⟩
        intro a ha k hk hak
        rw [hak, List.mem_singleton.mp hk] at ha
        exact not_mem_keys_of_lookup hfree ha
      · exact List.mem_append_right _ List.mem_cons_self

end CodeBuffer

namespace Assemble

variable {b b' : CodeBuffer}

theorem statement_relabels {function : String} {own : List String} {s : Statement}
    (h : statement function own b s = .ok b') : b.Relabels b' := by
  obtain ⟨marked, hmarked, hcode⟩ := statement_ok h
  have hlabel : b.Relabels marked := by
    cases hl : s.label with
    | none =>
        rw [hl] at hmarked
        exact .of_eq (congrArg CodeBuffer.labels hmarked)
    | some label =>
        rw [hl] at hmarked
        exact (CodeBuffer.relabels_define hmarked).1
  apply hlabel.trans
  cases hm : s.mnemonic with
  | none =>
      rw [hm] at hcode
      exact .of_eq (congrArg CodeBuffer.labels hcode)
  | some mnemonic =>
      simp only [hm] at hcode
      obtain ⟨pieces, _, rfl⟩ := hcode
      exact .of_eq (labels_writePieces pieces marked)

theorem body_relabels {function : String} {own : List String} {body : List Statement}
    (h : body.foldlM (statement function own) b = .ok b') : b.Relabels b' := by
  induction body generalizing b with
  | nil =>
      obtain rfl := Except.ok.inj h
      exact .of_eq rfl
  | cons s body ih =>
      rw [List.foldlM_cons] at h
      obtain ⟨next, hs, hbody⟩ := bind_eq_ok.mp h
      exact (statement_relabels hs).trans (ih hbody)

theorem function_relabels {withNames : Bool} {f : FunctionDef}
    (h : function withNames b f = .ok b') :
    b.Relabels b' ∧ (functionKey f.name, b.ip) ∈ b'.labels := by
  obtain ⟨defined, hdefine, h⟩ := bind_eq_ok.mp h
  obtain ⟨opening, _, hbody⟩ := bind_eq_ok.mp h
  obtain ⟨hfirst, hkey⟩ := CodeBuffer.relabels_define hdefine
  have hrest := body_relabels hbody
  have hopened : defined.Relabels b' := ⟨hrest.keeps, hrest.distinct⟩
  exact ⟨hfirst.trans hopened, hopened.keeps hkey⟩

/-- Besides, the addresses that are reported for functions are those of their keys. -/
theorem functions_relabels {withNames : Bool} {fs : List FunctionDef}
    {entries : List (String × Nat)} (h : functions withNames b fs = .ok (b', entries)) :
    b.Relabels b' ∧
      List.Forall₂ (fun f entry => entry.1 = f.name ∧ (functionKey f.name, entry.2) ∈ b'.labels) fs
        entries := by
  induction fs generalizing b entries with
  | nil =>
      obtain ⟨rfl, rfl⟩ := Prod.mk.inj (Except.ok.inj h)
      exact ⟨.of_eq rfl, .nil⟩
  | cons f fs ih =>
      obtain ⟨next, hf, h⟩ := bind_eq_ok.mp h
      obtain ⟨⟨last, more⟩, hmore, heq⟩ := bind_eq_ok.mp h
      obtain ⟨rfl, rfl⟩ := Prod.mk.inj (Except.ok.inj heq)
      obtain ⟨hfirst, hkey⟩ := function_relabels hf
      obtain ⟨hrest, hentries⟩ := ih hmore
      exact ⟨hfirst.trans hrest, .cons ⟨rfl, hrest.keeps hkey⟩ hentries⟩

end Assemble

/-! ## Assembled scripts -/

/-- The code of `script` consists of these groups of pieces, one for each line of code of `fs`, with
every label at the address that `address?` gives it. That is the address at which the line stands
that defines the label. -/
structure AssembledAs (withNames : Bool) (fs : List FunctionDef) (script : AssembledScript)
    (address? : String → Option Nat) (groups : List (List Piece)) : Prop where
  encodes : List.Forall₂ (Line.Encodes withNames)
    ((fs.flatMap FunctionDef.lines).filter Line.isCode) groups
  placed : ∀ pieces ∈ groups, ∀ p ∈ pieces, p.Placed address?
  code : script.code = (groups.map (filledAll fun key => (address? key).getD 0)).flatten
  address : ∀ key ip, address? key = some ip ↔
    (key, ip) ∈ labelAddresses 0 (fs.flatMap FunctionDef.lines) (groups.map groupSize)
  entries : List.Forall₂
    (fun f entry => entry.1 = f.name ∧ address? (functionKey f.name) = some entry.2)
    fs script.functions

theorem assembledAs_of_assemble {functions : List FunctionDef} {statics globals : List DataField}
    {withNames : Bool} {script : AssembledScript}
    (h : assemble functions statics globals withNames = .ok script) :
    ∃ address? groups, AssembledAs withNames (orderFunctions functions) script address? groups := by
  obtain ⟨⟨buffer, entries⟩, hfunctions, h⟩ := bind_eq_ok.mp h
  obtain ⟨code, hresolve, h⟩ := bind_eq_ok.mp h
  obtain ⟨staticSegment, _, h⟩ := bind_eq_ok.mp h
  obtain ⟨globalSegment, _, h⟩ := bind_eq_ok.mp h
  obtain rfl := Except.ok.inj h
  obtain ⟨groups, hwritten⟩ := Assemble.functions_written Written.empty hfunctions
  rw [List.nil_append, List.nil_append] at hwritten
  obtain ⟨hcode, hplaced⟩ := hwritten.holds.resolve hresolve
  obtain ⟨hrelabels, hentries⟩ := Assemble.functions_relabels hfunctions
  have hdistinct : buffer.Distinct := hrelabels.distinct List.nodup_nil
  refine ⟨buffer.address?, groups, hwritten.groups, ?_, ?_, ?_, ?_⟩
  · exact fun pieces hp p hq => hplaced p (List.mem_flatten_of_mem hp hq)
  · rw [← filledAll_flatten]
    exact hcode
  · intro key ip
    rw [← hwritten.labels]
    exact ⟨mem_of_lookup, lookup_of_mem hdistinct⟩
  · exact hentries.imp fun f entry hentry => ⟨hentry.1, lookup_of_mem hdistinct hentry.2⟩

/-! ## Parts of the lines -/

theorem labelAddresses_append {lines : List Line} {sizes : List Nat}
    (hlen : (lines.filter Line.isCode).length = sizes.length) (ip : Nat) (more : List Line)
    (moreSizes : List Nat) :
    labelAddresses ip (lines ++ more) (sizes ++ moreSizes) =
      labelAddresses ip lines sizes ++ labelAddresses (ip + sizes.sum) more moreSizes := by
  induction lines generalizing ip sizes with
  | nil =>
      obtain rfl := List.eq_nil_of_length_eq_zero hlen.symm
      rfl
  | cons line lines ih =>
      cases hline : line.isCode with
      | false =>
          obtain ⟨key, rfl⟩ := Line.eq_label hline
          rw [List.cons_append, labelAddresses, ih hlen]
          rfl
      | true =>
          rw [List.filter_cons_of_pos hline, List.length_cons] at hlen
          cases sizes with
          | nil => cases hlen
          | cons size sizes =>
              rw [List.cons_append, List.cons_append, labelAddresses_code hline,
                labelAddresses_code hline, ih (Nat.succ.inj hlen), List.sum_cons, Nat.add_assoc]

/-- What is related to two lists one after the other consists of two parts. -/
theorem forall₂_append_split {α β : Type} {R : α → β → Prop} {xs ys : List α} {zs : List β}
    (h : List.Forall₂ R (xs ++ ys) zs) :
    ∃ us vs, zs = us ++ vs ∧ List.Forall₂ R xs us ∧ List.Forall₂ R ys vs := by
  induction xs generalizing zs with
  | nil => exact ⟨[], zs, rfl, .nil, h⟩
  | cons x xs ih =>
      cases h with
      | @cons _ z _ zs hx h =>
          obtain ⟨us, vs, rfl, hus, hvs⟩ := ih h
          exact ⟨z :: us, vs, rfl, .cons hx hus, hvs⟩

end GameScript
