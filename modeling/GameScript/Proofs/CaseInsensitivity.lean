import GameScript.Proofs.LabelOperands

/-!
# Assembly does not depend on the case of names

Two texts of assembly that differ in the case of letters, at each name on its own, are assembled in
step: every comparison goes through the folded name, and every key of the label table is made of
folded names. The buffers of the two runs differ only in the names that fix-ups keep for messages,
so the runs end with the same image or with errors of the same kind. A frame opening carries a name
into the image; that operand has to be the same in both texts, and functions are assembled without
their names.
-/
namespace GameScript

/-! ## Runs that end alike -/

/-- Both runs give results, which `R` relates, or both fail with the same kind of error. -/
inductive EndsAlike {α β : Type} (R : α → β → Prop) :
    Except EncodingError α → Except EncodingError β → Prop
  | ok {a : α} {b : β} : R a b → EndsAlike R (.ok a) (.ok b)
  | error {e e' : EncodingError} : e.ctorIdx = e'.ctorIdx → EndsAlike R (.error e) (.error e')

namespace EndsAlike

variable {α β γ δ : Type} {R : α → β → Prop} {S : γ → δ → Prop}

theorem refl {x : Except EncodingError α} : EndsAlike (· = ·) x x := by
  cases x with
  | error e => exact .error rfl
  | ok a => exact .ok rfl

theorem bind {x : Except EncodingError α} {y : Except EncodingError β}
    {f : α → Except EncodingError γ} {g : β → Except EncodingError δ} (h : EndsAlike R x y)
    (hf : ∀ a b, R a b → EndsAlike S (f a) (g b)) : EndsAlike S (x >>= f) (y >>= g) := by
  cases h with
  | ok hab => exact hf _ _ hab
  | error he => exact .error he

/-- A step that has the same result in both runs. -/
theorem bindEq {x y : Except EncodingError α} {f : α → Except EncodingError γ}
    {g : α → Except EncodingError δ} (h : EndsAlike (· = ·) x y)
    (hf : ∀ a, EndsAlike S (f a) (g a)) : EndsAlike S (x >>= f) (y >>= g) :=
  h.bind fun a _ hab => hab ▸ hf a

theorem map {x : Except EncodingError α} {y : Except EncodingError β} {f : α → γ} {g : β → δ}
    (h : EndsAlike R x y) (hf : ∀ a b, R a b → S (f a) (g b)) :
    EndsAlike S (x.map f) (y.map g) :=
  h.bind fun a b hab => .ok (hf a b hab)

theorem ite {c : Prop} [Decidable c] {x x' : Except EncodingError α} {y y' : Except EncodingError β}
    (h : EndsAlike R x y) (h' : EndsAlike R x' y') :
    EndsAlike R (if c then x else x') (if c then y else y') := by
  split
  · exact h
  · exact h'

/-- A test before a result. -/
theorem test {c : Prop} [Decidable c] {a : α} {e e' : EncodingError} (he : e.ctorIdx = e'.ctorIdx) :
    EndsAlike (· = ·) (if c then .ok a else .error e) (if c then .ok a else .error e') :=
  ite (.ok rfl) (.error he)

theorem foldlM {Q : γ → δ → Prop} {xs : List γ} {ys : List δ}
    {f : α → γ → Except EncodingError α} {g : β → δ → Except EncodingError β}
    (h : List.Forall₂ Q xs ys) (hf : ∀ a b x y, R a b → Q x y → EndsAlike R (f a x) (g b y))
    {a : α} {b : β} (hab : R a b) : EndsAlike R (xs.foldlM f a) (ys.foldlM g b) := by
  induction h generalizing a b with
  | nil => exact .ok hab
  | cons hxy _ ih =>
      rw [List.foldlM_cons, List.foldlM_cons]
      exact (hf a b _ _ hab hxy).bind fun a' b' hab' => ih hab'

end EndsAlike

theorem getElem?_cases {α β : Type} {R : α → β → Prop} {xs : List α} {ys : List β}
    (h : List.Forall₂ R xs ys) (i : Nat) : (xs[i]? = none ∧ ys[i]? = none) ∨
      ∃ x y, xs[i]? = some x ∧ ys[i]? = some y ∧ R x y := by
  induction h generalizing i with
  | nil => exact .inl ⟨rfl, rfl⟩
  | @cons x y xs ys hxy _ ih =>
      cases i with
      | zero => exact .inr ⟨x, y, rfl, rfl, hxy⟩
      | succ i => exact ih i

theorem forall₂_set {α β : Type} {R : α → β → Prop} {xs : List α} {ys : List β}
    (h : List.Forall₂ R xs ys) (i : Nat) {x : α} {y : β} (hxy : R x y) :
    List.Forall₂ R (xs.set i x) (ys.set i y) := by
  induction h generalizing i with
  | nil => exact .nil
  | cons hfirst hrest ih =>
      cases i with
      | zero => exact .cons hxy hrest
      | succ i => exact .cons hfirst (ih i)

/-! ## Texts that differ in case -/

inductive Operand.Recased : Operand → Operand → Prop
  | int (value : Int) : Recased (.int value) (.int value)
  | float (value : Binary32) : Recased (.float value) (.float value)
  | text (value : String) : Recased (.text value) (.text value)
  | ident {name name' : String} : foldName name = foldName name' →
      Recased (.ident name) (.ident name')
  | case (value : Int) {label label' : String} : foldName label = foldName label' →
      Recased (.case value label) (.case value label')

/-- The same statement up to the case of its label, its mnemonic and the names in its operands,
except for the name in a frame opening. -/
structure Statement.Recased (s s' : Statement) : Prop where
  label : s.label.map foldName = s'.label.map foldName
  mnemonic : s.mnemonic.map foldName = s'.mnemonic.map foldName
  operands : List.Forall₂ Operand.Recased s.operands s'.operands
  frameName : ∀ m ∈ s.mnemonic, sameName m Opcode.enter.mnemonic = true →
    s.operands[2]? = s'.operands[2]?

structure FunctionDef.Recased (f f' : FunctionDef) : Prop where
  name : foldName f.name = foldName f'.name
  naked : f.naked = f'.naked
  args : f.args = f'.args
  locals : f.locals = f'.locals
  result : f.result = f'.result
  body : List.Forall₂ Statement.Recased f.body f'.body

/-! ## One instruction -/

/-- The same piece, except for the name that a message would show. -/
inductive Piece.Alike : Piece → Piece → Prop
  | bytes (value : Bytes) : Alike (.bytes value) (.bytes value)
  | address (key name name' : String) : Alike (.address key name) (.address key name')

theorem EndsAlike.bytes (bs : Bytes) :
    EndsAlike (List.Forall₂ Piece.Alike) (pure [.bytes bs]) (pure [.bytes bs]) :=
  .ok (.cons (.bytes bs) .nil)

theorem Op.ofMnemonic?_eq_of_foldName_eq {m m' : String} (h : foldName m = foldName m') :
    Op.ofMnemonic? m = Op.ofMnemonic? m' := by
  simp only [Op.ofMnemonic?, Opcode.ofMnemonic?, sameName, h]

theorem sameName_of_named {m : String} {o : Opcode} (h : Op.ofMnemonic? m = some (.named o)) :
    sameName m o.mnemonic = true := by
  have hfind := Opcode.ofMnemonic?_of_named h
  rw [Opcode.ofMnemonic?] at hfind
  have hsame := List.find?_some hfind
  exact beq_iff_eq.mpr (eq_of_beq hsame).symm

namespace Encode

variable {m m' : String} {ops ops' : List Operand}

theorem byteOf_alike (v : Int) : EndsAlike (· = ·) (byteOf m v) (byteOf m' v) :=
  .test rfl

theorem halfOf_alike (v : Int) : EndsAlike (· = ·) (halfOf m v) (halfOf m' v) :=
  .test rfl

theorem wordOf_alike (v : Int) : EndsAlike (· = ·) (wordOf m v) (wordOf m' v) :=
  .test rfl

theorem pushInt_alike (v : Int) : EndsAlike (· = ·) (pushInt m v) (pushInt m' v) := by
  unfold pushInt
  cases Op.push? v with
  | some op => exact .refl
  | none => exact .ite .refl ((wordOf_alike v).map fun _ _ h => h ▸ rfl)

theorem string_alike (s : String) : EndsAlike (· = ·) (string m s) (string m' s) := by
  unfold string
  dsimp only
  generalize utf8Bytes s ++ [0] = body
  generalize (body.length : Int) = n
  exact .ite .refl (((halfOf_alike n).map fun _ _ h => h ▸ rfl).bindEq fun _ => .refl)

section Operands

variable (h : List.Forall₂ Operand.Recased ops ops')
include h

theorem expectCount_alike (n : Nat) :
    EndsAlike (· = ·) (expectCount m ops n) (expectCount m' ops' n) := by
  unfold expectCount
  rw [h.length_eq]
  exact .test rfl

theorem intOperand_alike (i : Nat) :
    EndsAlike (· = ·) (intOperand m ops i) (intOperand m' ops' i) := by
  unfold intOperand
  rcases getElem?_cases h i with ⟨ho, ho'⟩ | ⟨o, o', ho, ho', hcase⟩
  · rw [ho, ho']
    exact .error rfl
  · rw [ho, ho']
    cases hcase with
    | int v => exact .ok rfl
    | _ => exact .error rfl

theorem identOperand_alike (i : Nat) :
    EndsAlike (fun a b => foldName a = foldName b) (identOperand m ops i)
      (identOperand m' ops' i) := by
  unfold identOperand
  rcases getElem?_cases h i with ⟨ho, ho'⟩ | ⟨o, o', ho, ho', hcase⟩
  · rw [ho, ho']
    exact .error rfl
  · rw [ho, ho']
    cases hcase with
    | ident hname => exact .ok hname
    | _ => exact .error rfl

theorem floatOperand_alike : EndsAlike (· = ·) (floatOperand m ops) (floatOperand m' ops') := by
  cases h with
  | nil => exact .error rfl
  | cons ho _ =>
      cases ho with
      | int v => exact .ok rfl
      | float v => exact .ok rfl
      | _ => exact .error rfl

theorem commandOperand_alike :
    EndsAlike (· = ·) (commandOperand m ops) (commandOperand m' ops') := by
  rcases h with _ | ⟨_, _ | ⟨_, _ | ⟨ho, _⟩⟩⟩
  · exact .error rfl
  · exact .error rfl
  · exact .error rfl
  · cases ho with
    | ident hname =>
        simp only [commandOperand, Identity.ofName_eq_of_foldName_eq hname]
        exact .ok rfl
    | int v => exact wordOf_alike v
    | _ => exact .error rfl

theorem nameOperand_alike (hname : ops[2]? = ops'[2]?) :
    EndsAlike (· = ·) (nameOperand m ops) (nameOperand m' ops') := by
  rcases h with _ | ⟨_, _ | ⟨_, _ | ⟨ho, _⟩⟩⟩
  · exact .ok rfl
  · exact .ok rfl
  · exact .ok rfl
  · obtain rfl := Option.some.inj hname
    cases ho with
    | text value => exact .ok rfl
    | ident _ => exact .ok rfl
    | _ => exact .error rfl

variable {key key' : String → String} (hkey : ∀ a b, foldName a = foldName b → key a = key' b)
include hkey

theorem cases_alike (i : Nat) :
    EndsAlike (List.Forall₂ Piece.Alike) (cases m key i ops) (cases m' key' i ops') := by
  induction h generalizing i with
  | nil => exact .ok .nil
  | cons ho _ ih =>
      cases ho with
      | case value hlabel =>
          refine (wordOf_alike value).bindEq fun word => (ih (i + 1)).bind fun _ _ hmore => .ok ?_
          rw [hkey _ _ hlabel]
          exact .cons (.bytes word) (.cons (.address _ _ _) hmore)
      | _ => exact .error rfl

theorem named_alike (opcode : Opcode) (hname : opcode.layout = .enter → ops[2]? = ops'[2]?) :
    EndsAlike (List.Forall₂ Piece.Alike) (named key m opcode ops) (named key' m' opcode ops') := by
  unfold named
  cases hlayout : opcode.layout with
  | none => exact (expectCount_alike h 0).bindEq fun _ => .bytes _
  | u8 =>
      refine (expectCount_alike h 1).bindEq fun _ => (intOperand_alike h 0).bindEq fun v => ?_
      exact (byteOf_alike v).bindEq fun bs => .bytes _
  | u16 =>
      refine (expectCount_alike h 1).bindEq fun _ => (intOperand_alike h 0).bindEq fun v => ?_
      exact (halfOf_alike v).bindEq fun bs => .bytes _
  | u32 =>
      refine (expectCount_alike h 1).bindEq fun _ => (intOperand_alike h 0).bindEq fun v => ?_
      exact (wordOf_alike v).bindEq fun bs => .bytes _
  | f32 =>
      refine (expectCount_alike h 1).bindEq fun _ => ?_
      exact (floatOperand_alike h).bindEq fun v => .bytes _
  | label =>
      refine (expectCount_alike h 1).bindEq fun _ => (identOperand_alike h 0).bind fun a b hab => ?_
      rw [hkey a b hab]
      exact .ok (.cons (.bytes _) (.cons (.address _ _ _) .nil))
  | function =>
      refine (expectCount_alike h 1).bindEq fun _ => (identOperand_alike h 0).bind fun a b hab => ?_
      rw [functionKey, functionKey, hab]
      exact .ok (.cons (.bytes _) (.cons (.address _ _ _) .nil))
  | native =>
      refine (expectCount_alike h 3).bindEq fun _ => (intOperand_alike h 0).bindEq fun v => ?_
      refine (byteOf_alike v).bindEq fun params => (intOperand_alike h 1).bindEq fun w => ?_
      refine (byteOf_alike w).bindEq fun results => ?_
      exact (commandOperand_alike h).bindEq fun command => .bytes _
  | enter =>
      rw [h.length_eq]
      refine .ite (.error rfl) ((intOperand_alike h 0).bindEq fun v => ?_)
      refine (byteOf_alike v).bindEq fun params => (intOperand_alike h 1).bindEq fun w => ?_
      refine (halfOf_alike w).bindEq fun frame => ?_
      exact (nameOperand_alike h (hname hlayout)).bindEq fun name => .bytes _
  | leave =>
      refine (expectCount_alike h 2).bindEq fun _ => (intOperand_alike h 0).bindEq fun v => ?_
      refine (byteOf_alike v).bindEq fun params => (intOperand_alike h 1).bindEq fun w => ?_
      exact (byteOf_alike w).bindEq fun results => .bytes _
  | switch =>
      rw [h.length_eq]
      generalize (ops'.length : Int) = n
      refine (byteOf_alike n).bindEq fun count => (cases_alike h hkey 0).bind fun _ _ hmore => ?_
      exact .ok (.cons (.bytes _) hmore)
  | string =>
      refine (expectCount_alike h 1).bindEq fun _ => ?_
      cases h with
      | nil => exact .error rfl
      | cons ho _ =>
          cases ho with
          | text value => exact (string_alike value).bindEq fun bs => .bytes _
          | _ => exact .error rfl

theorem instruction_alike (hm : foldName m = foldName m')
    (hname : sameName m Opcode.enter.mnemonic = true → ops[2]? = ops'[2]?) :
    EndsAlike (List.Forall₂ Piece.Alike) (instruction key m ops) (instruction key' m' ops') := by
  unfold instruction
  rw [← Op.ofMnemonic?_eq_of_foldName_eq hm, sameName, sameName, ← hm]
  refine .ite ((expectCount_alike h 1).bindEq fun _ => ?_) ?_
  · cases h with
    | nil => exact .error rfl
    | cons ho _ =>
        cases ho with
        | int v => exact (pushInt_alike v).bindEq fun bs => .bytes _
        | float v => exact .bytes _
        | _ => exact .error rfl
  · cases hop : Op.ofMnemonic? m with
    | none => exact .error rfl
    | some op =>
        cases op with
        | named opcode =>
            refine named_alike h hkey opcode fun hlayout => hname ?_
            exact eq_enter_of_layout hlayout ▸ sameName_of_named hop
        | push v => exact (expectCount_alike h 0).bindEq fun _ => .bytes _
        | unassigned b => exact (expectCount_alike h 0).bindEq fun _ => .bytes _

end Operands
end Encode

/-! ## Buffers -/

structure Fixup.Alike (f f' : Fixup) : Prop where
  offset : f.offset = f'.offset
  key : f.key = f'.key
  kind : f.kind = f'.kind
  nextIp : f.nextIp = f'.nextIp

/-- The same code with the same labels, waiting for the same addresses. -/
structure CodeBuffer.Alike (b b' : CodeBuffer) : Prop where
  code : b.code = b'.code
  labels : b.labels = b'.labels
  recent : List.Forall₂ Fixup.Alike b.recent b'.recent

theorem Fixup.Alike.fill {f f' : Fixup} (h : f.Alike f') (target : Nat) :
    EndsAlike (· = ·) (f.fill target) (f'.fill target) := by
  have hbase : f.base = f'.base := by rw [base, base, h.nextIp, h.offset, h.kind]
  unfold Fixup.fill
  rw [h.kind, hbase]
  cases f'.kind with
  | absolute32 => exact .test rfl
  | absolute24 => exact .test rfl
  | relative16 => exact .test rfl

namespace CodeBuffer.Alike

variable {b b' : CodeBuffer}

theorem empty : CodeBuffer.Alike {} {} := ⟨rfl, rfl, .nil⟩

theorem ip (h : b.Alike b') : b.ip = b'.ip := congrArg Array.size h.code

theorem write (h : b.Alike b') (bs : Bytes) : (b.write bs).Alike (b'.write bs) where
  code := by simp only [CodeBuffer.write, h.code]
  labels := h.labels
  recent := h.recent

theorem writeRef (h : b.Alike b') (key name name' : String) (kind : FixupKind) :
    (b.writeRef key name kind).Alike (b'.writeRef key name' kind) where
  code := by simp only [CodeBuffer.writeRef, h.code]
  labels := h.labels
  recent := .cons ⟨h.ip, rfl, rfl, rfl⟩ h.recent

theorem writePieces (h : b.Alike b') {ps ps' : List Piece} (hps : List.Forall₂ Piece.Alike ps ps') :
    (b.writePieces ps).Alike (b'.writePieces ps') := by
  induction hps generalizing b b' with
  | nil => exact h
  | cons hp _ ih =>
      cases hp with
      | bytes value => exact ih (h.write value)
      | address key name name' => exact ih (h.writeRef key name name' .absolute32)

theorem closeAll (ip : Nat) {fs fs' : List Fixup} (h : List.Forall₂ Fixup.Alike fs fs') :
    List.Forall₂ Fixup.Alike (CodeBuffer.closeAll ip fs) (CodeBuffer.closeAll ip fs') := by
  induction h with
  | nil => exact .nil
  | @cons f f' rest rest' hf hrest ih =>
      unfold CodeBuffer.closeAll
      rw [hf.nextIp]
      cases f'.nextIp with
      | some _ => exact .cons hf hrest
      | none => exact .cons ⟨hf.offset, hf.key, hf.kind, rfl⟩ ih

theorem endInstruction (h : b.Alike b') : b.endInstruction.Alike b'.endInstruction where
  code := h.code
  labels := h.labels
  recent := by
    simp only [CodeBuffer.endInstruction, h.ip]
    exact closeAll b'.ip h.recent

theorem define (h : b.Alike b') (key : String) :
    EndsAlike CodeBuffer.Alike (b.define key) (b'.define key) := by
  unfold CodeBuffer.define CodeBuffer.defineAt CodeBuffer.address?
  rw [h.labels, h.ip]
  cases b'.labels.lookup key with
  | some _ => exact .error rfl
  | none => exact .ok ⟨h.code, rfl, h.recent⟩

theorem resolve (h : b.Alike b') : EndsAlike (· = ·) b.resolve b'.resolve := by
  have hfixups : List.Forall₂ Fixup.Alike b.fixups b'.fixups :=
    List.forall₂_reverse_iff.mpr h.recent
  unfold CodeBuffer.resolve
  rw [h.code]
  refine EndsAlike.foldlM hfixups (fun code code' f f' hcode hf => ?_) rfl
  obtain rfl := hcode
  simp only [CodeBuffer.address?, h.labels, hf.key]
  cases b'.labels.lookup f'.key with
  | none => exact .error rfl
  | some target =>
      refine (hf.fill target).map fun bs _ hbs => ?_
      rw [hbs, hf.offset]

end CodeBuffer.Alike

/-! ## Functions -/

theorem ownLabels_eq_of_recased {body body' : List Statement}
    (h : List.Forall₂ Statement.Recased body body') : ownLabels body = ownLabels body' := by
  induction h with
  | nil => rfl
  | cons hs _ ih =>
      simp only [ownLabels, List.filterMap_cons, hs.label] at ih ⊢
      rw [ih]

theorem referenceKey_eq {f f' : String} (h : foldName f = foldName f') (own : List String)
    (a b : String) (hab : foldName a = foldName b) :
    referenceKey f own a = referenceKey f' own b := by
  simp only [referenceKey, labelKey, functionKey, h, hab]

namespace Assemble

theorem statement_instruction (f : String) (own : List String) (b : CodeBuffer) (m : String)
    (ops : List Operand) : statement f own b ⟨none, some m, ops⟩ =
      (Encode.instruction (referenceKey f own) m ops >>= fun pieces =>
        .ok (b.writePieces pieces).endInstruction) := rfl

theorem statement_alike {f f' : String} (hf : foldName f = foldName f') (own : List String)
    {b b' : CodeBuffer} (hb : b.Alike b') {s s' : Statement} (hs : s.Recased s') :
    EndsAlike CodeBuffer.Alike (statement f own b s) (statement f' own b' s') := by
  obtain ⟨label, mnemonic, ops⟩ := s
  obtain ⟨label', mnemonic', ops'⟩ := s'
  have hops : List.Forall₂ Operand.Recased ops ops' := hs.operands
  have hinstruction (c c' : CodeBuffer) (hc : c.Alike c') : EndsAlike CodeBuffer.Alike
      (statement f own c ⟨none, mnemonic, ops⟩) (statement f' own c' ⟨none, mnemonic', ops'⟩) := by
    rcases mnemonic with _ | m
    · obtain rfl := Option.map_eq_none_iff.mp hs.mnemonic.symm
      exact .ok hc
    · obtain ⟨m', rfl, hm⟩ := Option.map_eq_some_iff.mp hs.mnemonic.symm
      have hpieces :=
        Encode.instruction_alike hops (referenceKey_eq hf own) hm.symm (hs.frameName m rfl)
      rw [statement_instruction, statement_instruction]
      exact hpieces.bind fun pieces pieces' h => .ok (hc.writePieces h).endInstruction
  rcases label with _ | l
  · obtain rfl := Option.map_eq_none_iff.mp hs.label.symm
    exact hinstruction b b' hb
  · obtain ⟨l', rfl, hl⟩ := Option.map_eq_some_iff.mp hs.label.symm
    have hkey : labelKey f' l' = labelKey f l := by rw [labelKey, labelKey, hf, hl]
    have hdefine := hb.define (labelKey f l)
    simp only [statement, hkey]
    generalize b.define (labelKey f l) = x at hdefine ⊢
    generalize b'.define (labelKey f l) = x' at hdefine ⊢
    cases hdefine with
    | ok hc => exact hinstruction _ _ hc
    | error _ => exact .error rfl

theorem prologue_alike {f f' : FunctionDef} (h : f.Recased f') :
    EndsAlike (· = ·) (prologue f false) (prologue f' false) := by
  simp only [prologue, FunctionDef.argSlots, FunctionDef.frameSize, FunctionDef.localSlots, h.naked,
    h.args, h.locals]
  exact .refl

theorem function_alike {b b' : CodeBuffer} (hb : b.Alike b') {f f' : FunctionDef}
    (h : f.Recased f') :
    EndsAlike CodeBuffer.Alike (function false b f) (function false b' f') := by
  unfold function
  rw [functionKey, functionKey, h.name, ownLabels_eq_of_recased h.body]
  refine (hb.define _).bind fun c c' hc => (prologue_alike h).bindEq fun opening => ?_
  refine EndsAlike.foldlM h.body (fun d d' s s' hd hs => ?_) (hc.write opening).endInstruction
  exact statement_alike h.name _ hd hs

def SameEntry (e e' : String × Nat) : Prop := foldName e.1 = foldName e'.1 ∧ e.2 = e'.2

theorem functions_alike {b b' : CodeBuffer} (hb : b.Alike b') {fs fs' : List FunctionDef}
    (h : List.Forall₂ FunctionDef.Recased fs fs') :
    EndsAlike (fun r r' => r.1.Alike r'.1 ∧ List.Forall₂ SameEntry r.2 r'.2)
      (functions false b fs) (functions false b' fs') := by
  induction h generalizing b b' with
  | nil => exact .ok ⟨hb, .nil⟩
  | cons hf _ ih =>
      refine (function_alike hb hf).bind fun c c' hc => (ih hc).bind fun r r' hr => ?_
      exact .ok ⟨hr.1, .cons ⟨hf.name, hb.ip⟩ hr.2⟩

end Assemble

/-! ## Scripts -/

theorem FunctionDef.Recased.isEntry {f f' : FunctionDef} (h : f.Recased f') :
    f.isEntry = f'.isEntry := by
  rw [FunctionDef.isEntry, FunctionDef.isEntry, FunctionDef.id, FunctionDef.id,
    Identity.ofName_eq_of_foldName_eq h.name]

theorem findIdx?_isEntry_eq {fs fs' : List FunctionDef}
    (h : List.Forall₂ FunctionDef.Recased fs fs') :
    fs.findIdx? FunctionDef.isEntry = fs'.findIdx? FunctionDef.isEntry := by
  induction h with
  | nil => rfl
  | cons hf _ ih => rw [List.findIdx?_cons, List.findIdx?_cons, hf.isEntry, ih]

/-- The same function is moved to the front. -/
theorem orderFunctions_recased {fs fs' : List FunctionDef}
    (h : List.Forall₂ FunctionDef.Recased fs fs') :
    List.Forall₂ FunctionDef.Recased (orderFunctions fs) (orderFunctions fs') := by
  unfold orderFunctions
  rw [findIdx?_isEntry_eq h]
  rcases fs'.findIdx? FunctionDef.isEntry with _ | _ | i
  · exact h
  · exact h
  · cases h with
    | nil => exact .nil
    | @cons f f' rest rest' hf hrest =>
        rcases getElem?_cases hrest i with ⟨hnone, hnone'⟩ | ⟨g, g', hsome, hsome', hg⟩
        · simp only [hnone, hnone']
          exact .cons hf hrest
        · simp only [hsome, hsome']
          exact .cons hg (forall₂_set hrest i hf)

structure AssembledScript.Alike (a a' : AssembledScript) : Prop where
  code : a.code = a'.code
  statics : a.statics = a'.statics
  globals : a.globals = a'.globals
  argsCount : a.argsCount = a'.argsCount
  functions : List.Forall₂ Assemble.SameEntry a.functions a'.functions

/-- Functions that differ only in the case of names, each occurrence on its own, are assembled to
the same image or fail with the same kind of error. -/
theorem assemble_recased {fs fs' : List FunctionDef} (h : List.Forall₂ FunctionDef.Recased fs fs')
    (statics globals : List DataField) :
    EndsAlike AssembledScript.Alike (assemble fs statics globals false)
      (assemble fs' statics globals false) := by
  refine (Assemble.functions_alike .empty (orderFunctions_recased h)).bind fun r r' hr => ?_
  refine hr.1.resolve.bindEq fun code => ?_
  refine EndsAlike.refl.bindEq fun staticSegment => EndsAlike.refl.bindEq fun globalSegment => ?_
  exact .ok ⟨rfl, rfl, rfl, rfl, hr.2⟩

/-- A switch, a call and a label, in a spelling that is given. -/
def switchText (main helper top done call : String) : List FunctionDef := [
  { name := helper, body := [.op .leave [.int 0, .int 0]] },
  { name := main, body := [
    { label := some top, mnemonic := some "PUSH_CONST_5" },
    { mnemonic := some "SWITCH", operands := [.case 5 top, .case 6 done] },
    { mnemonic := some call, operands := [.ident helper] },
    { label := some done, mnemonic := some "LEAVE", operands := [.int 0, .int 0] }] }]

theorem assemble_recased_switchText :
    List.Forall₂ FunctionDef.Recased (switchText "main" "helper" "top" "done" "CALL")
        (switchText "Main" "HELPER" "Top" "DONE" "Call") ∧
      (assemble (switchText "main" "helper" "top" "done" "CALL") [] [] false).isOk = true ∧
      EndsAlike AssembledScript.Alike
        (assemble (switchText "main" "helper" "top" "done" "CALL") [] [] false)
        (assemble (switchText "Main" "HELPER" "Top" "DONE" "Call") [] [] false) := by
  have hstatement (s s' : Statement) (hlabel : s.label.map foldName = s'.label.map foldName)
      (hmnemonic : s.mnemonic.map foldName = s'.mnemonic.map foldName)
      (hops : List.Forall₂ Operand.Recased s.operands s'.operands)
      (hframe : s.operands[2]? = s'.operands[2]?) : s.Recased s' :=
    ⟨hlabel, hmnemonic, hops, fun _ _ _ => hframe⟩
  have hleave : List.Forall₂ Operand.Recased [.int 0, .int 0] [.int 0, .int 0] :=
    .cons (.int 0) (.cons (.int 0) .nil)
  have h : List.Forall₂ FunctionDef.Recased (switchText "main" "helper" "top" "done" "CALL")
      (switchText "Main" "HELPER" "Top" "DONE" "Call") := by
    refine .cons ⟨by decide +kernel, rfl, rfl, rfl, rfl, .cons ?_ .nil⟩
      (.cons ⟨by decide +kernel, rfl, rfl, rfl, rfl, .cons ?_ (.cons ?_ (.cons ?_ (.cons ?_ .nil)))⟩
        .nil)
    · exact hstatement _ _ rfl rfl hleave rfl
    · exact hstatement _ _ (by decide +kernel) rfl .nil rfl
    · exact hstatement _ _ rfl rfl
        (.cons (.case 5 (by decide +kernel)) (.cons (.case 6 (by decide +kernel)) .nil)) rfl
    · exact hstatement _ _ rfl (by decide +kernel) (.cons (.ident (by decide +kernel)) .nil) rfl
    · exact hstatement _ _ (by decide +kernel) rfl hleave rfl
  exact ⟨h, by decide +kernel, assemble_recased h [] []⟩

end GameScript
