import Mathlib.Logic.Relation
import GameScript.Proofs.AssemblyLines
import GameScript.Proofs.GeneratedLabels

/-!
# The stack of the target machine

What generated code does to the stack is described here for the assembly that is generated, apart
from how it is generated. Most instructions take a fixed number of slots and put back another.
Reading and writing many slots at once goes by a count that lies on the stack itself, so the machine
keeps the values that constants push; every other value is arbitrary. A call takes the slots of the
callee's arguments and leaves those of its result, and control may go on wherever a jump, a branch
or a switch can lead.
-/
namespace GameScript

/-- How many slots an instruction takes and leaves, when its opcode decides it. -/
def Opcode.effect? : Opcode → Option (Nat × Nat)
  | string | null => some (0, 1)
  | local0 | local1 | local2 | local3 | local4 | local5 | local6 | local7 => some (0, 1)
  | frame | static | global | load | intToFloat | ineg | fneg | inot => some (1, 1)
  | floatToVector => some (1, 3)
  | vneg => some (3, 3)
  | iadd | isub | imul | idiv | imod | ieq | ine | igt | ige | ilt | ile => some (2, 1)
  | iand | ior | ixor => some (2, 1)
  | fadd | fsub | fmul | fdiv | fmod | feq | fne | fgt | fge | flt | fle => some (2, 1)
  | vadd | vsub | vmul | vdiv => some (6, 3)
  | dup => some (1, 2)
  | drop => some (1, 0)
  | store | labelAssignString => some (2, 0)
  | storeRev => some (2, 1)
  | array => some (3, 1)
  | _ => none

/-- What a statement does to stack and control. -/
inductive Action where
  | label (name : String)
  | push (value : Int)
  /-- Take some slots, leave some others. -/
  | fixed (pops pushes : Nat)
  | loadN
  | storeN
  | copyLabel
  | call (name : String)
  | native (params results : Nat)
  | jump (label : String)
  /-- Take a slot and go on either way. -/
  | branch (label : String)
  | switch (labels : List String)
  | leave (params results : Nat)

def Operand.caseLabel? : Operand → Option String
  | case _ label => some label
  | _ => none

def Opcode.action? (o : Opcode) (operands : List Operand) : Option Action :=
  match o, operands with
  | .jump, [.ident label] => some (.jump label)
  | .jumpZero, [.ident label] => some (.branch label)
  | .switch, operands => some (.switch (operands.filterMap Operand.caseLabel?))
  | .leave, [.int params, .int results] => some (.leave params.toNat results.toNat)
  | .call, [.ident name] => some (.call name)
  | .native, [.int params, .int results, .ident _] => some (.native params.toNat results.toNat)
  | .loadN, [] => some .loadN
  | .storeN, [] => some .storeN
  | .labelCopy, [] => some .copyLabel
  | o, _ => o.effect?.map fun e => .fixed e.1 e.2

def Statement.action? (s : Statement) : Option Action :=
  match s.label, s.mnemonic with
  | some name, none => some (.label name)
  | none, some mnemonic =>
    if sameName mnemonic pushMnemonic then
      match s.operands with
      | [.int v] => some (.push v)
      | [.float _] => some (.fixed 0 1)
      | _ => none
    else
      match Op.ofMnemonic? mnemonic with
      | some (.named o) => o.action? s.operands
      | _ => none
  | _, _ => none

namespace Statement

theorem action?_mark (name : String) : (mark name).action? = some (.label name) := rfl

theorem action?_pushFloat (v : Binary32) : (push (.float v)).action? = some (.fixed 0 1) := rfl

theorem action?_op (o : Opcode) (operands : List Operand) :
    (op o operands).action? = o.action? operands := by
  simp only [action?, op, o.mnemonic_spec.1, o.mnemonic_spec.2, Bool.false_eq_true, if_false]

end Statement

def Callee (fs : List FunctionDef) (name : String) (params results : Nat) : Prop :=
  ∃ f ∈ fs, foldName f.name = foldName name ∧ f.argSlots = params ∧ f.resultSlots = results

/-- How an action that does not change the flow of control changes the stack, the top of which comes
first. -/
inductive Action.Moves (fs : List FunctionDef) : Action → List Int → List Int → Prop where
  | push {v σ} : Moves fs (.push v) σ (v :: σ)
  | fixed {a b used made σ} : used.length = a → made.length = b →
      Moves fs (.fixed a b) (used ++ σ) (made ++ σ)
  /-- The count lies below the address. -/
  | loadN {place count made σ} : (made.length : Int) = count →
      Moves fs .loadN (place :: count :: σ) (made ++ σ)
  | storeN {place count used σ} : (used.length : Int) = count →
      Moves fs .storeN (place :: count :: (used ++ σ)) σ
  /-- Below the address lie the slots of the target and those of the source. -/
  | copyLabel {place target count used σ} : (used.length : Int) = count →
      Moves fs .copyLabel (place :: target :: count :: (used ++ σ)) σ
  | call {name a b used made σ} : Callee fs name a b → used.length = a → made.length = b →
      Moves fs (.call name) (used ++ σ) (made ++ σ)
  | native {a b used made σ} : used.length = a → made.length = b →
      Moves fs (.native a b) (used ++ σ) (made ++ σ)

/-! ## Code without jumps -/

/-- Every way through the code ends with a stack in `Q`, and no instruction finds too little. -/
def Runs (fs : List FunctionDef) : List Statement → List Int → (List Int → Prop) → Prop
  | [], σ, Q => Q σ
  | s :: rest, σ, Q => ∃ act, s.action? = some act ∧ (∃ σ', act.Moves fs σ σ') ∧
      ∀ σ', act.Moves fs σ σ' → Runs fs rest σ' Q

section
variable {fs : List FunctionDef} {code code' : List Statement} {σ : List Int}

theorem Runs.mono {Q R : List Int → Prop} (h : Runs fs code σ Q) (hQ : ∀ τ, Q τ → R τ) :
    Runs fs code σ R := by
  induction code generalizing σ with
  | nil => exact hQ σ h
  | cons s code ih =>
      obtain ⟨act, hact, hcan, hall⟩ := h
      exact ⟨act, hact, hcan, fun σ' hmove => ih (hall σ' hmove)⟩

theorem Runs.append {Q : List Int → Prop} (h : Runs fs code σ fun τ => Runs fs code' τ Q) :
    Runs fs (code ++ code') σ Q := by
  induction code generalizing σ with
  | nil => exact h
  | cons s code ih =>
      obtain ⟨act, hact, hcan, hall⟩ := h
      exact ⟨act, hact, hcan, fun σ' hmove => ih (hall σ' hmove)⟩

/-- Two facts about the same code hold together of some way through it. -/
theorem Runs.exists_both {Q R : List Int → Prop} (h : Runs fs code σ Q) (h' : Runs fs code σ R) :
    ∃ τ, Q τ ∧ R τ := by
  induction code generalizing σ with
  | nil => exact ⟨σ, h, h'⟩
  | cons s code ih =>
      obtain ⟨act, hact, ⟨σ', hmove⟩, hall⟩ := h
      obtain ⟨act', hact', -, hall'⟩ := h'
      obtain rfl := Option.some.inj (hact.symm.trans hact')
      exact ih (hall σ' hmove) (hall' σ' hmove)

end

/-- Code that takes `a` slots from any stack and leaves `b` in their place. -/
def Turns (fs : List FunctionDef) (code : List Statement) (a b : Nat) : Prop :=
  ∀ used σ, used.length = a →
    Runs fs code (used ++ σ) fun τ => ∃ made, made.length = b ∧ τ = made ++ σ

namespace Turns

variable {fs : List FunctionDef} {code code' : List Statement} {a b c : Nat}

theorem nil : Turns fs [] a a := fun used _ hused => ⟨used, hused, rfl⟩

theorem append (h : Turns fs code a b) (h' : Turns fs code' b c) :
    Turns fs (code ++ code') a c := by
  intro used σ hused
  refine Runs.append ((h used σ hused).mono ?_)
  rintro τ ⟨made, hmade, rfl⟩
  exact h' made σ hmade

/-- What lies below is left alone. -/
theorem frame (n : Nat) (h : Turns fs code a b) : Turns fs code (n + a) (n + b) := by
  intro used σ hused
  have hsplit : used ++ σ = used.take a ++ (used.drop a ++ σ) := by
    rw [← List.append_assoc, List.take_append_drop]
  have htake : (used.take a).length = a := by
    rw [List.length_take]
    omega
  rw [hsplit]
  refine (h _ _ htake).mono ?_
  rintro τ ⟨made, hmade, rfl⟩
  refine ⟨made ++ used.drop a, ?_, (List.append_assoc _ _ _).symm⟩
  rw [List.length_append, List.length_drop, hmade]
  omega

/-- The same from an empty stack of its own. -/
theorem runs (h : Turns fs code 0 b) (σ : List Int) :
    Runs fs code σ fun τ => ∃ made, made.length = b ∧ τ = made ++ σ :=
  h [] σ rfl

theorem unique (h : Turns fs code 0 a) (h' : Turns fs code 0 b) : a = b := by
  obtain ⟨τ, ⟨made, hmade, heq⟩, made', hmade', heq'⟩ := (h.runs []).exists_both (h'.runs [])
  rw [← hmade, ← hmade', List.append_cancel_right (heq.symm.trans heq')]

theorem of_runs (h : ∀ σ, Runs fs code σ fun τ => ∃ made, made.length = b ∧ τ = made ++ σ) :
    Turns fs code 0 b := by
  intro used σ hused
  obtain rfl := List.eq_nil_of_length_eq_zero hused
  exact h σ

end Turns

/-! ## Single instructions -/

section
variable {fs : List FunctionDef} {s : Statement} {a b : Nat}

/-- An action that takes `a` slots and leaves `b`, whatever their values. -/
def Action.Takes (fs : List FunctionDef) (act : Action) (a b : Nat) : Prop :=
  ∀ σ σ', act.Moves fs σ σ' ↔
    ∃ used made τ, used.length = a ∧ made.length = b ∧ σ = used ++ τ ∧ σ' = made ++ τ

theorem turns_of_takes {act : Action} (hact : s.action? = some act) (h : act.Takes fs a b) :
    Turns fs [s] a b := by
  intro used σ hused
  refine ⟨act, hact, ⟨List.replicate b 0 ++ σ, ?_⟩, fun σ' hmove => ?_⟩
  · exact (h _ _).mpr ⟨used, _, σ, hused, List.length_replicate, rfl, rfl⟩
  · obtain ⟨used', made, τ, hused', hmade, heq, rfl⟩ := (h _ _).mp hmove
    obtain ⟨-, rfl⟩ := List.append_inj heq (hused.trans hused'.symm)
    exact ⟨made, hmade, rfl⟩

theorem takes_fixed : (Action.fixed a b).Takes fs a b := by
  intro σ σ'
  constructor
  · intro h
    cases h with
    | fixed hused hmade => exact ⟨_, _, _, hused, hmade, rfl, rfl⟩
  · rintro ⟨used, made, τ, hused, hmade, rfl, rfl⟩
    exact .fixed hused hmade

theorem takes_native : (Action.native a b).Takes fs a b := by
  intro σ σ'
  constructor
  · intro h
    cases h with
    | native hused hmade => exact ⟨_, _, _, hused, hmade, rfl, rfl⟩
  · rintro ⟨used, made, τ, hused, hmade, rfl, rfl⟩
    exact .native hused hmade

/-- A call of a function whose name belongs to no other. -/
theorem takes_call {name : String} (h : ∀ a' b', Callee fs name a' b' ↔ a' = a ∧ b' = b) :
    (Action.call name).Takes fs a b := by
  intro σ σ'
  constructor
  · intro hmove
    cases hmove with
    | call hcallee hused hmade =>
        obtain ⟨rfl, rfl⟩ := (h _ _).mp hcallee
        exact ⟨_, _, _, hused, hmade, rfl, rfl⟩
  · rintro ⟨used, made, τ, hused, hmade, rfl, rfl⟩
    exact .call ((h a b).mpr ⟨rfl, rfl⟩) hused hmade

/-- An opcode whose effect is given by the table. -/
theorem turns_op {o : Opcode} {operands : List Operand}
    (h : o.action? operands = some (.fixed a b)) : Turns fs [.op o operands] a b :=
  turns_of_takes ((Statement.action?_op o operands).trans h) takes_fixed

theorem turns_pushInt (v : Int) : Turns fs [.pushInt v] 0 1 := by
  refine Turns.of_runs fun σ => ⟨.push v, rfl, ⟨v :: σ, .push⟩, ?_⟩
  rintro σ' ⟨⟩
  exact ⟨[v], rfl, rfl⟩

/-- A constant is on top of the stack after it is pushed. -/
theorem runs_pushInt {v : Int} {code : List Statement} {σ : List Int} {Q : List Int → Prop}
    (h : Runs fs code (v :: σ) Q) : Runs fs (.pushInt v :: code) σ Q := by
  refine ⟨.push v, rfl, ⟨v :: σ, .push⟩, ?_⟩
  rintro σ' ⟨⟩
  exact h

/-- Reading as many slots as the count below the address says. -/
theorem runs_loadN (n : Nat) (place : Int) (σ : List Int) :
    Runs fs [.op .loadN] (place :: (n : Int) :: σ) fun τ => ∃ made, made.length = n ∧
      τ = made ++ σ := by
  have hlength : ((List.replicate n (0 : Int)).length : Int) = n := by rw [List.length_replicate]
  refine ⟨.loadN, Statement.action?_op _ _, ⟨_, .loadN hlength⟩, fun σ' hmove => ?_⟩
  cases hmove with
  | @loadN _ _ made _ hmade => exact ⟨made, Int.ofNat_inj.mp hmade, rfl⟩

/-- Writing as many slots as the count below the address says. -/
theorem runs_storeN {used : List Int} {n : Nat} (hused : used.length = n) (place : Int)
    (σ : List Int) : Runs fs [.op .storeN] (place :: (n : Int) :: (used ++ σ)) (· = σ) := by
  refine ⟨.storeN, Statement.action?_op _ _, ⟨σ, .storeN (congrArg _ hused)⟩, fun σ' hmove => ?_⟩
  generalize hrest : used ++ σ = rest at hmove
  cases hmove with
  | storeN hcount =>
      have hlength := hused.trans (Int.ofNat_inj.mp hcount).symm
      exact (List.append_inj hrest hlength).2.symm

/-- Copying a text goes by the slots of the source, which lie third. -/
theorem runs_copyLabel {used : List Int} {n : Nat} (hused : used.length = n) (place target : Int)
    (σ : List Int) :
    Runs fs [.op .labelCopy] (place :: target :: (n : Int) :: (used ++ σ)) (· = σ) := by
  refine ⟨.copyLabel, Statement.action?_op _ _, ⟨σ, .copyLabel (congrArg _ hused)⟩,
    fun σ' hmove => ?_⟩
  generalize hrest : used ++ σ = rest at hmove
  cases hmove with
  | copyLabel hcount =>
      have hlength := hused.trans (Int.ofNat_inj.mp hcount).symm
      exact (List.append_inj hrest hlength).2.symm

end

/-! ## Runs through the code of a function -/

structure Config where
  rest : List Statement
  stack : List Int

/-- Where a jump to a label goes: to the mark of that name, if there is exactly one. -/
def LabelAt (code : List Statement) (label : String) (dest : List Statement) : Prop :=
  ∃ before name after, code = before ++ .mark name :: after ∧ dest = .mark name :: after ∧
    foldName name = foldName label ∧
    ∀ other ∈ Lowering.codeLabels (before ++ after), foldName other ≠ foldName label

/-- Where control can be after an action in a run of `f`, where `rest` comes next in the code.
Branches and switches may go every way, whatever the value they take. -/
inductive Action.Goes (fs : List FunctionDef) (f : FunctionDef) (rest : List Statement) :
    Action → List Int → Config → Prop where
  | move {act σ σ'} : act.Moves fs σ σ' → Goes fs f rest act σ ⟨rest, σ'⟩
  | label {name σ} : Goes fs f rest (.label name) σ ⟨rest, σ⟩
  | jump {label dest σ} : LabelAt f.body label dest → Goes fs f rest (.jump label) σ ⟨dest, σ⟩
  | branchPast {label v σ} : Goes fs f rest (.branch label) (v :: σ) ⟨rest, σ⟩
  | branchTo {label dest v σ} : LabelAt f.body label dest →
      Goes fs f rest (.branch label) (v :: σ) ⟨dest, σ⟩
  | switchPast {labels v σ} : Goes fs f rest (.switch labels) (v :: σ) ⟨rest, σ⟩
  | switchTo {labels label dest v σ} : label ∈ labels → LabelAt f.body label dest →
      Goes fs f rest (.switch labels) (v :: σ) ⟨dest, σ⟩

inductive Step (fs : List FunctionDef) (f : FunctionDef) : Config → Config → Prop where
  | next {s act rest σ c} : s.action? = some act → act.Goes fs f rest σ c →
      Step fs f ⟨s :: rest, σ⟩ c

/-- What an action has to find on the stack of a function `f`: nothing at labels and jumps, only the
value to decide by at a branch or a switch, the result and nothing else when the function is left,
and enough everywhere else. -/
def Action.Fits (fs : List FunctionDef) (f : FunctionDef) (act : Action) (σ : List Int) : Prop :=
  match act with
  | .label _ | .jump _ => σ = []
  | .branch _ | .switch _ => σ.length = 1
  | .leave params results =>
      params = f.argSlots ∧ results = f.resultSlots ∧ σ.length = f.resultSlots
  | act => ∃ σ', act.Moves fs σ σ'

/-- The next statement exists and finds on the stack what it needs. -/
def Safe (fs : List FunctionDef) (f : FunctionDef) : Config → Prop
  | ⟨[], _⟩ => False
  | ⟨s :: _, σ⟩ => ∃ act, s.action? = some act ∧ act.Fits fs f σ

theorem Action.Moves.fits {fs : List FunctionDef} {f : FunctionDef} {act : Action} {σ σ' : List Int}
    (h : act.Moves fs σ σ') : act.Fits fs f σ := by
  cases h with
  | push => exact ⟨_, .push⟩
  | fixed hused hmade => exact ⟨_, .fixed hused hmade⟩
  | loadN hmade => exact ⟨_, .loadN hmade⟩
  | storeN hused => exact ⟨_, .storeN hused⟩
  | copyLabel hused => exact ⟨_, .copyLabel hused⟩
  | call hcallee hused hmade => exact ⟨_, .call hcallee hused hmade⟩
  | native hused hmade => exact ⟨_, .native hused hmade⟩

/-- A mark that the code has is the place that its name leads to. -/
theorem LabelAt.eq {before after dest : List Statement} {name label : String}
    (h : LabelAt (before ++ .mark name :: after) label dest)
    (hname : foldName name = foldName label) :
    dest = .mark name :: after := by
  obtain ⟨before', name', after', hcode, rfl, -, hother⟩ := h
  simp only [Lowering.codeLabels_append, List.mem_append] at hother
  -- Another mark of this name would lie before or after the only one.
  rcases List.append_eq_append_iff.mp hcode with ⟨mid, hbefore, hrest⟩ | ⟨mid, hbefore, hrest⟩
  · cases mid with
    | nil => exact hrest.symm
    | cons s mid =>
        obtain ⟨rfl, -⟩ := List.cons.inj hrest
        refine absurd hname (hother name (.inl ?_))
        rw [hbefore, Lowering.codeLabels_append, Lowering.codeLabels_mark]
        exact List.mem_append_right _ List.mem_cons_self
  · cases mid with
    | nil => exact hrest
    | cons s mid =>
        obtain ⟨rfl, hafter⟩ := List.cons.inj (hrest.trans List.cons_append)
        refine absurd hname (hother name (.inr ?_))
        rw [hafter, Lowering.codeLabels_append, Lowering.codeLabels_mark]
        exact List.mem_append_right _ List.mem_cons_self

/-! ## Runs of bounded length -/

/-- No run of at most `n` steps from here meets a statement that does not find what it needs. -/
def SafeFor (fs : List FunctionDef) (f : FunctionDef) : Nat → Config → Prop
  | 0, c => Safe fs f c
  | n + 1, c => Safe fs f c ∧ ∀ c', Step fs f c c' → SafeFor fs f n c'

namespace SafeFor

variable {fs : List FunctionDef} {f : FunctionDef} {n m : Nat} {c : Config}

theorem safe (h : SafeFor fs f n c) : Safe fs f c := by
  cases n with
  | zero => exact h
  | succ n => exact h.1

theorem mono (h : SafeFor fs f n c) (hm : m ≤ n) : SafeFor fs f m c := by
  induction m generalizing n c with
  | zero => exact h.safe
  | succ m ih =>
      cases n with
      | zero => omega
      | succ n => exact ⟨h.1, fun c' hstep => ih (h.2 c' hstep) (by omega)⟩

theorem intro {s : Statement} {act : Action} {rest : List Statement} {σ : List Int}
    (hact : s.action? = some act) (hfits : act.Fits fs f σ)
    (hgoes : ∀ m < n, ∀ c, act.Goes fs f rest σ c → SafeFor fs f m c) :
    SafeFor fs f n ⟨s :: rest, σ⟩ := by
  cases n with
  | zero => exact ⟨act, hact, hfits⟩
  | succ n =>
      refine ⟨⟨act, hact, hfits⟩, fun c' hstep => ?_⟩
      cases hstep with
      | next hact' hnext =>
          obtain rfl := Option.some.inj (hact.symm.trans hact')
          exact hgoes n (Nat.lt_succ_self n) c' hnext

/-- Runs of every length are safe if they all are. -/
theorem reachable (h : ∀ n, SafeFor fs f n c) {c' : Config}
    (hreach : Relation.ReflTransGen (Step fs f) c c') : Safe fs f c' := by
  induction hreach using Relation.ReflTransGen.head_induction_on with
  | refl => exact h 0
  | head hstep _ ih => exact ih fun n => (h (n + 1)).2 _ hstep

/-- Code without jumps comes before what is safe afterwards. -/
theorem of_runs {code rest : List Statement} {σ : List Int}
    (h : Runs fs code σ fun τ => SafeFor fs f n ⟨rest, τ⟩) :
    SafeFor fs f n ⟨code ++ rest, σ⟩ := by
  induction code generalizing σ with
  | nil => exact h
  | cons s code ih =>
      obtain ⟨act, hact, ⟨σ₁, hmove₁⟩, hall⟩ := h
      refine intro hact hmove₁.fits fun m hm c' hnext => ?_
      cases hnext with
      | move hmove => exact (ih (hall _ hmove)).mono (Nat.le_of_lt hm)
      | label | jump | branchPast | branchTo | switchPast | switchTo => cases hmove₁

end SafeFor
end GameScript
