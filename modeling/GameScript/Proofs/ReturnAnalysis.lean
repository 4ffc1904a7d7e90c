import Mathlib.Logic.Relation
import GameScript.Proofs.ControlFlow

/-!
# The end of code that returns

Whether a body returns on every path is judged by its last statement alone, although control can go
from anywhere to any label. This is sound for the generated code: the end of code that is judged to
return has no predecessor in the control-flow graph. The statement before the end does not go on, or
it is a generated label, to which only the ends of parts jump that are judged to return themselves.
Labels of the script lie inside of the parts and never at such an end. What is on the stack plays no
role here.
-/
namespace GameScript

/-! ## The control-flow graph -/

def Operand.label? : Operand → Option String
  | .ident label | .case _ label => some label
  | _ => none

namespace Statement

def opcode? (s : Statement) : Option Opcode :=
  match s.mnemonic.bind Op.ofMnemonic? with
  | some (.named o) => some o
  | _ => none

def jumpLabels (s : Statement) : List String :=
  match s.opcode? with
  | some .jump | some .jumpZero | some .jumpNonzero | some .switch =>
      s.operands.filterMap Operand.label?
  | _ => []

def continues (s : Statement) : Bool :=
  match s.opcode? with
  | some .jump | some .leave => false
  | _ => true

def isLeave (s : Statement) : Bool := decide (s.opcode? = some .leave)

@[simp] theorem opcode?_op (o : Opcode) (operands : List Operand) :
    (op o operands).opcode? = some o := by
  rw [opcode?, op, Option.bind_some, o.mnemonic_spec.1]

@[simp] theorem opcode?_push (value : Operand) : (push value).opcode? = none := by
  rw [opcode?, push, Option.bind_some, ofMnemonic?_pushMnemonic]

@[simp] theorem opcode?_mark (label : String) : (mark label).opcode? = none := rfl

end Statement

def StandsAt (code : List Statement) (label : String) (j : Nat) : Prop :=
  ∃ s : Statement, code[j]? = some s ∧ ∃ name, s.label = some name ∧ foldName name = foldName label

/-- Control can go from the `i`-th statement of the code to another. -/
inductive Goes (code : List Statement) (i : Nat) : Nat → Prop where
  | next {s} : code[i]? = some s → s.continues = true → Goes code i (i + 1)
  | jump {s label j} : code[i]? = some s → label ∈ s.jumpLabels → StandsAt code label j →
      Goes code i j

/-- Control can come to the `i`-th statement from the first. -/
def Reached (code : List Statement) (i : Nat) : Prop := Relation.ReflTransGen (Goes code) 0 i

/-! ## Ends without a predecessor -/

/-- Control does not run over the end of `front`, which `whole` begins with. -/
structure Stops (whole front : List Statement) : Prop where
  nonempty : front ≠ []
  last : ∀ i s, i + 1 = front.length → Reached whole i → whole[i]? = some s → s.continues = false

section
variable {whole front rest : List Statement} {s : Statement}

/-- Only a jump leads to where code stops. -/
theorem Stops.not_reached (h : Stops whole front) (hwhole : whole = front ++ s :: rest)
    (hjumps : ∀ name, s.label = some name → ∀ i t, Reached whole i → whole[i]? = some t →
      ∀ label ∈ t.jumpLabels, foldName name ≠ foldName label) : ¬ Reached whole front.length := by
  have hs : whole[front.length]? = some s := by
    rw [hwhole, List.getElem?_append_right (Nat.le_refl _), Nat.sub_self]
    rfl
  intro hreached
  rcases Relation.ReflTransGen.cases_tail hreached with hzero | ⟨i, hi, hgoes⟩
  · exact h.nonempty (List.eq_nil_of_length_eq_zero hzero)
  · generalize hplace : front.length = place at hgoes hs
    cases hgoes with
    | next hget hcontinues =>
        rw [h.last i _ hplace.symm hi hget] at hcontinues
        cases hcontinues
    | jump hget hlabel htarget =>
        obtain ⟨t, ht, name, hname, hsame⟩ := htarget
        obtain rfl := Option.some.inj (hs.symm.trans ht)
        exact hjumps name hname i _ hi hget _ hlabel hsame

/-- Nothing lies behind the end of the code to which control could jump. -/
theorem Stops.not_reached_length (h : Stops whole whole) : ¬ Reached whole whole.length := by
  intro hreached
  rcases Relation.ReflTransGen.cases_tail hreached with hzero | ⟨i, hi, hgoes⟩
  · exact h.nonempty (List.eq_nil_of_length_eq_zero hzero)
  · generalize hplace : whole.length = place at hgoes
    cases hgoes with
    | next hget hcontinues =>
        rw [h.last i _ hplace.symm hi hget] at hcontinues
        cases hcontinues
    | jump _ _ htarget =>
        obtain ⟨t, ht, -⟩ := htarget
        rw [← hplace, List.getElem?_length] at ht
        cases ht

/-- What is never reached is not run past either. -/
theorem Stops.of_not_reached (h : ¬ Reached whole front.length) : Stops whole (front ++ [s]) := by
  refine ⟨by simp, fun i t hi hreached => absurd hreached ?_⟩
  rw [List.length_append, List.length_singleton] at hi
  rwa [Nat.add_right_cancel hi]

theorem Stops.of_last (hwhole : whole = front ++ s :: rest) (hs : s.continues = false) :
    Stops whole (front ++ [s]) := by
  refine ⟨by simp, fun i t hi _ hget => ?_⟩
  rw [List.length_append, List.length_singleton] at hi
  rw [hwhole, Nat.add_right_cancel hi, List.getElem?_append_right (Nat.le_refl _), Nat.sub_self]
    at hget
  obtain rfl := Option.some.inj hget
  exact hs

theorem getElem?_append_cases {i : Nat} (h : (front ++ rest)[i]? = some s) :
    front[i]? = some s ∨ ∃ k, i = front.length + k ∧ rest[k]? = some s := by
  by_cases hi : i < front.length
  · rw [List.getElem?_append_left hi] at h
    exact .inl h
  · rw [List.getElem?_append_right (by omega)] at h
    exact .inr ⟨_, by omega, h⟩

end

/-! ## Numbers of generated labels that code jumps to -/

namespace Lowering

open Statement (op pushInt mark)

/-- Generated labels that the code jumps to have numbers in `P`. -/
def JumpsIn (P : Nat → Prop) (code : List Statement) : Prop :=
  ∀ s ∈ code, ∀ label ∈ s.jumpLabels, ∀ kind k, foldName label = foldName (freshLabel kind k) → P k

section
variable {Γ : TypingEnv} {P Q : Nat → Prop} {code code' : List Statement}

theorem JumpsIn.mono (h : JumpsIn P code) (hPQ : ∀ k, P k → Q k) : JumpsIn Q code :=
  fun s hs label hlabel kind k hk => hPQ k (h s hs label hlabel kind k hk)

@[simp] theorem jumpsIn_nil : JumpsIn P [] := fun _ hs => absurd hs List.not_mem_nil

@[simp] theorem jumpsIn_append : JumpsIn P (code ++ code') ↔ JumpsIn P code ∧ JumpsIn P code' :=
  List.forall_mem_append

theorem jumpsIn_cons {s : Statement} : JumpsIn P (s :: code) ↔
    (∀ label ∈ s.jumpLabels, ∀ kind k, foldName label = foldName (freshLabel kind k) → P k) ∧
      JumpsIn P code :=
  List.forall_mem_cons

@[simp] theorem jumpsIn_mark {label : String} : JumpsIn P (mark label :: code) ↔
    JumpsIn P code := by
  rw [jumpsIn_cons]
  exact and_iff_right fun _ hlabel => absurd hlabel List.not_mem_nil

theorem jumpLabels_jumpTo {o : Opcode} (ho : o.layout = .label) (label : String) :
    (jumpTo o label).jumpLabels = [label] := by
  rw [jumpTo, Statement.jumpLabels, Statement.opcode?_op]
  cases o <;> first | rfl | cases ho

/-- A jump to a generated label. -/
theorem jumpsIn_jumpTo {o : Opcode} (ho : o.layout = .label) {kind : String} {n : Nat} (hn : P n) :
    JumpsIn P (jumpTo o (freshLabel kind n) :: code) ↔ JumpsIn P code := by
  rw [jumpsIn_cons, jumpLabels_jumpTo ho]
  refine and_iff_right fun label hlabel kind' k hk => ?_
  rw [List.mem_singleton.mp hlabel] at hk
  exact freshLabel_number hk ▸ hn

theorem jumpLabels_of_plain {s : Statement} (h : s.Plain Γ) : s.jumpLabels = [] := by
  unfold Statement.jumpLabels
  cases h with
  | @op o hlayout =>
      rw [Statement.opcode?_op]
      cases o <;> rfl
  | pushInt => rw [Statement.pushInt, Statement.opcode?_push]
  | pushFloat => rw [Statement.opcode?_push]
  | string | call | native | assignString => rw [Statement.opcode?_op]

theorem PlainCode.jumpsIn (h : PlainCode Γ code) : JumpsIn P code := by
  intro s hs label hlabel
  rw [jumpLabels_of_plain (h s hs)] at hlabel
  exact absurd hlabel List.not_mem_nil

@[simp] theorem jumpsIn_leave {info : BodyInfo} : JumpsIn P (info.leave :: code) ↔
    JumpsIn P code := by
  rw [jumpsIn_cons, BodyInfo.leave, Statement.jumpLabels, Statement.opcode?_op]
  exact and_iff_right fun _ hlabel => absurd hlabel List.not_mem_nil

theorem foldName_ne_freshLabel {name : String} (h : '$' ∉ name.toList) (kind : String) (k : Nat) :
    foldName name ≠ foldName (freshLabel kind k) := by
  intro heq
  apply h
  apply mem_of_mem_foldName rfl
  rw [heq, toList_foldName_freshLabel]
  exact List.mem_cons_self

theorem target_of_jumpLabel {target : String → Prop} {s : Statement} (hs : s.Generated Γ target)
    {label : String} (h : label ∈ s.jumpLabels) : target label := by
  cases hs with
  | plain hs =>
      rw [jumpLabels_of_plain hs] at h
      exact absurd h List.not_mem_nil
  | mark => exact absurd h List.not_mem_nil
  | jump ho htarget =>
      rw [jumpLabels_jumpTo ho] at h
      exact List.mem_singleton.mp h ▸ htarget
  | switch hcases =>
      rw [Statement.jumpLabels, Statement.opcode?_op] at h
      obtain ⟨x, hx, hlabel⟩ := List.mem_filterMap.mp h
      obtain ⟨v, label', rfl, htarget⟩ := hcases x hx
      exact Option.some.inj hlabel ▸ htarget
  | leave =>
      rw [Statement.jumpLabels, Statement.opcode?_op] at h
      exact absurd h List.not_mem_nil

def NoDollar (names : List String) : Prop := ∀ name ∈ names, '$' ∉ name.toList

theorem Emits.jumpsIn {target : String → Prop} {names : List String} {fresh : List Fresh}
    (h : Emits Γ target names fresh code) (hnames : NoDollar names)
    (htarget : ∀ label, target label → ∀ kind k, foldName label = foldName (freshLabel kind k) →
      P k)
    (hfresh : ∀ p ∈ fresh, P p.2) : JumpsIn P code := by
  intro s hs label hlabel kind k hk
  rcases target_of_jumpLabel (h.forms s hs) hlabel with hown | hother
  · rcases List.mem_append.mp (h.labels.mem_iff.mp hown) with hname | hlabel
    · exact absurd hk (foldName_ne_freshLabel (hnames label hname) kind k)
    · obtain ⟨p, hp, rfl⟩ := List.mem_map.mp hlabel
      exact freshLabel_number hk ▸ hfresh p hp
  · exact htarget label hother kind k hk

theorem EmitsFrom.jumpsIn {labels names : List String} {n n' : Nat}
    (h : EmitsFrom Γ (· ∈ labels) names n n' code) (hlabels : NoDollar labels)
    (hnames : NoDollar names) :
    n ≤ n' ∧ JumpsIn (fun k => n ≤ k ∧ k < n') code := by
  obtain ⟨fresh, hfresh, hemits⟩ := h
  refine ⟨hfresh.le, hemits.jumpsIn hnames (fun label hlabel kind k hk => ?_) hfresh.range⟩
  exact absurd hk (foldName_ne_freshLabel (hlabels label hlabel) kind k)

end

/-! ## Code that is judged to return -/

/-- Where code with generated labels from `n` up to but without `n'` stands. Nothing around it jumps
to these. -/
structure Within (whole before code post : List Statement) (n n' : Nat) : Prop where
  eq : whole = before ++ code ++ post
  before : JumpsIn (fun k => k < n ∨ n' ≤ k) before
  post : JumpsIn (fun k => k < n ∨ n' ≤ k) post

section
variable {Γ : TypingEnv} {info : BodyInfo} {result : Option Ty} {labels : List String}

theorem block_jumpsIn (hlayout : info.layout.Covers Γ) (hlabels : NoDollar labels)
    {body : List TypedStmt} (hbody : ∀ s ∈ body, s.WellTyped Γ result labels)
    (hnames : NoDollar (TypedStmt.blockLabels body)) {n n' : Nat} {code : List Statement}
    (h : LoweredBlock info body n code n') :
    n ≤ n' ∧ JumpsIn (fun k => n ≤ k ∧ k < n') code :=
  (block_emits hlayout body hbody h).jumpsIn hlabels hnames

/-- The bodies of cases jump to `done` besides. -/
theorem cases_jumpsIn (hlayout : info.layout.Covers Γ) (hlabels : NoDollar labels)
    {cases : List TypedCase} (hcases : ∀ c ∈ cases, ∀ s ∈ c.body, s.WellTyped Γ result labels)
    (hnames : NoDollar (TypedStmt.caseLabels cases)) {kind : String} {done i n n' : Nat}
    {bodies : List Statement} (h : LoweredCases info (freshLabel kind done) i cases n bodies n') :
    n ≤ n' ∧ JumpsIn (fun k => k = done ∨ (i ≤ k ∧ k < i + cases.length) ∨ (n ≤ k ∧ k < n'))
      bodies := by
  obtain ⟨fresh, inner, hinner, hperm, hemits⟩ := cases_emits hlayout cases hcases h
  refine ⟨hinner.le, hemits.jumpsIn hnames (fun label hlabel kind' k hk => ?_) fun p hp => ?_⟩
  · rcases hlabel with hlabel | hlabel
    · rw [List.mem_singleton.mp hlabel] at hk
      exact .inl (freshLabel_number hk).symm
    · exact absurd hk (foldName_ne_freshLabel (hlabels label hlabel) kind' k)
  · rcases List.mem_append.mp (hperm.mem_iff.mp hp) with hp | hp
    · exact .inr (.inl ((numbered_caseNumbers i cases.length).range p hp))
    · exact .inr (.inr (hinner.range p hp))

theorem switch_jumpsIn (i : Nat) (cases : List TypedCase) :
    JumpsIn (fun k => i ≤ k ∧ k < i + cases.length) [op .switch (caseOperands i cases)] := by
  intro s hs label hlabel kind k hk
  rw [List.mem_singleton.mp hs, Statement.jumpLabels, Statement.opcode?_op] at hlabel
  obtain ⟨x, hx, hxlabel⟩ := List.mem_filterMap.mp hlabel
  obtain ⟨v, label', rfl, hcase⟩ := caseOperands_targets i cases x hx
  obtain rfl := Option.some.inj hxlabel
  obtain ⟨p, hp, rfl⟩ := List.mem_map.mp hcase
  exact freshLabel_number hk ▸ (numbered_caseNumbers i cases.length).range p hp

end

/-- Code that jumps elsewhere. -/
theorem JumpsIn.ne {code : List Statement} {n : Nat} (h : JumpsIn (· ≠ n) code) {s : Statement}
    (hs : s ∈ code) (kind : String) : ∀ label ∈ s.jumpLabels, foldName (freshLabel kind n) ≠
      foldName label :=
  fun label hlabel heq => h s hs label hlabel kind n heq.symm rfl

section
variable {whole before code post : List Statement} {n n₁ n' : Nat}

/-- Code that nothing but jumps leads to the end of, wherever it stands in `whole`. -/
structure Returns (whole code : List Statement) (n n' : Nat) : Prop where
  le : n ≤ n'
  jumps : JumpsIn (fun k => n ≤ k ∧ k < n') code
  stops : ∀ before post, Within whole before code post n n' → Stops whole (before ++ code)

/-- A last part and the label at the end of all parts, to which no reached statement before that
part jumps. -/
theorem stops_endLabel {head last : List Statement} {kind : String}
    (hlast : Returns whole last n₁ n') (hn : n < n₁)
    (hwhole : whole = head ++ last ++ mark (freshLabel kind n) :: post)
    (hhead : JumpsIn (fun k => k < n₁ ∨ n' ≤ k) head)
    (hpost : JumpsIn (fun k => k < n ∨ n' ≤ k) post) (hunreached : ∀ i s, head[i]? = some s →
      Reached whole i → ∀ label ∈ s.jumpLabels, foldName (freshLabel kind n) ≠ foldName label) :
    Stops whole (head ++ last ++ [mark (freshLabel kind n)]) := by
  have hle := hlast.le
  apply Stops.of_not_reached
  refine (hlast.stops head _ ⟨hwhole, hhead, ?_⟩).not_reached hwhole
    fun name hname i t hreached ht => ?_
  · rw [jumpsIn_mark]
    exact hpost.mono fun k hk => by omega
  · obtain rfl := Option.some.inj hname
    have hother : JumpsIn (· ≠ n) last := hlast.jumps.mono fun k hk => by omega
    have hother' : JumpsIn (· ≠ n) (mark (freshLabel kind n) :: post) :=
      jumpsIn_mark.mpr (hpost.mono fun k hk => by omega)
    rw [hwhole] at ht
    rcases getElem?_append_cases ht with hearly | ⟨k, -, hlate⟩
    · rcases getElem?_append_cases hearly with hfront | ⟨k, -, hpart⟩
      · exact hunreached i t hfront hreached
      · exact hother.ne (List.mem_of_getElem? hpart) kind
    · exact hother'.ne (List.mem_of_getElem? hlate) kind

/-- The label at the end is jumped to only from the end of the first part, which is not reached. -/
theorem stops_ifElse {test first second : List Statement} (htest : ∀ P, JumpsIn P test)
    (hfirst : Returns whole first (n + 2) n₁) (hsecond : Returns whole second n₁ n')
    (hwithin : Within whole before
      (test ++ [jumpTo .jumpZero (freshLabel "if_else" (n + 1))] ++ first ++
        [jumpTo .jump (freshLabel "if_end" n), mark (freshLabel "if_else" (n + 1))] ++ second ++
        [mark (freshLabel "if_end" n)]) post n n') :
    Stops whole (before ++ (test ++ [jumpTo .jumpZero (freshLabel "if_else" (n + 1))] ++ first ++
        [jumpTo .jump (freshLabel "if_end" n), mark (freshLabel "if_else" (n + 1))] ++ second ++
        [mark (freshLabel "if_end" n)])) := by
  have hle := hfirst.le
  have hle' := hsecond.le
  let front := before ++ test ++ [jumpTo .jumpZero (freshLabel "if_else" (n + 1))]
  let rear :=
    mark (freshLabel "if_else" (n + 1)) :: (second ++ mark (freshLabel "if_end" n) :: post)
  have hwhole : whole = front ++ first ++ jumpTo .jump (freshLabel "if_end" n) :: rear := by
    rw [hwithin.eq]
    simp only [front, rear, List.append_assoc, List.cons_append, List.nil_append]
  have hfront (P : Nat → Prop) (hP : ∀ k, k < n ∨ n' ≤ k → P k) (hn : P (n + 1)) :
      JumpsIn P front := by
    simp only [front, jumpsIn_append, jumpsIn_jumpTo (o := .jumpZero) rfl hn, jumpsIn_nil, and_true]
    exact ⟨hwithin.before.mono hP, htest P⟩
  have hfirstEnd : ¬ Reached whole (front ++ first).length := by
    refine (hfirst.stops front _ ⟨hwhole, ?_, ?_⟩).not_reached hwhole fun name hname =>
      nomatch hname
    · exact hfront _ (fun k hk => by omega) (by omega)
    · rw [jumpsIn_jumpTo rfl (by omega), jumpsIn_mark, jumpsIn_append, jumpsIn_mark]
      exact ⟨hsecond.jumps.mono fun k hk => by omega, hwithin.post.mono fun k hk => by omega⟩
  have hsplit : whole = (front ++ first ++ [jumpTo .jump (freshLabel "if_end" n),
      mark (freshLabel "if_else" (n + 1))]) ++ second ++ mark (freshLabel "if_end" n) :: post := by
    rw [hwhole]
    simp only [rear, List.append_assoc, List.cons_append, List.nil_append]
  have hend := stops_endLabel hsecond (by omega) hsplit ?_ hwithin.post ?_
  · simp only [front, List.append_assoc] at hend ⊢
    exact hend
  · rw [jumpsIn_append, jumpsIn_append, jumpsIn_jumpTo rfl (by omega), jumpsIn_mark]
    exact ⟨⟨hfront _ (fun k hk => by omega) (by omega), hfirst.jumps.mono fun k hk => by omega⟩,
      jumpsIn_nil⟩
  · intro i t ht hreached
    have hother : JumpsIn (· ≠ n) (front ++ first) :=
      jumpsIn_append.mpr
        ⟨hfront _ (fun k hk => by omega) (by omega), hfirst.jumps.mono fun k hk => by omega⟩
    have hother' : JumpsIn (· ≠ n) [mark (freshLabel "if_else" (n + 1))] :=
      jumpsIn_mark.mpr jumpsIn_nil
    rcases getElem?_append_cases ht with hearly | ⟨k, rfl, hlate⟩
    · exact hother.ne (List.mem_of_getElem? hearly) "if_end"
    · cases k with
      | zero => exact absurd hreached hfirstEnd
      | succ k => exact hother'.ne (List.mem_of_getElem? hlate) "if_end"

/-- Bodies of cases of which no jump to the end of the switch is reached. -/
structure CasesReturn (whole bodies : List Statement) (done i count n n' : Nat) : Prop where
  le : n ≤ n'
  jumps : JumpsIn (fun k => k = done ∨ (i ≤ k ∧ k < i + count) ∨ (n ≤ k ∧ k < n')) bodies
  unreached : ∀ before post, Within whole before bodies post n n' → ∀ k s, bodies[k]? = some s →
    ∀ label ∈ s.jumpLabels, foldName (freshLabel "switch_end" done) = foldName label →
      ¬ Reached whole (before.length + k)

/-- Control does not come from the first body to the jump after it. -/
theorem unreached_cons {first more : List Statement} {done i count : Nat} (hdone : done < i)
    (hi : i + 1 + count ≤ n) (hfirst : Returns whole first n n₁)
    (hmore : CasesReturn whole more done (i + 1) count n₁ n') {before post : List Statement}
    (hwithin : Within whole before ([mark (freshLabel "case" i)] ++ first ++
      [jumpTo .jump (freshLabel "switch_end" done)] ++ more) post n n') {k : Nat} {s : Statement}
    (hs : ([mark (freshLabel "case" i)] ++ first ++
      [jumpTo .jump (freshLabel "switch_end" done)] ++ more)[k]? = some s) :
    ∀ label ∈ s.jumpLabels, foldName (freshLabel "switch_end" done) = foldName label →
      ¬ Reached whole (before.length + k) := by
  intro label hlabel hsame
  have hle := hfirst.le
  have hle' := hmore.le
  let head := before ++ [mark (freshLabel "case" i)]
  have hwhole : whole = head ++ first ++ jumpTo .jump (freshLabel "switch_end" done) ::
      (more ++ post) := by
    rw [hwithin.eq]
    simp only [head, List.append_assoc, List.cons_append, List.nil_append]
  have hhead : ∀ P : Nat → Prop, (∀ k, k < n ∨ n' ≤ k → P k) → JumpsIn P head := by
    intro P hP
    rw [jumpsIn_append, jumpsIn_mark]
    exact ⟨hwithin.before.mono hP, jumpsIn_nil⟩
  have hfirstEnd : ¬ Reached whole (head ++ first).length := by
    refine (hfirst.stops head _ ⟨hwhole, ?_, ?_⟩).not_reached hwhole fun name hname => nomatch hname
    · exact hhead _ fun k hk => by omega
    · rw [jumpsIn_jumpTo rfl (by omega), jumpsIn_append]
      exact ⟨hmore.jumps.mono fun k hk => by omega, hwithin.post.mono fun k hk => by omega⟩
  have hsplit :
      whole = (head ++ first ++ [jumpTo .jump (freshLabel "switch_end" done)]) ++ more ++ post := by
    rw [hwhole]
    simp only [List.append_assoc, List.cons_append, List.nil_append]
  rcases getElem?_append_cases hs with hearly | ⟨j, rfl, hlate⟩
  · rcases getElem?_append_cases hearly with hbody | ⟨j, rfl, hjump⟩
    · have hother : JumpsIn (· ≠ done) ([mark (freshLabel "case" i)] ++ first) := by
        rw [jumpsIn_append, jumpsIn_mark]
        exact ⟨jumpsIn_nil, hfirst.jumps.mono fun k hk => by omega⟩
      exact absurd hsame (hother.ne (List.mem_of_getElem? hbody) "switch_end" label hlabel)
    · have hzero := (List.getElem?_eq_some_iff.mp hjump).1
      rw [List.length_singleton] at hzero
      obtain rfl : j = 0 := by omega
      simpa only [head, List.length_append, Nat.add_assoc, Nat.add_zero] using hfirstEnd
  · have hrest := hmore.unreached _ _ ⟨hsplit, ?_, ?_⟩ j s hlate label hlabel hsame
    · simpa only [head, List.length_append, Nat.add_assoc] using hrest
    · rw [jumpsIn_append, jumpsIn_append, jumpsIn_jumpTo rfl (by omega)]
      exact ⟨⟨hhead _ fun k hk => by omega, hfirst.jumps.mono fun k hk => by omega⟩, jumpsIn_nil⟩
    · exact hwithin.post.mono fun k hk => by omega

theorem stops_switchDefault {selector bodies : List Statement} {cases : List TypedCase}
    (hselector : ∀ P, JumpsIn P selector)
    (hbodies : CasesReturn whole bodies n (n + 1) cases.length (n + 1 + cases.length + 1) n₁)
    (hdefault : Returns whole code n₁ n')
    (hwithin : Within whole before (selector ++ [op .switch (caseOperands (n + 1) cases),
      jumpTo .jump (freshLabel "switch_default" (n + 1 + cases.length))] ++ bodies ++
      [mark (freshLabel "switch_default" (n + 1 + cases.length))] ++ code ++
      [mark (freshLabel "switch_end" n)]) post n n') :
    Stops whole (before ++ (selector ++ [op .switch (caseOperands (n + 1) cases),
      jumpTo .jump (freshLabel "switch_default" (n + 1 + cases.length))] ++ bodies ++
      [mark (freshLabel "switch_default" (n + 1 + cases.length))] ++ code ++
      [mark (freshLabel "switch_end" n)])) := by
  have hle := hbodies.le
  have hle' := hdefault.le
  let front := before ++ selector ++ [op .switch (caseOperands (n + 1) cases)] ++
    [jumpTo .jump (freshLabel "switch_default" (n + 1 + cases.length))]
  have hwhole : whole = front ++ bodies ++
      mark (freshLabel "switch_default" (n + 1 + cases.length)) ::
      (code ++ mark (freshLabel "switch_end" n) :: post) := by
    rw [hwithin.eq]
    simp only [front, List.append_assoc, List.cons_append, List.nil_append]
  have hfront (P : Nat → Prop) (hP : ∀ k, k < n ∨ n' ≤ k → P k)
      (hP' : ∀ k, n < k ∧ k ≤ n + 1 + cases.length → P k) : JumpsIn P front := by
    rw [jumpsIn_append, jumpsIn_append, jumpsIn_append, jumpsIn_jumpTo rfl (hP' _ (by omega))]
    exact ⟨⟨⟨hwithin.before.mono hP, hselector P⟩, (switch_jumpsIn _ _).mono fun k hk =>
      hP' k (by omega)⟩, jumpsIn_nil⟩
  have hcases :=
    hbodies.unreached front _ ⟨hwhole, hfront _ (fun k hk => by omega) fun k hk => by omega, ?_⟩
  · have hsplit :
        whole = (front ++ bodies ++ [mark (freshLabel "switch_default" (n + 1 + cases.length))]) ++
        code ++ mark (freshLabel "switch_end" n) :: post := by
      rw [hwhole]
      simp only [List.append_assoc, List.cons_append, List.nil_append]
    have hend := stops_endLabel hdefault (by omega) hsplit ?_ hwithin.post ?_
    · simp only [front, List.append_assoc, List.cons_append, List.nil_append] at hend ⊢
      exact hend
    · rw [jumpsIn_append, jumpsIn_append, jumpsIn_mark]
      exact ⟨⟨hfront _ (fun k hk => by omega) fun k hk => by omega,
        hbodies.jumps.mono fun k hk => by omega⟩, jumpsIn_nil⟩
    · intro i t ht hreached
      have hother : JumpsIn (· ≠ n) front := hfront _ (fun k hk => by omega) fun k hk => by omega
      have hother' : JumpsIn (· ≠ n) [mark (freshLabel "switch_default" (n + 1 + cases.length))] :=
        jumpsIn_mark.mpr jumpsIn_nil
      rcases getElem?_append_cases ht with hearly | ⟨k, -, hlate⟩
      · rcases getElem?_append_cases hearly with hstart | ⟨k, rfl, hbody⟩
        · exact hother.ne (List.mem_of_getElem? hstart) "switch_end"
        · exact fun label hlabel hsame => hcases k t hbody label hlabel hsame hreached
      · exact hother'.ne (List.mem_of_getElem? hlate) "switch_end"
  · rw [jumpsIn_mark, jumpsIn_append, jumpsIn_mark]
    exact ⟨hdefault.jumps.mono fun k hk => by omega, hwithin.post.mono fun k hk => by omega⟩

end

theorem continues_leave (info : BodyInfo) : info.leave.continues = false := by
  rw [BodyInfo.leave, Statement.continues, Statement.opcode?_op]

mutual

/-- The end of a statement that is judged to return has no predecessor. -/
theorem stmt_stops {Γ : TypingEnv} {info : BodyInfo} {result : Option Ty} {labels : List String}
    (hlayout : info.layout.Covers Γ) (hlabels : NoDollar labels) {whole : List Statement} :
    (s : TypedStmt) → {n n' : Nat} → {before code post : List Statement} →
      s.WellTyped Γ result labels →
      NoDollar s.labels → s.alwaysReturns = true → Lowered info s n code n' →
        Within whole before code post n n' →
      Stops whole (before ++ code)
  | .ret none, n, n', before, code, post, _, _, _, hcode, hwithin => by
      cases hcode with
      | leave =>
          have hwhole : whole = before ++ info.leave :: post := by
            rw [hwithin.eq, List.append_assoc, List.singleton_append]
          exact .of_last hwhole (continues_leave info)
  | .ret (some x), n, n', before, code, post, _, _, _, hcode, hwithin => by
      cases hcode with
      | @ret _ _ value hvalue =>
          have hwhole : whole = before ++ value ++ info.leave :: post := by
            rw [hwithin.eq]
            simp only [List.append_assoc, List.singleton_append]
          rw [← List.append_assoc]
          exact .of_last hwhole (continues_leave info)
  | .block body, n, n', before, code, post, hs, hnames, hreturns, hcode, hwithin => by
      cases hcode with
      | block hcode =>
          cases hs with
          | block hbody =>
              rw [TypedStmt.alwaysReturns] at hreturns
              exact (block_stops hlayout hlabels body hbody hnames hreturns hcode).stops before post
                hwithin
  | .cond c thenBody elseBody, n, n', before, code, post, hs, hnames, hreturns, hcode, hwithin => by
      rw [TypedStmt.alwaysReturns, Bool.and_eq_true] at hreturns
      have hnames' : NoDollar (TypedStmt.blockLabels thenBody) ∧
          NoDollar (TypedStmt.blockLabels elseBody) :=
        List.forall_mem_append.mp hnames
      cases hs with
      | cond hc _ hthen helse =>
          cases hcode with
          | ifThen htest hbody => cases hreturns.2
          | @ifElse _ _ _ _ n₁ _ test first second _ htest hfirst hsecond =>
              have hplain := (value_succeeds hlayout c hc).plain htest
              exact stops_ifElse (fun P => hplain.jumpsIn)
                (block_stops hlayout hlabels thenBody hthen hnames'.1 hreturns.1 hfirst)
                (block_stops hlayout hlabels elseBody helse hnames'.2 hreturns.2 hsecond) hwithin
  | .switch x cases (some default), n, n', before, code, post, hs, hnames, hreturns, hcode,
      hwithin => by
      rw [TypedStmt.alwaysReturns, Bool.and_eq_true] at hreturns
      have hnames' : NoDollar (TypedStmt.caseLabels cases) ∧
          NoDollar (TypedStmt.blockLabels default) :=
        List.forall_mem_append.mp hnames
      cases hs with
      | switch hx _ _ hcases hdefault =>
          cases hcode with
          | switchDefault hselector hbodies hcode =>
              have hplain := (value_succeeds hlayout x hx).plain hselector
              exact stops_switchDefault (fun P => hplain.jumpsIn)
                (cases_return hlayout hlabels cases hcases hnames'.1 hreturns.1 (by omega)
                  (by omega) hbodies)
                (block_stops hlayout hlabels default (hdefault default rfl) hnames'.2 hreturns.2
                  hcode) hwithin

theorem block_stops {Γ : TypingEnv} {info : BodyInfo} {result : Option Ty} {labels : List String}
    (hlayout : info.layout.Covers Γ) (hlabels : NoDollar labels) {whole : List Statement} :
    (body : List TypedStmt) → {n n' : Nat} → {code : List Statement} →
      (∀ s ∈ body, s.WellTyped Γ result labels) → NoDollar (TypedStmt.blockLabels body) →
      lastReturns body = true → LoweredBlock info body n code n' → Returns whole code n n'
  | [s], n, n', code, hbody, hnames, hreturns, hcode => by
      obtain ⟨hle, hjumps⟩ := block_jumpsIn hlayout hlabels hbody hnames hcode
      refine ⟨hle, hjumps, fun before post hwithin => ?_⟩
      cases hcode with
      | cons hfirst hrest =>
          cases hrest
          rw [TypedStmt.blockLabels, TypedStmt.blockLabels, List.append_nil] at hnames
          rw [List.append_nil] at hwithin ⊢
          exact stmt_stops hlayout hlabels s (hbody s List.mem_cons_self) hnames hreturns hfirst
            hwithin
  | s :: t :: rest, n, n', code, hbody, hnames, hreturns, hcode => by
      obtain ⟨hle, hjumps⟩ := block_jumpsIn hlayout hlabels hbody hnames hcode
      refine ⟨hle, hjumps, fun before post hwithin => ?_⟩
      cases hcode with
      | @cons _ _ _ n₁ _ first more hfirst hmore =>
          rw [List.forall_mem_cons] at hbody
          have hnames' : NoDollar s.labels ∧ NoDollar (TypedStmt.blockLabels (t :: rest)) :=
            List.forall_mem_append.mp hnames
          have hhead := (lowered_emits hlayout s hbody.1 hfirst).jumpsIn hlabels hnames'.1
          have hlast : Returns whole more n₁ n' :=
            block_stops hlayout hlabels (t :: rest) hbody.2 hnames'.2 hreturns hmore
          have hle' := hlast.le
          rw [← List.append_assoc]
          refine hlast.stops (before ++ first) post ⟨?_, ?_, ?_⟩
          · rw [hwithin.eq, ← List.append_assoc before]
          · have hle₁ := hhead.1
            exact jumpsIn_append.mpr
              ⟨hwithin.before.mono fun k hk => by omega, hhead.2.mono fun k hk => by omega⟩
          · have hle₁ := hhead.1
            exact hwithin.post.mono fun k hk => by omega

theorem cases_return {Γ : TypingEnv} {info : BodyInfo} {result : Option Ty} {labels : List String}
    (hlayout : info.layout.Covers Γ) (hlabels : NoDollar labels) {whole : List Statement}
    {done : Nat} :
    (cases : List TypedCase) → {i n n' : Nat} → {bodies : List Statement} →
      (∀ c ∈ cases, ∀ s ∈ c.body, s.WellTyped Γ result labels) →
        NoDollar (TypedStmt.caseLabels cases) →
      casesReturn cases = true → done < i → i + cases.length ≤ n →
      LoweredCases info (freshLabel "switch_end" done) i cases n bodies n' →
      CasesReturn whole bodies done i cases.length n n'
  | [], i, n, n', bodies, hcases, hnames, _, _, _, hcode => by
      obtain ⟨hle, hjumps⟩ := cases_jumpsIn hlayout hlabels hcases hnames hcode
      refine ⟨hle, hjumps, fun before post _ k s hs => ?_⟩
      cases hcode
      cases hs
  | ⟨v, body⟩ :: rest, i, n, n', bodies, hcases, hnames, hreturns, hdone, hi, hcode => by
      obtain ⟨hle, hjumps⟩ := cases_jumpsIn hlayout hlabels hcases hnames hcode
      refine ⟨hle, hjumps, fun before post hwithin k s hs => ?_⟩
      rw [casesReturn, Bool.and_eq_true] at hreturns
      rw [List.length_cons] at hi
      have hnames' : NoDollar (TypedStmt.blockLabels body) ∧ NoDollar (TypedStmt.caseLabels rest) :=
        List.forall_mem_append.mp hnames
      cases hcode with
      | @cons _ _ _ _ _ _ n₁ _ first more hfirst hmore =>
          rw [List.forall_mem_cons] at hcases
          have hbody : Returns whole first n n₁ :=
            block_stops hlayout hlabels body hcases.1 hnames'.1 hreturns.1 hfirst
          have hle₁ := hbody.le
          have hrest : CasesReturn whole more done (i + 1) rest.length n₁ n' :=
            cases_return hlayout hlabels rest hcases.2 hnames'.2 hreturns.2 (by omega) (by omega)
              hmore
          exact unreached_cons hdone (by omega) hbody hrest hwithin hs

end

end Lowering
end GameScript
