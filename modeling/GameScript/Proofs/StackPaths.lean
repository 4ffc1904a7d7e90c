import GameScript.Proofs.GeneratedProgram
import GameScript.Proofs.StackEffects

/-!
# The stack along every path through a function

Statements leave nothing on the stack, so every label of a function is met with an empty stack,
however control got there. This is shown for runs of bounded length, by induction on the bound: a
loop may go back to its start because the run from there is shorter, and a jump may go to any label
of the script for the same reason. Code after a statement that always returns is never reached in
this way, although it may be there, and nothing is asked of it.
-/
namespace GameScript

open Statement (op pushInt mark)
open Lowering (jumpTo)

section
variable {fs : List FunctionDef} {f : FunctionDef} {n m : Nat}

/-- Runs from where a jump to the label goes are safe if they stay below the bound. -/
def JumpSafe (fs : List FunctionDef) (f : FunctionDef) (n : Nat) (label : String) : Prop :=
  ∀ m < n, ∀ dest, LabelAt f.body label dest → SafeFor fs f m ⟨dest, []⟩

theorem JumpSafe.mono {label : String} (h : JumpSafe fs f n label) (hm : m ≤ n) :
    JumpSafe fs f m label :=
  fun k hk => h k (Nat.lt_of_lt_of_le hk hm)

theorem JumpSafe.of_mark {before after : List Statement} {label : String}
    (hbody : f.body = before ++ mark label :: after)
    (h : ∀ m < n, SafeFor fs f m ⟨mark label :: after, []⟩) : JumpSafe fs f n label := by
  intro m hm dest hdest
  rw [hbody] at hdest
  rw [hdest.eq rfl]
  exact h m hm

theorem JumpSafe.of_safe {before after : List Statement} {label : String}
    (hbody : f.body = before ++ mark label :: after)
    (h : SafeFor fs f n ⟨mark label :: after, []⟩) : JumpSafe fs f n label :=
  .of_mark hbody fun _ hm => h.mono (Nat.le_of_lt hm)

/-! ## Single statements -/

namespace SafeFor

variable {rest : List Statement}

/-- Code that leaves `b` slots on an empty stack. -/
theorem after {code : List Statement} {b : Nat} (h : Turns fs code 0 b)
    (hrest : ∀ made, made.length = b → SafeFor fs f n ⟨rest, made⟩) :
    SafeFor fs f n ⟨code ++ rest, []⟩ := by
  refine of_runs ((h.runs []).mono ?_)
  rintro τ ⟨made, hmade, rfl⟩
  rw [List.append_nil]
  exact hrest made hmade

theorem after_nothing {code : List Statement} (h : Turns fs code 0 0)
    (hrest : SafeFor fs f n ⟨rest, []⟩) : SafeFor fs f n ⟨code ++ rest, []⟩ := by
  refine after h fun made hmade => ?_
  rwa [List.eq_nil_of_length_eq_zero hmade]

theorem after_one {code : List Statement} (h : Turns fs code 0 1)
    (hrest : ∀ v, SafeFor fs f n ⟨rest, [v]⟩) : SafeFor fs f n ⟨code ++ rest, []⟩ := by
  refine after h fun made hmade => ?_
  obtain ⟨v, rfl⟩ := List.length_eq_one_iff.mp hmade
  exact hrest v

theorem at_mark {label : String} (hrest : SafeFor fs f n ⟨rest, []⟩) :
    SafeFor fs f n ⟨mark label :: rest, []⟩ := by
  refine intro (Statement.action?_mark label) rfl fun m hm c hnext => ?_
  cases hnext with
  | label => exact hrest.mono (Nat.le_of_lt hm)
  | move hmove => cases hmove

theorem at_jump {label : String} (h : JumpSafe fs f n label) :
    SafeFor fs f n ⟨jumpTo .jump label :: rest, []⟩ := by
  have hact : (jumpTo .jump label).action? = some (.jump label) := Statement.action?_op _ _
  refine intro hact rfl fun m hm c hnext => ?_
  cases hnext with
  | jump hdest => exact h m hm _ hdest
  | move hmove => cases hmove

theorem at_branch {label : String} {v : Int} (h : JumpSafe fs f n label)
    (hrest : SafeFor fs f n ⟨rest, []⟩) :
    SafeFor fs f n ⟨jumpTo .jumpZero label :: rest, [v]⟩ := by
  have hact : (jumpTo .jumpZero label).action? = some (.branch label) := Statement.action?_op _ _
  refine intro hact rfl fun m hm c hnext => ?_
  cases hnext with
  | branchPast => exact hrest.mono (Nat.le_of_lt hm)
  | branchTo hdest => exact h m hm _ hdest
  | move hmove => cases hmove

theorem at_switch {operands : List Operand} {v : Int}
    (h : ∀ label ∈ operands.filterMap Operand.caseLabel?, JumpSafe fs f n label)
    (hrest : SafeFor fs f n ⟨rest, []⟩) :
    SafeFor fs f n ⟨op .switch operands :: rest, [v]⟩ := by
  have hact : (op .switch operands).action? =
      some (.switch (operands.filterMap Operand.caseLabel?)) := Statement.action?_op _ _
  refine intro hact rfl fun m hm c hnext => ?_
  cases hnext with
  | switchPast => exact hrest.mono (Nat.le_of_lt hm)
  | switchTo hlabel hdest => exact h _ hlabel m hm _ hdest
  | move hmove => cases hmove

/-- A run ends where the function is left. -/
theorem at_leave {σ : List Int} (hσ : σ.length = f.resultSlots) :
    SafeFor fs f n ⟨op .leave [.int f.argSlots, .int f.resultSlots] :: rest, σ⟩ := by
  have hact : (op .leave [.int f.argSlots, .int f.resultSlots]).action? =
      some (.leave f.argSlots f.resultSlots) := Statement.action?_op _ _
  refine intro hact ⟨rfl, rfl, hσ⟩ fun m hm c hnext => ?_
  cases hnext with
  | move hmove => cases hmove

end SafeFor

/-! ## Code that is entered at its start or at a label -/

/-- The code, which goes on with `post`, has a mark of this name, and runs from there are safe. -/
def Entry (fs : List FunctionDef) (f : FunctionDef) (n : Nat) (code post : List Statement)
    (name : String) : Prop :=
  ∃ before after, code = before ++ mark name :: after ∧
    SafeFor fs f n ⟨mark name :: (after ++ post), []⟩

section
variable {code post : List Statement} {name : String}

theorem Entry.within (h : Entry fs f n code post name) (head tail : List Statement)
    {whole post' : List Statement} (hwhole : whole = head ++ code ++ tail)
    (hpost : post = tail ++ post') :
    Entry fs f n whole post' name := by
  obtain ⟨before, after, rfl, hsafe⟩ := h
  refine ⟨head ++ before, after ++ tail, ?_, ?_⟩
  · rw [hwhole]
    simp only [List.append_assoc, List.cons_append]
  · rwa [List.append_assoc, ← hpost]

theorem Entry.safeFor (h : Entry fs f n code post name) {before dest : List Statement}
    (hbody : f.body = before ++ code ++ post) (hdest : LabelAt f.body name dest) :
    SafeFor fs f n ⟨dest, []⟩ := by
  obtain ⟨head, after, rfl, hsafe⟩ := h
  have hsplit : f.body = (before ++ head) ++ mark name :: (after ++ post) := by
    rw [hbody]
    simp only [List.append_assoc, List.cons_append]
  rw [hsplit] at hdest
  rwa [hdest.eq rfl]

theorem Entry.jumpSafe (h : Entry fs f n code post name) {before : List Statement}
    (hbody : f.body = before ++ code ++ post) : JumpSafe fs f n name :=
  fun _ hm _ hdest => (h.safeFor hbody hdest).mono (Nat.le_of_lt hm)

end

/-- Runs from the start of the code, which goes on with `post`, and from its own labels. -/
structure Enters (fs : List FunctionDef) (f : FunctionDef) (n : Nat) (code post : List Statement)
    (own : List String) : Prop where
  start : SafeFor fs f n ⟨code ++ post, []⟩
  labels : ∀ name ∈ own, Entry fs f n code post name

/-- Wherever the code stands in `f`, it is safe to enter if jumps to the labels of the function are
safe, and if what comes after it is, which does not matter for code that always returns. -/
def Flows (fs : List FunctionDef) (f : FunctionDef) (labels : List String) (code : List Statement)
    (own : List String) (returns : Bool) : Prop :=
  ∀ n before post, f.body = before ++ code ++ post → (∀ name ∈ labels, JumpSafe fs f n name) →
    (returns = false → SafeFor fs f n ⟨post, []⟩) → Enters fs f n code post own

namespace Flows

variable {labels own own' : List String} {returns returns' : Bool}
  {test code code' : List Statement}

theorem nil : Flows fs f labels [] [] false := by
  intro n before post _ _ hpost
  exact ⟨hpost rfl, fun name hname => absurd hname List.not_mem_nil⟩

/-- Code that leaves the stack as it was and cannot be entered but at its start. -/
theorem plain (h : Turns fs code 0 0) : Flows fs f labels code [] false := by
  intro n before post _ _ hpost
  exact ⟨.after_nothing h (hpost rfl), fun name hname => absurd hname List.not_mem_nil⟩

theorem label (name : String) : Flows fs f labels [mark name] [name] false := by
  intro n before post _ _ hpost
  have hsafe : SafeFor fs f n ⟨mark name :: post, []⟩ := .at_mark (hpost rfl)
  refine ⟨hsafe, fun name' hname => ?_⟩
  obtain rfl := List.mem_singleton.mp hname
  exact ⟨[], [], rfl, hsafe⟩

theorem goto {name : String} (hname : name ∈ labels) :
    Flows fs f labels [jumpTo .jump name] [] false := by
  intro n before post _ hlabels _
  exact ⟨.at_jump (hlabels name hname), fun name hname => absurd hname List.not_mem_nil⟩

theorem append (h : Flows fs f labels code own returns)
    (h' : Flows fs f labels code' own' returns') :
    Flows fs f labels (code ++ code') (own ++ own') returns' := by
  intro n before post hbody hlabels hpost
  have hmore : Enters fs f n code' post own' := by
    refine h' n (before ++ code) post ?_ hlabels hpost
    rw [hbody]
    simp only [List.append_assoc]
  have hfirst : Enters fs f n code (code' ++ post) own := by
    refine h n before (code' ++ post) ?_ hlabels fun _ => hmore.start
    rw [hbody]
    simp only [List.append_assoc]
  constructor
  · rw [List.append_assoc]
    exact hfirst.start
  · intro name hname
    rcases List.mem_append.mp hname with hname | hname
    · exact (hfirst.labels name hname).within [] code' rfl rfl
    · exact (hmore.labels name hname).within code [] (List.append_nil _).symm rfl

theorem ifThen (htest : Turns fs test 0 1) (h : Flows fs f labels code own returns)
    (done : String) :
    Flows fs f labels (test ++ [jumpTo .jumpZero done] ++ code ++ [mark done]) own false := by
  intro n before post hbody hlabels hpost
  have hdone : SafeFor fs f n ⟨mark done :: post, []⟩ := .at_mark (hpost rfl)
  have hjump : JumpSafe fs f n done := by
    have hsplit : f.body =
        (before ++ test ++ [jumpTo .jumpZero done] ++ code) ++ mark done :: post := by
      rw [hbody]
      simp only [List.append_assoc, List.cons_append, List.nil_append]
    exact .of_safe hsplit hdone
  have hcode : Enters fs f n code ([mark done] ++ post) own := by
    refine h n (before ++ test ++ [jumpTo .jumpZero done]) _ ?_ hlabels fun _ => hdone
    rw [hbody]
    simp only [List.append_assoc]
  constructor
  · simp only [List.append_assoc]
    exact .after_one htest fun v => .at_branch hjump hcode.start
  · intro name hname
    exact (hcode.labels name hname).within _ _ rfl rfl

/-- Control never goes past the first part to the mark after it if the first part always returns,
nor to the end if both do. -/
theorem ifElse (htest : Turns fs test 0 1) (h : Flows fs f labels code own returns)
    (h' : Flows fs f labels code' own' returns') (otherwise done : String) :
    Flows fs f labels (test ++ [jumpTo .jumpZero otherwise] ++ code ++
      [jumpTo .jump done, mark otherwise] ++ code' ++ [mark done]) (own ++ own')
      (returns && returns') := by
  intro n before post hbody hlabels hpost
  have hdone : (returns && returns') = false → SafeFor fs f n ⟨mark done :: post, []⟩ :=
    fun hreturns => .at_mark (hpost hreturns)
  have hjump : returns = false → JumpSafe fs f n done := by
    intro hreturns
    have hsplit : f.body = (before ++ test ++ [jumpTo .jumpZero otherwise] ++ code ++
        [jumpTo .jump done, mark otherwise] ++ code') ++ mark done :: post := by
      rw [hbody]
      simp only [List.append_assoc, List.cons_append, List.nil_append]
    have hsafe := hdone (by rw [hreturns, Bool.false_and])
    exact .of_safe hsplit hsafe
  have hsecond : Enters fs f n code' ([mark done] ++ post) own' := by
    refine h' n (before ++ test ++ [jumpTo .jumpZero otherwise] ++ code ++
      [jumpTo .jump done, mark otherwise]) _ ?_ hlabels fun hreturns => hdone ?_
    · rw [hbody]
      simp only [List.append_assoc]
    · rw [hreturns, Bool.and_false]
  have hfirst : Enters fs f n code
      ([jumpTo .jump done, mark otherwise] ++ code' ++ [mark done] ++ post) own := by
    refine h n (before ++ test ++ [jumpTo .jumpZero otherwise]) _ ?_ hlabels fun hreturns =>
      .at_jump (hjump hreturns)
    rw [hbody]
    simp only [List.append_assoc]
  have hotherwise : SafeFor fs f n ⟨mark otherwise :: (code' ++ ([mark done] ++ post)), []⟩ :=
    .at_mark hsecond.start
  have hbranch : JumpSafe fs f n otherwise := by
    have hsplit : f.body = (before ++ test ++ [jumpTo .jumpZero otherwise] ++ code ++
        [jumpTo .jump done]) ++ mark otherwise :: (code' ++ ([mark done] ++ post)) := by
      rw [hbody]
      simp only [List.append_assoc, List.cons_append, List.nil_append]
    exact .of_safe hsplit hotherwise
  constructor
  · have hstart := hfirst.start
    simp only [List.append_assoc] at hstart ⊢
    exact .after_one htest fun v => .at_branch hbranch hstart
  · intro name hname
    rcases List.mem_append.mp hname with hname | hname
    · refine (hfirst.labels name hname).within (test ++ [jumpTo .jumpZero otherwise]) _ ?_ rfl
      simp only [List.append_assoc]
    · exact (hsecond.labels name hname).within _ _ rfl rfl

/-- A loop goes back to its start with fewer steps left. -/
theorem whileLoop (htest : Turns fs test 0 1) (h : Flows fs f labels code own returns)
    (start done : String) :
    Flows fs f labels ([mark start] ++ test ++ [jumpTo .jumpZero done] ++ code ++
      [jumpTo .jump start, mark done]) own false := by
  intro n before post hbody hlabels hpost
  have hdone : SafeFor fs f n ⟨mark done :: post, []⟩ := .at_mark (hpost rfl)
  have hjump : JumpSafe fs f n done := by
    have hsplit : f.body = (before ++ [mark start] ++ test ++ [jumpTo .jumpZero done] ++ code ++
        [jumpTo .jump start]) ++ mark done :: post := by
      rw [hbody]
      simp only [List.append_assoc, List.cons_append, List.nil_append]
    exact .of_safe hsplit hdone
  have hcode : ∀ m ≤ n, JumpSafe fs f m start →
      Enters fs f m code ([jumpTo .jump start, mark done] ++ post) own := by
    intro m hm hstart
    refine h m (before ++ [mark start] ++ test ++ [jumpTo .jumpZero done]) _ ?_
      (fun name hname => (hlabels name hname).mono hm) fun _ => .at_jump hstart
    rw [hbody]
    simp only [List.append_assoc]
  have hsplit : f.body = before ++ mark start :: (test ++ ([jumpTo .jumpZero done] ++
      (code ++ ([jumpTo .jump start, mark done] ++ post)))) := by
    rw [hbody]
    simp only [List.append_assoc, List.cons_append, List.nil_append]
  have hloop : ∀ m ≤ n, SafeFor fs f m ⟨mark start :: (test ++ ([jumpTo .jumpZero done] ++
      (code ++ ([jumpTo .jump start, mark done] ++ post)))), []⟩ := by
    intro m
    induction m using Nat.strongRecOn with
    | ind m ih =>
        intro hm
        have hstart : JumpSafe fs f m start :=
          .of_mark hsplit fun k hk => ih k hk (Nat.le_of_lt (Nat.lt_of_lt_of_le hk hm))
        exact .at_mark (.after_one htest fun v =>
          .at_branch (hjump.mono hm) (hcode m hm hstart).start)
  constructor
  · simp only [List.append_assoc]
    exact hloop n (Nat.le_refl n)
  · intro name hname
    have hstart : JumpSafe fs f n start := .of_mark hsplit fun k hk => hloop k (Nat.le_of_lt hk)
    exact ((hcode n (Nat.le_refl n) hstart).labels name hname).within _ _ rfl rfl

/-- A loop that counts is one that tests, after a first assignment and with another at the end of
each turn. -/
theorem repeatLoop {first step : List Statement} (hfirst : Turns fs first 0 0)
    (htest : Turns fs test 0 1) (h : Flows fs f labels code own returns)
    (hstep : Turns fs step 0 0) (start done : String) :
    Flows fs f labels
      (first ++ ([mark start] ++ test ++ [jumpTo .jumpZero done] ++ (code ++ step) ++
      [jumpTo .jump start, mark done])) own false := by
  have hbody := (plain hfirst).append (whileLoop htest (h.append (plain hstep)) start done)
  rwa [List.append_nil] at hbody

/-- Code that jumps only to labels of its own is safe to enter for any number of steps. -/
theorem enters {before post : List Statement} (h : Flows fs f own code own returns)
    (hbody : f.body = before ++ code ++ post)
    (hpost : ∀ n, returns = false → SafeFor fs f n ⟨post, []⟩) :
    ∀ n, Enters fs f n code post own := by
  intro n
  induction n using Nat.strongRecOn with
  | ind n ih =>
      refine h n before post hbody (fun name hname m hm dest hdest => ?_) (hpost n)
      exact ((ih m hm).labels name hname).safeFor hbody hdest

end Flows

/-! ## Cases -/

/-- Wherever the bodies of cases stand in `f`, they are safe to enter at their own labels and at
those of the cases. After a body control goes on at `done`, unless all bodies return. -/
def CasesFlow (fs : List FunctionDef) (f : FunctionDef) (labels : List String) (done : String)
    (bodies : List Statement) (own targets : List String) (returns : Bool) : Prop :=
  ∀ n before post, f.body = before ++ bodies ++ post → (∀ name ∈ labels, JumpSafe fs f n name) →
    (returns = false → JumpSafe fs f n done) →
      ∀ name ∈ own ++ targets, Entry fs f n bodies post name

section
variable {labels own own' targets : List String} {returns returns' : Bool} {done label : String}
  {selector bodies code : List Statement} {operands : List Operand}

theorem CasesFlow.nil : CasesFlow fs f labels done [] [] [] true :=
  fun _ _ _ _ _ _ _ hname => absurd hname List.not_mem_nil

theorem CasesFlow.cons (h : Flows fs f labels code own returns)
    (hrest : CasesFlow fs f labels done bodies own' targets returns') (label : String) :
    CasesFlow fs f labels done ([mark label] ++ code ++ [jumpTo .jump done] ++ bodies) (own ++ own')
      (label :: targets) (returns && returns') := by
  intro n before post hbody hlabels hdone name hname
  have hcode : Enters fs f n code ([jumpTo .jump done] ++ bodies ++ post) own := by
    refine h n (before ++ [mark label]) _ ?_ hlabels fun hreturns => .at_jump (hdone ?_)
    · rw [hbody]
      simp only [List.append_assoc]
    · rw [hreturns, Bool.false_and]
  have hmore : ∀ name ∈ own' ++ targets, Entry fs f n bodies post name := by
    refine hrest n (before ++ [mark label] ++ code ++ [jumpTo .jump done]) post ?_ hlabels
      fun hreturns => hdone ?_
    · rw [hbody]
      simp only [List.append_assoc]
    · rw [hreturns, Bool.and_false]
  simp only [List.mem_append, List.mem_cons] at hname hmore
  rcases hname with (hname | hname) | rfl | hname
  · refine (hcode.labels name hname).within [mark label] _ ?_ rfl
    simp only [List.append_assoc]
  · exact (hmore name (.inl hname)).within _ [] (List.append_nil _).symm rfl
  · refine ⟨[], code ++ [jumpTo .jump done] ++ bodies, ?_, ?_⟩
    · simp only [List.append_assoc, List.cons_append, List.nil_append]
    · have hstart := hcode.start
      simp only [List.append_assoc] at hstart ⊢
      exact .at_mark hstart
  · exact (hmore name (.inr hname)).within _ [] (List.append_nil _).symm rfl

/-- A switch goes to one of its cases or past them. -/
theorem SafeFor.at_selection (hselector : Turns fs selector 0 1)
    (htargets : ∀ name ∈ operands.filterMap Operand.caseLabel?, JumpSafe fs f n name)
    (hlabel : JumpSafe fs f n label) (rest : List Statement) :
    SafeFor fs f n ⟨selector ++ ([op .switch operands, jumpTo .jump label] ++ rest), []⟩ :=
  .after_one hselector fun _ => .at_switch htargets (.at_jump hlabel)

theorem Flows.switch (hselector : Turns fs selector 0 1)
    (h : CasesFlow fs f labels done bodies own (operands.filterMap Operand.caseLabel?) returns) :
    Flows fs f labels (selector ++ [op .switch operands, jumpTo .jump done] ++ bodies ++
      [mark done]) own false := by
  intro n before post hbody hlabels hpost
  have hdone : JumpSafe fs f n done := by
    have hsplit : f.body = (before ++ selector ++ [op .switch operands, jumpTo .jump done] ++
        bodies) ++ mark done :: post := by
      rw [hbody]
      simp only [List.append_assoc, List.cons_append, List.nil_append]
    exact .of_safe hsplit (.at_mark (hpost rfl))
  have hwhole : f.body = (before ++ selector ++ [op .switch operands, jumpTo .jump done]) ++
      bodies ++ ([mark done] ++ post) := by
    rw [hbody]
    simp only [List.append_assoc]
  have hbodies := h n _ _ hwhole hlabels fun _ => hdone
  constructor
  · simp only [List.append_assoc]
    refine .at_selection hselector (fun name hname => ?_) hdone _
    exact (hbodies name (List.mem_append_right _ hname)).jumpSafe hwhole
  · intro name hname
    exact (hbodies name (List.mem_append_left _ hname)).within _ _ rfl rfl

theorem Flows.switchDefault (hselector : Turns fs selector 0 1)
    (h : CasesFlow fs f labels done bodies own (operands.filterMap Operand.caseLabel?) returns)
    (hcode : Flows fs f labels code own' returns') (otherwise : String) :
    Flows fs f labels (selector ++ [op .switch operands, jumpTo .jump otherwise] ++ bodies ++
      [mark otherwise] ++ code ++ [mark done]) (own ++ own') (returns && returns') := by
  intro n before post hbody hlabels hpost
  have hdone : (returns && returns') = false → SafeFor fs f n ⟨mark done :: post, []⟩ :=
    fun hreturns => .at_mark (hpost hreturns)
  have hjump : returns = false → JumpSafe fs f n done := by
    intro hreturns
    have hsplit : f.body = (before ++ selector ++ [op .switch operands, jumpTo .jump otherwise] ++
        bodies ++ [mark otherwise] ++ code) ++ mark done :: post := by
      rw [hbody]
      simp only [List.append_assoc, List.cons_append, List.nil_append]
    exact .of_safe hsplit (hdone (by rw [hreturns, Bool.false_and]))
  have hdefault : Enters fs f n code ([mark done] ++ post) own' := by
    refine hcode n (before ++ selector ++ [op .switch operands, jumpTo .jump otherwise] ++ bodies ++
      [mark otherwise]) _ ?_ hlabels fun hreturns => hdone ?_
    · rw [hbody]
      simp only [List.append_assoc]
    · rw [hreturns, Bool.and_false]
  have hotherwise : JumpSafe fs f n otherwise := by
    have hsplit : f.body = (before ++ selector ++ [op .switch operands, jumpTo .jump otherwise] ++
        bodies) ++ mark otherwise :: (code ++ ([mark done] ++ post)) := by
      rw [hbody]
      simp only [List.append_assoc, List.cons_append, List.nil_append]
    exact .of_safe hsplit (.at_mark hdefault.start)
  have hwhole : f.body = (before ++ selector ++ [op .switch operands, jumpTo .jump otherwise]) ++
      bodies ++ ([mark otherwise] ++ code ++ [mark done] ++ post) := by
    rw [hbody]
    simp only [List.append_assoc]
  have hbodies := h n _ _ hwhole hlabels hjump
  constructor
  · simp only [List.append_assoc]
    refine .at_selection hselector (fun name hname => ?_) hotherwise _
    exact (hbodies name (List.mem_append_right _ hname)).jumpSafe hwhole
  · intro name hname
    rcases List.mem_append.mp hname with hname | hname
    · refine (hbodies name (List.mem_append_left _ hname)).within
        (selector ++ [op .switch operands, jumpTo .jump otherwise]) _ ?_ rfl
      simp only [List.append_assoc]
    · exact (hdefault.labels name hname).within _ _ rfl rfl

end
end

def TypedStmt.CallsKeepCount (s : TypedStmt) : Prop := ∀ y : TypedExpr, s.Uses y → y.KeepsCount

namespace Lowering

/-- What holds of the code of a function as a whole: calls leave what their types say, and the
function is left with its own sizes. -/
structure BodyFits (fs : List FunctionDef) (f : FunctionDef) (Γ : TypingEnv) (info : BodyInfo) :
    Prop where
  calls : CallsFit fs Γ
  argSlots : info.argSlots = f.argSlots
  resultSlots : info.resultSlots = f.resultSlots
  size : f.argSlots < 2 ^ 63
  result : ∀ ty, f.result = some ty → ty.isTextLabel = false

section
variable {fs : List FunctionDef} {f : FunctionDef} {Γ : TypingEnv} {info : BodyInfo} {n : Nat}

theorem BodyFits.leave (h : BodyFits fs f Γ info) {rest : List Statement} {σ : List Int}
    (hσ : σ.length = f.resultSlots) : SafeFor fs f n ⟨info.leave :: rest, σ⟩ := by
  rw [BodyInfo.leave, h.argSlots, h.resultSlots, slotsOperand_eq_iff.mpr h.size]
  exact .at_leave hσ

/-- An expression whose type has one slot. -/
theorem single_turns (hfit : BodyFits fs f Γ info) {x : TypedExpr} {ty : Ty} {code : List Statement}
    (hx : x.WellTyped Γ) (hkeeps : x.CallsKeepCount) (hty : x.ty = ty) (hone : ty.slots = 1)
    (hcode : value info.layout x = .ok code) : Turns fs code 0 1 := by
  have hvalue := value_turns hfit.calls x hx hkeeps hcode
  rwa [hty, hone] at hvalue

theorem drops_turns (k : Nat) : Turns fs (List.replicate k (op .drop)) k 0 := by
  induction k with
  | zero => exact .nil
  | succ k ih =>
      have hdrop : Turns fs [op .drop] 1 0 := turns_op rfl
      exact (hdrop.frame k).append ih

theorem ret_flows (hfit : BodyFits fs f Γ info) {x : TypedExpr} {ty : Ty} {code : List Statement}
    (hx : x.WellTyped Γ) (hkeeps : x.CallsKeepCount) (hty : f.result = some ty)
    (hadmits : ty.Admits x.ty) (hcode : value info.layout x = .ok code) {labels : List String} :
    Flows fs f labels (code ++ [info.leave]) [] true := by
  intro n before post _ _ _
  refine ⟨?_, fun name hname => absurd hname List.not_mem_nil⟩
  rw [List.append_assoc]
  refine .after (value_turns hfit.calls x hx hkeeps hcode) fun made hmade => hfit.leave ?_
  rw [hmade, Ty.slots_eq_of_admits hadmits (hfit.result ty hty), FunctionDef.resultSlots, hty]
  rfl

theorem leave_flows (hfit : BodyFits fs f Γ info) (hnone : f.result = none) {labels : List String} :
    Flows fs f labels [info.leave] [] true := by
  intro n before post _ _ _
  refine ⟨hfit.leave ?_, fun name hname => absurd hname List.not_mem_nil⟩
  rw [FunctionDef.resultSlots, hnone]
  rfl

/-- The assignments of a loop that counts, and its test. -/
theorem counter_turns (hfit : BodyFits fs f Γ info) {limit counter : TypedExpr}
    {place current bound : List Statement} (hlimit : limit.WellTyped Γ)
    (hlimitKeeps : limit.CallsKeepCount) (hlimitTy : limit.ty = .int)
    (hcounter : counter.WellTyped Γ) (hcounterKeeps : counter.CallsKeepCount)
    (hcounterTy : counter.ty = .int)
    (hplace : address info.layout counter = .ok place)
    (hcurrent : load info.layout counter = .ok current)
    (hbound : value info.layout limit = .ok bound) :
    Turns fs ([pushInt 0] ++ place ++ [op .store]) 0 0 ∧
      Turns fs (current ++ bound ++ [op .ilt]) 0 1 ∧
      Turns fs (current ++ [pushInt 1, op .iadd] ++ place ++ [op .store]) 0 0 := by
  have haddress : Turns fs place 0 1 :=
    address_turns hfit.calls counter hcounter hcounterKeeps hplace
  have hload := load_turns hfit.calls hcounter hcounterKeeps hcurrent
  have hvalue := single_turns hfit hlimit hlimitKeeps hlimitTy rfl hbound
  rw [hcounterTy] at hload
  have hstore : Turns fs [op .store] 2 0 := turns_op rfl
  have hnext : Turns fs [pushInt 1, op .iadd] 1 1 :=
    ((turns_pushInt 1).frame 1).append (turns_op rfl)
  refine ⟨?_, ?_, ?_⟩
  · exact (Turns.push (turns_pushInt 0) haddress).append hstore
  · exact (Turns.push hload hvalue).append (turns_op rfl)
  · exact (Turns.push (Turns.append hload hnext) haddress).append hstore

theorem defaultInit_flows (hfit : BodyFits fs f Γ info) {x : TypedExpr} {place : List Statement}
    (hx : x.WellTyped Γ) (hkeeps : x.CallsKeepCount) (hplace : address info.layout x = .ok place)
    {labels : List String} :
    Flows fs f labels (place ++ initInPlace x.ty ++ [op .drop]) [] false := by
  have haddress := address_turns hfit.calls x hx hkeeps hplace
  exact .plain ((haddress.append (initInPlace_turns x.ty)).append (turns_op rfl))

theorem expr_flows (hfit : BodyFits fs f Γ info) {x : TypedExpr} {code : List Statement}
    (hx : x.WellTyped Γ) (hkeeps : x.CallsKeepCount) (hcode : value info.layout x = .ok code)
    {labels : List String} :
    Flows fs f labels (code ++ List.replicate x.ty.slots (op .drop)) [] false :=
  .plain ((value_turns hfit.calls x hx hkeeps hcode).append (drops_turns _))

end

mutual

/-- The code of a statement can be entered at its start and at its labels, and leaves nothing. -/
theorem stmt_flows {fs : List FunctionDef} {f : FunctionDef} {Γ : TypingEnv} {info : BodyInfo}
    {labels : List String} (hfit : BodyFits fs f Γ info) : (s : TypedStmt) → {n n' : Nat} →
      {code : List Statement} → s.WellTyped Γ f.result labels → s.CallsKeepCount →
      Lowered info s n code n' → Flows fs f labels code s.labels s.alwaysReturns
  | .assign _ _, _, _, _, .assign hx _ hy hadmits, hkeeps, .assign hstore =>
      .plain (store_turns hfit.calls hx (fun z hz => hkeeps z (.target hz)) hy
        (fun z hz => hkeeps z (.source hz)) hadmits hstore)
  | .defaultInit _, _, _, _, .defaultInit hx _, hkeeps, .defaultInit hplace =>
      defaultInit_flows hfit hx (fun y hy => hkeeps y (.defaultInit hy)) hplace
  | .cond c thenBody _, _, _, _, .cond hc hbool hthen _, hkeeps, .ifThen htest hbody => by
      have htest := single_turns hfit hc (fun y hy => hkeeps y (.condition hy)) hbool rfl htest
      have hflows := block_flows hfit thenBody hthen (fun s hs y hy => hkeeps y (.thenBody hs hy))
        hbody
      rw [TypedStmt.labels, TypedStmt.alwaysReturns, TypedStmt.blockLabels, lastReturns,
        List.append_nil, Bool.and_false]
      exact .ifThen htest hflows _
  | .cond c thenBody elseBody, _, _, _, .cond hc hbool hthen helse, hkeeps,
      .ifElse _ htest hfirst hsecond => by
      have htest := single_turns hfit hc (fun y hy => hkeeps y (.condition hy)) hbool rfl htest
      have hthenFlows := block_flows hfit thenBody hthen
        (fun s hs y hy => hkeeps y (.thenBody hs hy)) hfirst
      have helseFlows := block_flows hfit elseBody helse
        (fun s hs y hy => hkeeps y (.elseBody hs hy)) hsecond
      rw [TypedStmt.labels, TypedStmt.alwaysReturns]
      exact .ifElse htest hthenFlows helseFlows _ _
  | .whileLoop c body, _, _, _, .whileLoop hc hbool hbody, hkeeps, .whileLoop htest hcode =>
      .whileLoop (single_turns hfit hc (fun y hy => hkeeps y (.loopCondition hy)) hbool rfl htest)
        (block_flows hfit body hbody (fun s hs y hy => hkeeps y (.loopBody hs hy)) hcode) _ _
  | .repeatLoop limit counter body, _, _, _, .repeatLoop hlimit hlimitTy hcounter hcounterTy _
      hbody, hkeeps, .repeatLoop hplace hcurrent hbound hcode => by
      obtain ⟨hfirst, htest, hstep⟩ := counter_turns hfit hlimit (fun y hy => hkeeps y (.limit hy))
        hlimitTy hcounter (fun y hy => hkeeps y (.counter hy)) hcounterTy hplace hcurrent hbound
      have hturn := block_flows hfit body hbody (fun s hs y hy => hkeeps y (.repeated hs hy)) hcode
      have hloop := Flows.repeatLoop hfirst htest hturn hstep
      simp only [List.append_assoc, List.cons_append, List.nil_append] at hloop ⊢
      exact hloop _ _
  | .switch x cases none, _, _, _, .switch hx hint _ hcases _, hkeeps,
      .switch hselector hbodies => by
      have hselector :=
        single_turns hfit hx (fun y hy => hkeeps y (.selector hy)) hint rfl hselector
      rw [TypedStmt.labels, List.append_nil]
      exact .switch hselector (cases_flows hfit cases hcases
        (fun c hc s hs y hy => hkeeps y (.case hc hs hy)) hbodies)
  | .switch x cases (some default), _, _, _, .switch hx hint _ hcases hdefault, hkeeps,
      .switchDefault hselector hbodies hcode => by
      have hselector :=
        single_turns hfit hx (fun y hy => hkeeps y (.selector hy)) hint rfl hselector
      have hcasesFlow := cases_flows hfit cases hcases
        (fun c hc s hs y hy => hkeeps y (.case hc hs hy)) hbodies
      have hdefaultFlows := block_flows hfit default (hdefault default rfl)
        (fun s hs y hy => hkeeps y (.default hs hy)) hcode
      exact .switchDefault hselector hcasesFlow hdefaultFlows _
  | .ret none, _, _, _, .leave hnone, _, .leave => leave_flows hfit hnone
  | .ret (some _), _, _, _, .ret hx hty hadmits, hkeeps, .ret hcode =>
      ret_flows hfit hx (fun y hy => hkeeps y (.result hy)) hty hadmits hcode
  | .expr _, _, _, _, .expr hx _, hkeeps, .expr hcode =>
      expr_flows hfit hx (fun y hy => hkeeps y (.expr hy)) hcode
  | .label name, _, _, _, _, _, .label => .label name
  | .goto _, _, _, _, .goto hname, _, .goto => .goto hname
  | .block body, _, _, _, .block hbody, hkeeps, .block hcode =>
      block_flows hfit body hbody (fun s hs y hy => hkeeps y (.block hs hy)) hcode

theorem block_flows {fs : List FunctionDef} {f : FunctionDef} {Γ : TypingEnv} {info : BodyInfo}
    {labels : List String} (hfit : BodyFits fs f Γ info) : (body : List TypedStmt) → {n n' : Nat} →
      {code : List Statement} → (∀ s ∈ body, s.WellTyped Γ f.result labels) →
      (∀ s ∈ body, s.CallsKeepCount) → LoweredBlock info body n code n' →
      Flows fs f labels code (TypedStmt.blockLabels body) (lastReturns body)
  | [], _, _, _, _, _, hcode => by
      cases hcode
      exact .nil
  | [s], _, _, _, hbody, hkeeps, hcode => by
      cases hcode with
      | cons hfirst hrest =>
          cases hrest
          rw [List.append_nil, TypedStmt.blockLabels, TypedStmt.blockLabels, List.append_nil]
          exact stmt_flows hfit s (hbody s List.mem_cons_self) (hkeeps s List.mem_cons_self) hfirst
  | s :: t :: rest, _, _, _, hbody, hkeeps, hcode => by
      cases hcode with
      | cons hfirst hrest =>
          rw [List.forall_mem_cons] at hbody hkeeps
          exact (stmt_flows hfit s hbody.1 hkeeps.1 hfirst).append
            (block_flows hfit (t :: rest) hbody.2 hkeeps.2 hrest)

theorem cases_flows {fs : List FunctionDef} {f : FunctionDef} {Γ : TypingEnv} {info : BodyInfo}
    {labels : List String} (hfit : BodyFits fs f Γ info) :
    (cases : List TypedCase) → {done : String} →
      {i n n' : Nat} → {bodies : List Statement} →
      (∀ c ∈ cases, ∀ s ∈ c.body, s.WellTyped Γ f.result labels) →
      (∀ c ∈ cases, ∀ s ∈ c.body, s.CallsKeepCount) →
      LoweredCases info done i cases n bodies n' →
      CasesFlow fs f labels done bodies (TypedStmt.caseLabels cases)
        ((caseOperands i cases).filterMap Operand.caseLabel?) (casesReturn cases)
  | [], _, _, _, _, _, _, _, hcode => by
      cases hcode
      exact .nil
  | ⟨v, body⟩ :: rest, _, _, _, _, _, hcases, hkeeps, hcode => by
      cases hcode with
      | cons hfirst hrest =>
          rw [List.forall_mem_cons] at hcases hkeeps
          exact .cons (block_flows hfit body hcases.1 hkeeps.1 hfirst)
            (cases_flows hfit rest hcases.2 hkeeps.2 hrest) _

end

/-! ## Functions -/

theorem lastReturns_of_endsInReturn {body : List TypedStmt} (h : endsInReturn body = true) :
    lastReturns body = true := by
  induction body with
  | nil => cases h
  | cons s rest ih =>
      cases rest with
      | nil =>
          cases s with
          | ret result => rw [lastReturns, TypedStmt.alwaysReturns]
          | _ => cases h
      | cons t rest => exact ih h

section
variable {fs : List FunctionDef} {p : TypedProgram} {f : TypedFunction} {d : FunctionDef}
  {before code : List Statement} {n n' : Nat}

theorem FunctionCode.fits (h : FunctionCode p f d before code n n') (hcalls : CallsFit fs p.env)
    (hsize : f.argSlots < 2 ^ 63)
    (hresult : ∀ ty, f.result = some ty → ty.isTextLabel = false) :
    BodyFits fs d (p.env.inside f.args f.locals) (infoOf (layoutOf p) f) := by
  obtain ⟨-, -, rfl⟩ := h
  exact ⟨hcalls.inside _ _, rfl, rfl, hsize, hresult⟩

/-- The end of the body can be reached only in a function without a result, which is left there. -/
theorem FunctionCode.exists_tail (h : FunctionCode p f d before code n n') (hf : f.WellTyped p.env)
    (hfit : BodyFits fs d (p.env.inside f.args f.locals) (infoOf (layoutOf p) f)) :
    ∃ tail, d.body = before ++ code ++ tail ∧
      ∀ k, lastReturns f.body = false → SafeFor fs d k ⟨tail, []⟩ := by
  refine ⟨_, by rw [h.eq], fun k hreturns => ?_⟩
  have hnone : d.result = none := by
    rw [h.eq]
    cases hsome : f.result with
    | none => rfl
    | some ty =>
        rw [hf.returns (by rw [hsome]; rfl)] at hreturns
        cases hreturns
  have hends : endsInReturn f.body = false := by
    rw [← Bool.not_eq_true]
    intro hends
    rw [lastReturns_of_endsInReturn hends] at hreturns
    cases hreturns
  rw [hends]
  apply hfit.leave
  rw [FunctionDef.resultSlots, hnone]
  rfl

theorem preludeFor_callsKeepCount (hkeeps : ∀ x, p.Uses x → x.KeepsCount) :
    ∀ s ∈ preludeFor p f, s.CallsKeepCount := by
  intro s hs x hx
  unfold preludeFor at hs
  split at hs
  case isFalse => exact absurd hs List.not_mem_nil
  case isTrue =>
      obtain ⟨storage, d, hd, hdeferred⟩ := mem_preludeOf hs
      obtain ⟨y, hinit, -, rfl⟩ := deferred_eq_some hdeferred
      cases hx with
      | source hx =>
          exact hkeeps x (.init (List.mem_append.mpr (hd.imp And.right And.right)) hinit hx)
      | target hx =>
          -- The variable itself is no call.
          rcases hd with ⟨rfl, -⟩ | ⟨rfl, -⟩
          all_goals
            cases hx
            exact trivial

/-- Every run of a function is safe, whatever labels it goes to. -/
theorem FunctionCode.safeFor (h : FunctionCode p f d before code n n') (hp : p.WellTyped)
    (hf : f ∈ p.functions) (hcalls : CallsFit fs p.env)
    (hsize : f.argSlots < 2 ^ 63)
    (hresult : ∀ ty, f.result = some ty → ty.isTextLabel = false)
    (hkeeps : ∀ x, p.Uses x → x.KeepsCount) (k : Nat) : SafeFor fs d k ⟨d.body, []⟩ := by
  have hfit := h.fits hcalls hsize hresult
  have hresultEq : d.result = f.result := by rw [h.eq]
  obtain ⟨tail, hbody, htail⟩ := h.exists_tail (hp.functions f hf) hfit
  have henters : ∀ m, Enters fs d m code tail (TypedStmt.blockLabels f.body) := by
    have hwell := (hp.functions f hf).body
    rw [← hresultEq] at hwell
    have hbodyKeeps : ∀ s ∈ f.body, s.CallsKeepCount := fun s hs x hx => hkeeps x (.body hf hs hx)
    exact (block_flows hfit f.body hwell hbodyKeeps h.body).enters hbody htail
  have hprelude : Flows fs d [] before [] (lastReturns (preludeFor p f)) := by
    have hwell : ∀ s ∈ preludeFor p f, s.WellTyped (p.env.inside f.args f.locals) f.result [] :=
      preludeFor_wellTyped hp
    rw [← hresultEq] at hwell
    have hflows := block_flows hfit (preludeFor p f) hwell (preludeFor_callsKeepCount hkeeps)
      h.prelude
    rwa [blockLabels_preludeFor] at hflows
  have hwhole : d.body = [] ++ before ++ (code ++ tail) := by
    rw [hbody, List.append_assoc, List.nil_append]
  rw [hwhole, List.nil_append]
  exact (hprelude.enters hwhole (fun m _ => (henters m).start) k).start

end
end Lowering
end GameScript
