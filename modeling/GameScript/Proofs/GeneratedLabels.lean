import GameScript.Proofs.LoweredCode

/-!
# Labels of generated code

The code of a body defines the labels of the body and, beside them, generated labels with a number
each. Numbers are never used twice. Every jump in the code goes to a label that the code defines or
to one that the function has elsewhere, and every statement has one of the forms that the assembler
can encode. All this is shown for every statement by following the rules of its code.
-/
namespace GameScript
namespace Lowering

open Statement (op pushInt mark)

def codeLabels (code : List Statement) : List String := code.filterMap Statement.label

@[simp] theorem codeLabels_nil : codeLabels [] = [] := rfl

@[simp] theorem codeLabels_append (code code' : List Statement) :
    codeLabels (code ++ code') = codeLabels code ++ codeLabels code' :=
  List.filterMap_append

@[simp] theorem codeLabels_mark (label : String) (code : List Statement) :
    codeLabels (mark label :: code) = label :: codeLabels code := rfl

@[simp] theorem codeLabels_op (o : Opcode) (operands : List Operand) (code : List Statement) :
    codeLabels (op o operands :: code) = codeLabels code := rfl

@[simp] theorem codeLabels_pushInt (v : Int) (code : List Statement) :
    codeLabels (pushInt v :: code) = codeLabels code := rfl

@[simp] theorem codeLabels_jumpTo (o : Opcode) (label : String) (code : List Statement) :
    codeLabels (jumpTo o label :: code) = codeLabels code := rfl

@[simp] theorem codeLabels_leave (info : BodyInfo) (code : List Statement) :
    codeLabels (info.leave :: code) = codeLabels code := rfl

theorem PlainCode.codeLabels {Γ : TypingEnv} {code : List Statement} (h : PlainCode Γ code) :
    codeLabels code = [] := by
  apply List.filterMap_eq_nil_iff.mpr
  intro s hs
  cases h s hs <;> rfl

def Forms (Γ : TypingEnv) (target : String → Prop) (code : List Statement) : Prop :=
  ∀ s ∈ code, s.Generated Γ target

section
variable {Γ : TypingEnv} {target : String → Prop}

theorem Forms.cons {s : Statement} {code : List Statement} (hs : s.Generated Γ target)
    (h : Forms Γ target code) : Forms Γ target (s :: code) :=
  List.forall_mem_cons.mpr ⟨hs, h⟩

theorem Forms.single {s : Statement} (hs : s.Generated Γ target) : Forms Γ target [s] :=
  .cons hs fun _ h => absurd h List.not_mem_nil

theorem Forms.append {code code' : List Statement} (h : Forms Γ target code)
    (h' : Forms Γ target code') : Forms Γ target (code ++ code') :=
  List.forall_mem_append.mpr ⟨h, h'⟩

theorem PlainCode.forms {code : List Statement} (h : PlainCode Γ code) : Forms Γ target code :=
  fun s hs => .plain (h s hs)

theorem Forms.mono {target' : String → Prop} {code : List Statement} (h : Forms Γ target code)
    (htarget : ∀ label, target label → target' label) : Forms Γ target' code :=
  fun s hs => (h s hs).mono htarget

end

/-- A generated label: what it is for and its number. -/
abbrev Fresh := String × Nat

def Fresh.text (p : Fresh) : String := freshLabel p.1 p.2

/-- Generated labels with different numbers from `n` up to but without `n'`. -/
structure Numbered (n n' : Nat) (fresh : List Fresh) : Prop where
  le : n ≤ n'
  nodup : (fresh.map Prod.snd).Nodup
  range : ∀ p ∈ fresh, n ≤ p.2 ∧ p.2 < n'

theorem Numbered.nil (n : Nat) : Numbered n n [] :=
  ⟨Nat.le_refl n, List.nodup_nil, fun _ hp => absurd hp List.not_mem_nil⟩

theorem Numbered.single (kind : String) (n : Nat) : Numbered n (n + 1) [(kind, n)] := by
  refine ⟨Nat.le_succ n, List.pairwise_singleton _ _, fun p hp => ?_⟩
  rw [List.mem_singleton.mp hp]
  exact ⟨Nat.le_refl n, Nat.lt_succ_self n⟩

theorem Numbered.append {n n₁ n' : Nat} {fresh fresh' : List Fresh}
    (h : Numbered n n₁ fresh) (h' : Numbered n₁ n' fresh') : Numbered n n' (fresh ++ fresh') := by
  have hle := h.le
  have hle' := h'.le
  constructor
  · omega
  · rw [List.map_append, List.nodup_append]
    refine ⟨h.nodup, h'.nodup, ?_⟩
    intro i hi j hj hij
    obtain ⟨p, hp, rfl⟩ := List.mem_map.mp hi
    obtain ⟨q, hq, rfl⟩ := List.mem_map.mp hj
    have hpr := h.range p hp
    have hqr := h'.range q hq
    omega
  · intro p hp
    rcases List.mem_append.mp hp with hp | hp
    · have hpr := h.range p hp
      omega
    · have hpr := h'.range p hp
      omega

theorem Numbered.perm {n n' : Nat} {fresh fresh' : List Fresh} (h : Numbered n n' fresh)
    (hperm : fresh.Perm fresh') : Numbered n n' fresh' :=
  ⟨h.le, (hperm.map Prod.snd).nodup_iff.mp h.nodup, fun p hp => h.range p (hperm.mem_iff.mpr hp)⟩

def caseNumbers (i count : Nat) : List Fresh := (List.range' i count).map fun k => ("case", k)

theorem numbered_caseNumbers (i count : Nat) : Numbered i (i + count) (caseNumbers i count) := by
  constructor
  · omega
  · rw [caseNumbers, List.map_map]
    have hid : (Prod.snd ∘ fun k : Nat => ("case", k)) = id := rfl
    rw [hid, List.map_id]
    exact List.nodup_range'
  · intro p hp
    obtain ⟨k, hk, rfl⟩ := List.mem_map.mp hp
    rw [List.mem_range'_1] at hk
    exact hk

theorem caseOperands_targets (i : Nat) (cases : List TypedCase) :
    ∀ x ∈ caseOperands i cases, ∃ v label,
      x = .case v label ∧ label ∈ (caseNumbers i cases.length).map Fresh.text := by
  induction cases generalizing i with
  | nil => exact fun x hx => absurd hx List.not_mem_nil
  | cons c cases ih =>
      obtain ⟨v, body⟩ := c
      rw [caseOperands, List.forall_mem_cons]
      have hnumbers : caseNumbers i (cases.length + 1) =
          ("case", i) :: caseNumbers (i + 1) cases.length := rfl
      rw [List.length_cons, hnumbers, List.map_cons]
      refine ⟨⟨v.toInt, _, rfl, List.mem_cons_self⟩, fun x hx => ?_⟩
      obtain ⟨w, label, hcase, hlabel⟩ := ih (i + 1) x hx
      exact ⟨w, label, hcase, List.mem_cons_of_mem _ hlabel⟩

/-- Code that defines the labels `names` and the generated labels `fresh`, and may jump to these and
to those that `target` tells. -/
structure Emits (Γ : TypingEnv) (target : String → Prop) (names : List String) (fresh : List Fresh)
    (code : List Statement) : Prop where
  forms : Forms Γ (fun label => label ∈ codeLabels code ∨ target label) code
  labels : (codeLabels code).Perm (names ++ fresh.map Fresh.text)

section
variable {Γ : TypingEnv} {target : String → Prop}

theorem PlainCode.emits {code : List Statement} (h : PlainCode Γ code) :
    Emits Γ target [] [] code :=
  ⟨h.forms, by rw [h.codeLabels]; exact .nil⟩

theorem Emits.jump {o : Opcode} {label : String} (ho : o.layout = .label) (h : target label) :
    Emits Γ target [] [] [jumpTo o label] :=
  ⟨.single (.jump ho (.inr h)), .nil⟩

theorem Emits.fresh (kind : String) (n : Nat) :
    Emits Γ target [] [(kind, n)] [mark (freshLabel kind n)] :=
  ⟨.single .mark, .refl _⟩

theorem Emits.append {names names' : List String} {fresh fresh' : List Fresh}
    {code code' : List Statement} (h : Emits Γ target names fresh code)
    (h' : Emits Γ target names' fresh' code') :
    Emits Γ target (names ++ names') (fresh ++ fresh') (code ++ code') := by
  constructor
  · rw [codeLabels_append]
    refine (h.forms.mono fun l hl => ?_).append (h'.forms.mono fun l hl => ?_)
    · exact hl.imp_left (List.mem_append_left _)
    · exact hl.imp_left (List.mem_append_right _)
  · rw [List.perm_iff_count]
    intro a
    have hcount := h.labels.count_eq a
    have hcount' := h'.labels.count_eq a
    simp only [codeLabels_append, List.map_append, List.count_append] at hcount hcount' ⊢
    omega

/-- Jumps to labels that the code itself generates need not be allowed from outside. -/
theorem Emits.close (own : List String) {names : List String} {fresh : List Fresh}
    {code : List Statement} (h : Emits Γ (fun l => l ∈ own ∨ target l) names fresh code)
    (hown : ∀ l ∈ own, l ∈ fresh.map Fresh.text) : Emits Γ target names fresh code := by
  refine ⟨h.forms.mono fun l hl => ?_, h.labels⟩
  rcases hl with hl | hl | hl
  · exact .inl hl
  · exact .inl (h.labels.mem_iff.mpr (List.mem_append_right _ (hown l hl)))
  · exact .inr hl

theorem Emits.mono {target' : String → Prop} {names : List String} {fresh : List Fresh}
    {code : List Statement} (h : Emits Γ target names fresh code)
    (htarget : ∀ l, target l → target' l) : Emits Γ target' names fresh code :=
  ⟨h.forms.mono fun _ hl => hl.imp_right (htarget _), h.labels⟩

/-- Code may be given more labels to jump to. -/
theorem Emits.open (own : List String) {names : List String} {fresh : List Fresh}
    {code : List Statement} (h : Emits Γ target names fresh code) :
    Emits Γ (fun l => l ∈ own ∨ target l) names fresh code :=
  h.mono fun _ => .inr

theorem Emits.widen {own own' : List String} {names : List String} {fresh : List Fresh}
    {code : List Statement} (h : Emits Γ (fun l => l ∈ own ∨ target l) names fresh code)
    (hown : ∀ l ∈ own, l ∈ own') : Emits Γ (fun l => l ∈ own' ∨ target l) names fresh code :=
  h.mono fun l hl => hl.imp_left (hown l)

/-- The jump table of a switch. -/
theorem Emits.switch (i : Nat) (cases : List TypedCase) {own : List String}
    (h : ∀ l ∈ (caseNumbers i cases.length).map Fresh.text, l ∈ own) :
    Emits Γ (fun l => l ∈ own ∨ target l) [] [] [op .switch (caseOperands i cases)] := by
  refine ⟨.single (.switch fun x hx => ?_), .nil⟩
  obtain ⟨v, label, hcase, hlabel⟩ := caseOperands_targets i cases x hx
  exact ⟨v, label, hcase, .inr (.inl (h label hlabel))⟩

/-- A jump to a label that is generated by the code around it. -/
theorem Emits.jumpOwn (o : Opcode) (ho : o.layout = .label) {own : List String} {label : String}
    (h : label ∈ own) : Emits Γ (fun l => l ∈ own ∨ target l) [] [] [jumpTo o label] :=
  .jump ho (.inl h)

end

/-- What is said of the code of each statement. -/
def EmitsFrom (Γ : TypingEnv) (target : String → Prop) (names : List String) (n n' : Nat)
    (code : List Statement) : Prop :=
  ∃ fresh, Numbered n n' fresh ∧ Emits Γ target names fresh code

/-- What is said of the bodies of `count` cases, which all end by a jump to `done`. The labels of
the cases are numbered from `i` on, those inside the bodies from `n` on. -/
def CasesEmitFrom (Γ : TypingEnv) (target : String → Prop) (done : String) (names : List String)
    (i count n n' : Nat) (code : List Statement) : Prop :=
  ∃ fresh bodies, Numbered n n' bodies ∧ fresh.Perm (caseNumbers i count ++ bodies) ∧
    Emits Γ (fun l => l ∈ [done] ∨ target l) names fresh code

/-! ## Code of each form -/

namespace EmitsFrom

variable {Γ : TypingEnv} {target : String → Prop} {names names' : List String} {n n₁ n' : Nat}
  {before test code code' after bodies : List Statement}

theorem plain (h : PlainCode Γ code) : EmitsFrom Γ target [] n n code := ⟨[], .nil n, h.emits⟩

theorem leave (info : BodyInfo) : EmitsFrom Γ target [] n n [info.leave] :=
  ⟨[], .nil n, .single .leave, .nil⟩

theorem append (h : EmitsFrom Γ target names n n₁ code)
    (h' : EmitsFrom Γ target names' n₁ n' code') :
    EmitsFrom Γ target (names ++ names') n n' (code ++ code') := by
  obtain ⟨fresh, hfresh, hemits⟩ := h
  obtain ⟨fresh', hfresh', hemits'⟩ := h'
  exact ⟨fresh ++ fresh', hfresh.append hfresh', hemits.append hemits'⟩

theorem ifThen (htest : PlainCode Γ test) (hbody : EmitsFrom Γ target names (n + 1) n' code) :
    EmitsFrom Γ target names n n' (test ++ [jumpTo .jumpZero (freshLabel "if_end" n)] ++ code ++
      [mark (freshLabel "if_end" n)]) := by
  obtain ⟨fresh, hfresh, hemits⟩ := hbody
  let own := [freshLabel "if_end" n]
  have hdone : freshLabel "if_end" n ∈ own := List.mem_cons_self
  have hwhole := ((htest.emits.append (.jumpOwn .jumpZero rfl hdone)).append
    (hemits.open own)).append (.fresh "if_end" n)
  refine ⟨fresh ++ [("if_end", n)],
    ((Numbered.single "if_end" n).append hfresh).perm List.perm_append_comm, .close own ?_ ?_⟩
  · simpa only [List.nil_append, List.append_nil] using hwhole
  · simp [own, Fresh.text]

theorem ifElse (htest : PlainCode Γ test) (hthen : EmitsFrom Γ target names (n + 2) n₁ code)
    (helse : EmitsFrom Γ target names' n₁ n' code') :
    EmitsFrom Γ target (names ++ names') n n'
      (test ++ [jumpTo .jumpZero (freshLabel "if_else" (n + 1))] ++ code ++
        [jumpTo .jump (freshLabel "if_end" n), mark (freshLabel "if_else" (n + 1))] ++ code' ++
        [mark (freshLabel "if_end" n)]) := by
  obtain ⟨fresh₁, hfresh₁, hemits₁⟩ := hthen
  obtain ⟨fresh₂, hfresh₂, hemits₂⟩ := helse
  let own := [freshLabel "if_end" n, freshLabel "if_else" (n + 1)]
  have hdone : freshLabel "if_end" n ∈ own := List.mem_cons_self
  have hother : freshLabel "if_else" (n + 1) ∈ own := List.mem_cons_of_mem _ List.mem_cons_self
  have hwhole := ((((htest.emits.append (.jumpOwn .jumpZero rfl hother)).append
    (hemits₁.open own)).append
    ((Emits.jumpOwn .jump rfl hdone).append (.fresh "if_else" (n + 1)))).append
    (hemits₂.open own)).append (.fresh "if_end" n)
  have hnumbered := (((Numbered.single "if_end" n).append
    (Numbered.single "if_else" (n + 1))).append hfresh₁).append hfresh₂
  refine ⟨fresh₁ ++ [("if_else", n + 1)] ++ fresh₂ ++ [("if_end", n)], hnumbered.perm ?_,
    .close own ?_ ?_⟩
  · rw [List.perm_iff_count]
    intro a
    simp only [List.count_append]
    omega
  · simpa only [List.nil_append, List.append_nil, List.cons_append] using hwhole
  · simp [own, Fresh.text]

/-- Both kinds of loops. Code runs before the loop, before each test and after each round. -/
theorem loop (start stop : String) (hbefore : PlainCode Γ before) (htest : PlainCode Γ test)
    (hbody : EmitsFrom Γ target names (n + 2) n' code) (hafter : PlainCode Γ after) :
    EmitsFrom Γ target names n n'
      (before ++ [mark (freshLabel start n)] ++ test ++
        [jumpTo .jumpZero (freshLabel stop (n + 1))] ++
        code ++ after ++ [jumpTo .jump (freshLabel start n), mark (freshLabel stop (n + 1))]) := by
  obtain ⟨fresh, hfresh, hemits⟩ := hbody
  let own := [freshLabel start n, freshLabel stop (n + 1)]
  have hstart : freshLabel start n ∈ own := List.mem_cons_self
  have hstop : freshLabel stop (n + 1) ∈ own := List.mem_cons_of_mem _ List.mem_cons_self
  have hwhole := (((((hbefore.emits.append (.fresh start n)).append htest.emits).append
    (.jumpOwn .jumpZero rfl hstop)).append (hemits.open own)).append hafter.emits).append
    ((Emits.jumpOwn .jump rfl hstart).append (.fresh stop (n + 1)))
  have hnumbered := ((Numbered.single start n).append (Numbered.single stop (n + 1))).append hfresh
  refine ⟨(start, n) :: fresh ++ [(stop, n + 1)], hnumbered.perm ?_, .close own ?_ ?_⟩
  · rw [List.perm_iff_count]
    intro a
    simp only [List.count_append, List.cons_append, List.nil_append, List.count_cons,
      List.count_nil]
    omega
  · simpa only [List.nil_append, List.append_nil, List.cons_append] using hwhole
  · simp [own, Fresh.text]

theorem whileLoop (htest : PlainCode Γ test) (hbody : EmitsFrom Γ target names (n + 2) n' code) :
    EmitsFrom Γ target names n n'
      ([mark (freshLabel "while_begin" n)] ++ test ++
        [jumpTo .jumpZero (freshLabel "while_end" (n + 1))] ++ code ++
        [jumpTo .jump (freshLabel "while_begin" n), mark (freshLabel "while_end" (n + 1))]) := by
  have hloop := loop "while_begin" "while_end" .nil htest hbody .nil
  simpa only [List.nil_append, List.append_nil] using hloop

theorem repeatLoop {place current bound : List Statement} (hplace : PlainCode Γ place)
    (hcurrent : PlainCode Γ current) (hbound : PlainCode Γ bound)
    (hbody : EmitsFrom Γ target names (n + 2) n' code) :
    EmitsFrom Γ target names n n'
      ([pushInt 0] ++ place ++ [op .store, mark (freshLabel "repeat_begin" n)] ++ current ++
        bound ++ [op .ilt, jumpTo .jumpZero (freshLabel "repeat_end" (n + 1))] ++ code ++ current ++
        [pushInt 1, op .iadd] ++ place ++
        [op .store, jumpTo .jump (freshLabel "repeat_begin" n),
          mark (freshLabel "repeat_end" (n + 1))]) := by
  have hstore : PlainCode Γ [op .store] := .single (.op rfl)
  have hzero : PlainCode Γ [pushInt 0] := .single .pushInt
  have hless : PlainCode Γ [op .ilt] := .single (.op rfl)
  have hone : PlainCode Γ [pushInt 1, op .iadd] := .cons .pushInt (.single (.op rfl))
  have hloop := loop "repeat_begin" "repeat_end" ((hzero.append hplace).append hstore)
    ((hcurrent.append hbound).append hless) hbody
      (((hcurrent.append hone).append hplace).append hstore)
  simpa only [List.append_assoc, List.cons_append, List.nil_append] using hloop

/-- The labels of the cases are among those that the bodies define. -/
theorem mem_text_of_caseNumbers {i count : Nat} {fresh inner : List Fresh}
    (hperm : fresh.Perm (caseNumbers i count ++ inner)) {label : String}
    (h : label ∈ (caseNumbers i count).map Fresh.text) : label ∈ fresh.map Fresh.text := by
  rw [(hperm.map Fresh.text).mem_iff, List.map_append]
  exact List.mem_append_left _ h

theorem switch (cases : List TypedCase) (htest : PlainCode Γ test)
    (hbodies : CasesEmitFrom Γ target (freshLabel "switch_end" n) names (n + 1) cases.length
      (n + 1 + cases.length) n' bodies) :
    EmitsFrom Γ target names n n'
      (test ++
        [op .switch (caseOperands (n + 1) cases), jumpTo .jump (freshLabel "switch_end" n)] ++
        bodies ++ [mark (freshLabel "switch_end" n)]) := by
  obtain ⟨fresh, inner, hinner, hperm, hemits⟩ := hbodies
  let own := freshLabel "switch_end" n :: (caseNumbers (n + 1) cases.length).map Fresh.text
  have hdone : freshLabel "switch_end" n ∈ own := List.mem_cons_self
  have htable : Emits Γ (fun l => l ∈ own ∨ target l) [] []
      [op .switch (caseOperands (n + 1) cases)] :=
    .switch (n + 1) cases fun l hl => List.mem_cons_of_mem _ hl
  have hwhole := ((htest.emits.append (htable.append (.jumpOwn .jump rfl hdone))).append
    (hemits.widen (List.forall_mem_singleton.mpr hdone))).append (.fresh "switch_end" n)
  have hnumbered := ((Numbered.single "switch_end" n).append
    (numbered_caseNumbers (n + 1) cases.length)).append hinner
  refine ⟨fresh ++ [("switch_end", n)], hnumbered.perm ?_, .close own ?_ ?_⟩
  · rw [List.perm_iff_count]
    intro a
    have hcount := hperm.count_eq a
    simp only [List.count_append] at hcount ⊢
    omega
  · simpa only [List.nil_append, List.append_nil, List.cons_append] using hwhole
  · intro l hl
    simp only [own, List.mem_cons, List.map_append, List.mem_append] at hl ⊢
    rcases hl with rfl | hl
    · exact .inr List.mem_cons_self
    · exact .inl (mem_text_of_caseNumbers hperm hl)

theorem switchDefault (cases : List TypedCase) (htest : PlainCode Γ test)
    (hbodies : CasesEmitFrom Γ target (freshLabel "switch_end" n) names (n + 1) cases.length
      (n + 1 + cases.length + 1) n₁ bodies)
    (hdefault : EmitsFrom Γ target names' n₁ n' code) :
    EmitsFrom Γ target (names ++ names') n n'
      (test ++ [op .switch (caseOperands (n + 1) cases),
          jumpTo .jump (freshLabel "switch_default" (n + 1 + cases.length))] ++ bodies ++
        [mark (freshLabel "switch_default" (n + 1 + cases.length))] ++ code ++
        [mark (freshLabel "switch_end" n)]) := by
  obtain ⟨fresh, inner, hinner, hperm, hemits⟩ := hbodies
  obtain ⟨fresh', hfresh', hemits'⟩ := hdefault
  let otherwise := freshLabel "switch_default" (n + 1 + cases.length)
  let own :=
    freshLabel "switch_end" n :: otherwise :: (caseNumbers (n + 1) cases.length).map Fresh.text
  have hdone : freshLabel "switch_end" n ∈ own := List.mem_cons_self
  have hotherwise : otherwise ∈ own := List.mem_cons_of_mem _ List.mem_cons_self
  have htable : Emits Γ (fun l => l ∈ own ∨ target l) [] []
      [op .switch (caseOperands (n + 1) cases)] :=
    .switch (n + 1) cases fun l hl => List.mem_cons_of_mem _ (List.mem_cons_of_mem _ hl)
  have hwhole := ((((htest.emits.append (htable.append (.jumpOwn .jump rfl hotherwise))).append
    (hemits.widen (List.forall_mem_singleton.mpr hdone))).append
    (.fresh "switch_default" (n + 1 + cases.length))).append (hemits'.open own)).append
    (.fresh "switch_end" n)
  have hnumbered := ((((Numbered.single "switch_end" n).append
    (numbered_caseNumbers (n + 1) cases.length)).append
    (Numbered.single "switch_default" _)).append hinner).append hfresh'
  refine ⟨fresh ++ [("switch_default", n + 1 + cases.length)] ++ fresh' ++ [("switch_end", n)],
    hnumbered.perm ?_, .close own ?_ ?_⟩
  · rw [List.perm_iff_count]
    intro a
    have hcount := hperm.count_eq a
    simp only [List.count_append] at hcount ⊢
    omega
  · simpa only [List.nil_append, List.append_nil, List.cons_append] using hwhole
  · intro l hl
    simp only [own, List.mem_cons, List.map_append, List.mem_append] at hl ⊢
    rcases hl with rfl | rfl | hl
    · exact .inr List.mem_cons_self
    · exact .inl (.inl (.inr List.mem_cons_self))
    · exact .inl (.inl (.inl (mem_text_of_caseNumbers hperm hl)))

end EmitsFrom

namespace CasesEmitFrom

variable {Γ : TypingEnv} {target : String → Prop} {done : String} {names names' : List String}
  {i count n n₁ n' : Nat} {code code' : List Statement}

theorem nil : CasesEmitFrom Γ target done [] i 0 n n [] :=
  ⟨[], [], .nil n, .nil, PlainCode.nil.emits⟩

theorem cons (h : EmitsFrom Γ target names n n₁ code)
    (h' : CasesEmitFrom Γ target done names' (i + 1) count n₁ n' code') :
    CasesEmitFrom Γ target done (names ++ names') i (count + 1) n n'
      ([mark (freshLabel "case" i)] ++ code ++ [jumpTo .jump done] ++ code') := by
  obtain ⟨fresh, hfresh, hemits⟩ := h
  obtain ⟨fresh', inner, hinner, hperm, hemits'⟩ := h'
  have hdone : done ∈ [done] := List.mem_cons_self
  have hwhole := (((Emits.fresh "case" i).append (hemits.open [done])).append
    (.jumpOwn .jump rfl hdone)).append hemits'
  refine ⟨("case", i) :: fresh ++ fresh', fresh ++ inner, hfresh.append hinner, ?_, ?_⟩
  · have hnumbers : caseNumbers i (count + 1) = ("case", i) :: caseNumbers (i + 1) count := rfl
    rw [hnumbers, List.perm_iff_count]
    intro a
    have hcount := hperm.count_eq a
    simp only [List.count_append, List.cons_append, List.count_cons] at hcount ⊢
    omega
  · simpa only [List.nil_append, List.append_nil, List.cons_append] using hwhole

end CasesEmitFrom

/-! ## Code of every statement -/

mutual

theorem lowered_emits {Γ : TypingEnv} {info : BodyInfo} (hlayout : info.layout.Covers Γ)
    {result : Option Ty} {labels : List String} :
    (s : TypedStmt) → {n n' : Nat} → {code : List Statement} → s.WellTyped Γ result labels →
      Lowered info s n code n' → EmitsFrom Γ (· ∈ labels) s.labels n n' code
  | .assign _ _, _, _, _, .assign hx hlvalue hy _, .assign hcode =>
      .plain ((store_succeeds hlayout hx hlvalue hy).plain hcode)
  | .defaultInit x, _, _, _, .defaultInit hx hlvalue, .defaultInit hplace => by
      have hplain := (address_succeeds hlayout x hx hlvalue).plain hplace
      exact .plain ((hplain.append (plain_initInPlace x.ty)).append (.single (.op rfl)))
  | .cond c thenBody _, _, _, _, .cond hc _ hthen _, .ifThen htest hbody => by
      rw [TypedStmt.labels, TypedStmt.blockLabels, List.append_nil]
      exact .ifThen ((value_succeeds hlayout c hc).plain htest)
        (block_emits hlayout thenBody hthen hbody)
  | .cond c thenBody elseBody, _, _, _, .cond hc _ hthen helse, .ifElse _ htest hfirst hsecond =>
      .ifElse ((value_succeeds hlayout c hc).plain htest)
        (block_emits hlayout thenBody hthen hfirst) (block_emits hlayout elseBody helse hsecond)
  | .whileLoop c body, _, _, _, .whileLoop hc _ hbody, .whileLoop htest hcode =>
      .whileLoop ((value_succeeds hlayout c hc).plain htest) (block_emits hlayout body hbody hcode)
  | .repeatLoop limit counter body, _, _, _, .repeatLoop hl _ hc _ hlvalue hbody,
      .repeatLoop hplace hcurrent hbound hcode =>
      .repeatLoop ((address_succeeds hlayout counter hc hlvalue).plain hplace)
        ((load_succeeds hlayout hc hlvalue).plain hcurrent)
        ((value_succeeds hlayout limit hl).plain hbound) (block_emits hlayout body hbody hcode)
  | .switch x cases none, _, _, _, .switch hx _ _ hcases _, .switch hselector hbodies => by
      rw [TypedStmt.labels, List.append_nil]
      exact .switch cases ((value_succeeds hlayout x hx).plain hselector)
        (cases_emits hlayout cases hcases hbodies)
  | .switch x cases (some default), _, _, _, .switch hx _ _ hcases hdefault,
      .switchDefault hselector hbodies hcode =>
      .switchDefault cases ((value_succeeds hlayout x hx).plain hselector)
        (cases_emits hlayout cases hcases hbodies)
        (block_emits hlayout default (hdefault default rfl) hcode)
  | .ret none, _, _, _, _, .leave => .leave info
  | .ret (some x), _, _, _, .ret hx _ _, .ret hcode =>
      (EmitsFrom.plain ((value_succeeds hlayout x hx).plain hcode)).append (.leave info)
  | .expr x, _, _, _, .expr hx _, .expr hcode =>
      .plain (((value_succeeds hlayout x hx).plain hcode).append (plain_drops x.ty.slots))
  | .label _, n, _, _, _, .label => ⟨[], .nil n, ⟨.single .mark, .refl _⟩⟩
  | .goto _, n, _, _, .goto hname, .goto => ⟨[], .nil n, .jump rfl hname⟩
  | .block body, _, _, _, .block hs, .block hbody => block_emits hlayout body hs hbody

theorem block_emits {Γ : TypingEnv} {info : BodyInfo} (hlayout : info.layout.Covers Γ)
    {result : Option Ty} {labels : List String} :
    (body : List TypedStmt) → {n n' : Nat} → {code : List Statement} →
      (∀ s ∈ body, s.WellTyped Γ result labels) → LoweredBlock info body n code n' →
        EmitsFrom Γ (· ∈ labels) (TypedStmt.blockLabels body) n n' code
  | [], n, n', code, _, h => by
      cases h with
      | nil => exact .plain .nil
  | s :: rest, n, n', code, hs, h => by
      rw [List.forall_mem_cons] at hs
      cases h with
      | cons hfirst hmore =>
          rw [TypedStmt.blockLabels]
          exact (lowered_emits hlayout s hs.1 hfirst).append (block_emits hlayout rest hs.2 hmore)

theorem cases_emits {Γ : TypingEnv} {info : BodyInfo} (hlayout : info.layout.Covers Γ)
    {result : Option Ty} {labels : List String} {done : String} :
    (cases : List TypedCase) → {i n n' : Nat} → {code : List Statement} →
      (∀ c ∈ cases, ∀ s ∈ c.body, s.WellTyped Γ result labels) →
      LoweredCases info done i cases n code n' →
        CasesEmitFrom Γ (· ∈ labels) done (TypedStmt.caseLabels cases) i cases.length n n' code
  | [], i, n, n', code, _, h => by
      cases h with
      | nil => exact .nil
  | ⟨v, body⟩ :: rest, i, n, n', code, hs, h => by
      rw [List.forall_mem_cons] at hs
      cases h with
      | cons hfirst hmore =>
          rw [TypedStmt.caseLabels]
          exact .cons (block_emits hlayout body hs.1 hfirst) (cases_emits hlayout rest hs.2 hmore)

end

end Lowering
end GameScript
