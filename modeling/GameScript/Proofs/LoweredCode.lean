import Mathlib.Algebra.Group.Nat.Defs
import GameScript.Proofs.LoweringTotal

/-!
# The shape of generated code

The code of expressions and statements is described here by relations, one rule for each form, so
that facts about generated code can be shown rule by rule. Code that is generated always satisfies
the relations, and for well-typed statements some code is always generated.
-/
namespace GameScript
namespace Lowering

open Statement (op pushInt mark)

/-- A number of slots is the operand for it, if that is less than half of what 64 bits count. -/
theorem slotsOperand_eq_iff {n : Nat} : slotsOperand n = .int n ↔ n < 2 ^ 63 := by
  have hcut : (Int64.ofNat n).toInt = Int.bmod n (2 ^ 64) := Int64.toInt_ofNat'
  rw [slotsOperand, hcut, Operand.int.injEq, Int.bmod_def]
  split <;> omega

/-! ## Expressions -/

mutual

/-- The code that pushes the address of an expression. -/
inductive AddressCode (layout : DataLayout) : TypedExpr → List Statement → Prop where
  | frame {ty span slot} : AddressCode layout (.frame ty span slot) (frameAddress slot)
  | static {ty span name slot} : DataLayout.slot layout.statics "static" name = .ok slot →
      AddressCode layout (.static ty span name) [pushInt slot, op .static]
  | global {ty span name slot} : DataLayout.slot layout.globals "global" name = .ok slot →
      AddressCode layout (.global ty span name) [pushInt slot, op .global]
  | field {ty span x slots place} : AddressCode layout x place →
      AddressCode layout (.field ty span x slots) (place ++ offset slots)
  | index {ty span x i itemSlots first place} : ValueCode layout i first →
      AddressCode layout x place →
      AddressCode layout (.index ty span x i itemSlots)
        (first ++ place ++ [pushInt itemSlots.toNat, op .array])

/-- The code that pushes the value of an expression. Whatever has an address is read from there. -/
inductive ValueCode (layout : DataLayout) : TypedExpr → List Statement → Prop where
  | const {ty span v} : ValueCode layout (.const ty span v) (literal v)
  | string {ty span s} : ValueCode layout (.string ty span s) [op .string [.text s]]
  | load {x place} : AddressCode layout x place →
      ValueCode layout x (loadFrom x.ty.slots place)
  | intToFloat {ty span x code} : ValueCode layout x code →
      ValueCode layout (.convert ty span .intToFloat x) (code ++ [op .intToFloat])
  | floatToVector {ty span x code} : ValueCode layout x code →
      ValueCode layout (.convert ty span .floatToVector x) (code ++ [op .floatToVector])
  | labelToString {ty span x place} : AddressCode layout x place →
      ValueCode layout (.convert ty span .labelToString x) place
  | unary {ty span o x code} : ValueCode layout x code →
      ValueCode layout (.unary ty span o x) (code ++ [op (unaryOpcode o x.ty)])
  | binary {ty span o x y left right s} : ValueCode layout x left → ValueCode layout y right →
      binaryOp o x.ty = .ok s → ValueCode layout (.binary ty span o x y) (left ++ right ++ [s])
  | call {ty span name args code} : ValuesCode layout args code →
      ValueCode layout (.call ty span name args) (code ++ [op .call [.ident name]])
  | native {ty span name args argSlots resultSlots code} : ValuesCode layout args code →
      ValueCode layout (.native ty span name args argSlots resultSlots)
        (code ++ [op .native [.int argSlots.toNat, .int resultSlots.toNat, .ident name]])
  | vector {ty span x y z cx cy cz} : ValueCode layout x cx → ValueCode layout y cy →
      ValueCode layout z cz → ValueCode layout (.vector ty span x y z) (cx ++ cy ++ cz)

inductive ValuesCode (layout : DataLayout) : List TypedExpr → List Statement → Prop where
  | nil : ValuesCode layout [] []
  | cons {x rest first more} : ValueCode layout x first → ValuesCode layout rest more →
      ValuesCode layout (x :: rest) (first ++ more)

end

mutual

/-- Generated addresses and values have the described shape. -/
theorem addressCode_of_ok {layout : DataLayout} : (x : TypedExpr) → {code : List Statement} →
    address layout x = .ok code → AddressCode layout x code
  | .frame ty span slot, code, h => by
      rw [address] at h
      cases h
      exact .frame
  | .static ty span name, code, h => by
      rw [address] at h
      obtain ⟨slot, hslot, ⟨⟩⟩ := bind_eq_ok.mp h
      exact .static hslot
  | .global ty span name, code, h => by
      rw [address] at h
      obtain ⟨slot, hslot, ⟨⟩⟩ := bind_eq_ok.mp h
      exact .global hslot
  | .field ty span target slots, code, h => by
      rw [address] at h
      obtain ⟨place, hplace, ⟨⟩⟩ := bind_eq_ok.mp h
      exact .field (addressCode_of_ok target hplace)
  | .index ty span target index itemSlots, code, h => by
      rw [address] at h
      obtain ⟨first, hfirst, h⟩ := bind_eq_ok.mp h
      obtain ⟨place, hplace, ⟨⟩⟩ := bind_eq_ok.mp h
      exact .index (valueCode_of_ok index hfirst) (addressCode_of_ok target hplace)

theorem valueCode_of_ok {layout : DataLayout} : (x : TypedExpr) → {code : List Statement} →
    value layout x = .ok code → ValueCode layout x code
  | .const ty span v, code, h => by
      rw [value] at h
      cases h
      exact .const
  | .string ty span s, code, h => by
      rw [value] at h
      cases h
      exact .string
  | .frame ty span slot, code, h => by
      rw [value] at h
      cases h
      exact .load .frame
  | .static ty span name, code, h => by
      rw [value] at h
      obtain ⟨slot, hslot, ⟨⟩⟩ := bind_eq_ok.mp h
      exact .load (.static hslot)
  | .global ty span name, code, h => by
      rw [value] at h
      obtain ⟨slot, hslot, ⟨⟩⟩ := bind_eq_ok.mp h
      exact .load (.global hslot)
  | .field ty span target slots, code, h => by
      rw [value] at h
      obtain ⟨place, hplace, ⟨⟩⟩ := bind_eq_ok.mp h
      exact .load (.field (addressCode_of_ok target hplace))
  | .index ty span target index itemSlots, code, h => by
      rw [value] at h
      obtain ⟨first, hfirst, h⟩ := bind_eq_ok.mp h
      obtain ⟨place, hplace, ⟨⟩⟩ := bind_eq_ok.mp h
      exact .load (.index (valueCode_of_ok index hfirst) (addressCode_of_ok target hplace))
  | .convert ty span .intToFloat x, code, h => by
      rw [value] at h
      obtain ⟨first, hfirst, ⟨⟩⟩ := bind_eq_ok.mp h
      exact .intToFloat (valueCode_of_ok x hfirst)
  | .convert ty span .floatToVector x, code, h => by
      rw [value] at h
      obtain ⟨first, hfirst, ⟨⟩⟩ := bind_eq_ok.mp h
      exact .floatToVector (valueCode_of_ok x hfirst)
  | .convert ty span .labelToString x, code, h => by
      rw [value] at h
      exact .labelToString (addressCode_of_ok x h)
  | .unary ty span o x, code, h => by
      rw [value] at h
      obtain ⟨first, hfirst, ⟨⟩⟩ := bind_eq_ok.mp h
      exact .unary (valueCode_of_ok x hfirst)
  | .binary ty span o x y, code, h => by
      rw [value] at h
      obtain ⟨first, hfirst, h⟩ := bind_eq_ok.mp h
      obtain ⟨second, hsecond, h⟩ := bind_eq_ok.mp h
      obtain ⟨s, hs, ⟨⟩⟩ := bind_eq_ok.mp h
      exact .binary (valueCode_of_ok x hfirst) (valueCode_of_ok y hsecond) hs
  | .call ty span name args, code, h => by
      rw [value] at h
      obtain ⟨first, hfirst, ⟨⟩⟩ := bind_eq_ok.mp h
      exact .call (valuesCode_of_ok args hfirst)
  | .native ty span name args argSlots resultSlots, code, h => by
      rw [value] at h
      obtain ⟨first, hfirst, ⟨⟩⟩ := bind_eq_ok.mp h
      exact .native (valuesCode_of_ok args hfirst)
  | .vector ty span x y z, code, h => by
      rw [value] at h
      obtain ⟨cx, hcx, h⟩ := bind_eq_ok.mp h
      obtain ⟨cy, hcy, h⟩ := bind_eq_ok.mp h
      obtain ⟨cz, hcz, ⟨⟩⟩ := bind_eq_ok.mp h
      exact .vector (valueCode_of_ok x hcx) (valueCode_of_ok y hcy) (valueCode_of_ok z hcz)

theorem valuesCode_of_ok {layout : DataLayout} : (xs : List TypedExpr) →
    {code : List Statement} → values layout xs = .ok code → ValuesCode layout xs code
  | [], code, h => by
      rw [values] at h
      cases h
      exact .nil
  | x :: rest, code, h => by
      rw [values] at h
      obtain ⟨first, hfirst, h⟩ := bind_eq_ok.mp h
      obtain ⟨more, hmore, ⟨⟩⟩ := bind_eq_ok.mp h
      exact .cons (valueCode_of_ok x hfirst) (valuesCode_of_ok rest hmore)

end

/-! ## Statements -/

mutual

/-- `Lowered info s n code n'`: the code of `s`, whose generated labels have the numbers from `n` up
to but without `n'`. -/
inductive Lowered (info : BodyInfo) : TypedStmt → Nat → List Statement → Nat → Prop where
  | assign {x y n code} : store info.layout x y = .ok code → Lowered info (.assign x y) n code n
  | defaultInit {x n place} : address info.layout x = .ok place →
      Lowered info (.defaultInit x) n (place ++ initInPlace x.ty ++ [op .drop]) n
  | ifThen {c thenBody n n' test body} : value info.layout c = .ok test →
      LoweredBlock info thenBody (n + 1) body n' →
      Lowered info (.cond c thenBody []) n
        (test ++ [jumpTo .jumpZero (freshLabel "if_end" n)] ++ body ++
          [mark (freshLabel "if_end" n)]) n'
  | ifElse {c thenBody elseBody n n₁ n' test first second} : elseBody ≠ [] →
      value info.layout c = .ok test → LoweredBlock info thenBody (n + 2) first n₁ →
      LoweredBlock info elseBody n₁ second n' →
      Lowered info (.cond c thenBody elseBody) n
        (test ++ [jumpTo .jumpZero (freshLabel "if_else" (n + 1))] ++ first ++
          [jumpTo .jump (freshLabel "if_end" n), mark (freshLabel "if_else" (n + 1))] ++ second ++
          [mark (freshLabel "if_end" n)]) n'
  | whileLoop {c body n n' test code} : value info.layout c = .ok test →
      LoweredBlock info body (n + 2) code n' →
      Lowered info (.whileLoop c body) n
        ([mark (freshLabel "while_begin" n)] ++ test ++
          [jumpTo .jumpZero (freshLabel "while_end" (n + 1))] ++ code ++
          [jumpTo .jump (freshLabel "while_begin" n), mark (freshLabel "while_end" (n + 1))]) n'
  | repeatLoop {limit counter body n n' place current bound code} :
      address info.layout counter = .ok place → load info.layout counter = .ok current →
      value info.layout limit = .ok bound → LoweredBlock info body (n + 2) code n' →
      Lowered info (.repeatLoop limit counter body) n
        ([pushInt 0] ++ place ++ [op .store, mark (freshLabel "repeat_begin" n)] ++
          current ++ bound ++
          [op .ilt, jumpTo .jumpZero (freshLabel "repeat_end" (n + 1))] ++ code ++ current ++
          [pushInt 1, op .iadd] ++ place ++
          [op .store, jumpTo .jump (freshLabel "repeat_begin" n),
            mark (freshLabel "repeat_end" (n + 1))]) n'
  | switch {x cases n n' selector bodies} : value info.layout x = .ok selector →
      LoweredCases info (freshLabel "switch_end" n) (n + 1) cases (n + 1 + cases.length) bodies n' →
      Lowered info (.switch x cases none) n
        (selector ++ [op .switch (caseOperands (n + 1) cases),
          jumpTo .jump (freshLabel "switch_end" n)] ++ bodies ++
          [mark (freshLabel "switch_end" n)]) n'
  | switchDefault {x cases default n n₁ n' selector bodies code} :
      value info.layout x = .ok selector →
      LoweredCases info (freshLabel "switch_end" n) (n + 1) cases (n + 1 + cases.length + 1)
        bodies n₁ →
      LoweredBlock info default n₁ code n' →
      Lowered info (.switch x cases (some default)) n
        (selector ++ [op .switch (caseOperands (n + 1) cases),
          jumpTo .jump (freshLabel "switch_default" (n + 1 + cases.length))] ++ bodies ++
          [mark (freshLabel "switch_default" (n + 1 + cases.length))] ++ code ++
          [mark (freshLabel "switch_end" n)]) n'
  | leave {n} : Lowered info (.ret none) n [info.leave] n
  | ret {x n code} : value info.layout x = .ok code →
      Lowered info (.ret (some x)) n (code ++ [info.leave]) n
  | expr {x n code} : value info.layout x = .ok code →
      Lowered info (.expr x) n (code ++ List.replicate x.ty.slots (op .drop)) n
  | label {name n} : Lowered info (.label name) n [mark name] n
  | goto {name n} : Lowered info (.goto name) n [jumpTo .jump name] n
  | block {body n n' code} : LoweredBlock info body n code n' →
      Lowered info (.block body) n code n'

inductive LoweredBlock (info : BodyInfo) : List TypedStmt → Nat → List Statement → Nat → Prop where
  | nil {n} : LoweredBlock info [] n [] n
  | cons {s rest n n₁ n' first more} : Lowered info s n first n₁ →
      LoweredBlock info rest n₁ more n' → LoweredBlock info (s :: rest) n (first ++ more) n'

/-- The bodies of cases that go on at `done`; the label of the first has number `i`. -/
inductive LoweredCases (info : BodyInfo) :
    String → Nat → List TypedCase → Nat → List Statement → Nat → Prop where
  | nil {done i n} : LoweredCases info done i [] n [] n
  | cons {done i v body rest n n₁ n' first more} : LoweredBlock info body n first n₁ →
      LoweredCases info done (i + 1) rest n₁ more n' →
      LoweredCases info done i (⟨v, body⟩ :: rest) n
        ([mark (freshLabel "case" i)] ++ first ++ [jumpTo .jump done] ++ more) n'

end

mutual

/-- Generated code has the described shape. -/
theorem lowered_of_stmt {info : BodyInfo} : (s : TypedStmt) → {n n' : Nat} →
    {code : List Statement} → stmt info s n = .ok (code, n') → Lowered info s n code n'
  | .assign x y, n, n', code, h => by
      rw [stmt] at h
      obtain ⟨c, hc, ⟨⟩⟩ := bind_eq_ok.mp h
      exact .assign hc
  | .defaultInit x, n, n', code, h => by
      rw [stmt] at h
      obtain ⟨place, hplace, ⟨⟩⟩ := bind_eq_ok.mp h
      exact .defaultInit hplace
  | .cond c thenBody [], n, n', code, h => by
      rw [stmt] at h
      obtain ⟨test, htest, h⟩ := bind_eq_ok.mp h
      obtain ⟨⟨body, m⟩, hbody, ⟨⟩⟩ := bind_eq_ok.mp h
      exact .ifThen htest (lowered_of_block thenBody hbody)
  | .cond c thenBody (s :: rest), n, n', code, h => by
      rw [stmt] at h
      obtain ⟨test, htest, h⟩ := bind_eq_ok.mp h
      obtain ⟨⟨first, n₁⟩, hfirst, h⟩ := bind_eq_ok.mp h
      obtain ⟨⟨second, m⟩, hsecond, ⟨⟩⟩ := bind_eq_ok.mp h
      exact .ifElse (List.cons_ne_nil s rest) htest (lowered_of_block thenBody hfirst)
        (lowered_of_block (s :: rest) hsecond)
  | .whileLoop c body, n, n', code, h => by
      rw [stmt] at h
      obtain ⟨test, htest, h⟩ := bind_eq_ok.mp h
      obtain ⟨⟨b, m⟩, hb, ⟨⟩⟩ := bind_eq_ok.mp h
      exact .whileLoop htest (lowered_of_block body hb)
  | .repeatLoop limit counter body, n, n', code, h => by
      rw [stmt] at h
      obtain ⟨place, hplace, h⟩ := bind_eq_ok.mp h
      obtain ⟨current, hcurrent, h⟩ := bind_eq_ok.mp h
      obtain ⟨bound, hbound, h⟩ := bind_eq_ok.mp h
      obtain ⟨⟨b, m⟩, hb, ⟨⟩⟩ := bind_eq_ok.mp h
      exact .repeatLoop hplace hcurrent hbound (lowered_of_block body hb)
  | .switch x cases none, n, n', code, h => by
      rw [stmt] at h
      obtain ⟨selector, hselector, h⟩ := bind_eq_ok.mp h
      obtain ⟨⟨bodies, m⟩, hbodies, ⟨⟩⟩ := bind_eq_ok.mp h
      exact .switch hselector (lowered_of_caseBodies cases hbodies)
  | .switch x cases (some default), n, n', code, h => by
      rw [stmt] at h
      obtain ⟨selector, hselector, h⟩ := bind_eq_ok.mp h
      obtain ⟨⟨bodies, n₁⟩, hbodies, h⟩ := bind_eq_ok.mp h
      obtain ⟨⟨b, m⟩, hb, ⟨⟩⟩ := bind_eq_ok.mp h
      exact .switchDefault hselector (lowered_of_caseBodies cases hbodies)
        (lowered_of_block default hb)
  | .ret none, n, n', code, h => by
      rw [stmt] at h
      cases h
      exact .leave
  | .ret (some x), n, n', code, h => by
      rw [stmt] at h
      obtain ⟨c, hc, ⟨⟩⟩ := bind_eq_ok.mp h
      exact .ret hc
  | .expr x, n, n', code, h => by
      rw [stmt] at h
      obtain ⟨c, hc, ⟨⟩⟩ := bind_eq_ok.mp h
      exact .expr hc
  | .label name, n, n', code, h => by
      rw [stmt] at h
      cases h
      exact .label
  | .goto name, n, n', code, h => by
      rw [stmt] at h
      cases h
      exact .goto
  | .block body, n, n', code, h => by
      rw [stmt] at h
      exact .block (lowered_of_block body h)

theorem lowered_of_block {info : BodyInfo} : (body : List TypedStmt) → {n n' : Nat} →
    {code : List Statement} → block info body n = .ok (code, n') → LoweredBlock info body n code n'
  | [], n, n', code, h => by
      rw [block] at h
      cases h
      exact .nil
  | s :: rest, n, n', code, h => by
      rw [block] at h
      obtain ⟨⟨first, n₁⟩, hfirst, h⟩ := bind_eq_ok.mp h
      obtain ⟨⟨more, m⟩, hmore, ⟨⟩⟩ := bind_eq_ok.mp h
      exact .cons (lowered_of_stmt s hfirst) (lowered_of_block rest hmore)

theorem lowered_of_caseBodies {info : BodyInfo} {done : String} : (cases : List TypedCase) →
    {i n n' : Nat} → {code : List Statement} → caseBodies info done i cases n = .ok (code, n') →
      LoweredCases info done i cases n code n'
  | [], i, n, n', code, h => by
      rw [caseBodies] at h
      cases h
      exact .nil
  | ⟨v, body⟩ :: rest, i, n, n', code, h => by
      rw [caseBodies] at h
      obtain ⟨⟨first, n₁⟩, hfirst, h⟩ := bind_eq_ok.mp h
      obtain ⟨⟨more, m⟩, hmore, ⟨⟩⟩ := bind_eq_ok.mp h
      exact .cons (lowered_of_block body hfirst) (lowered_of_caseBodies rest hmore)

end

mutual

/-- For a well-typed statement code is generated. -/
theorem stmt_succeeds {Γ : TypingEnv} {info : BodyInfo} {result : Option Ty} {labels : List String}
    (hlayout : info.layout.Covers Γ) : (s : TypedStmt) → s.WellTyped Γ result labels → (n : Nat) →
      ∃ p, stmt info s n = .ok p
  | .assign x y, hs, n => by
      rw [stmt]
      cases hs with
      | assign hx hlvalue hy _ =>
          exact exists_ok_bind (store_succeeds hlayout hx hlvalue hy).exists_ok fun code => ⟨_, rfl⟩
  | .defaultInit x, hs, n => by
      rw [stmt]
      cases hs with
      | defaultInit hx hlvalue =>
          exact exists_ok_bind (address_succeeds hlayout x hx hlvalue).exists_ok fun code =>
            ⟨_, rfl⟩
  | .cond c thenBody elseBody, hs, n => by
      rw [stmt]
      cases hs with
      | cond hc _ hthen helse =>
          refine exists_ok_bind (value_succeeds hlayout c hc).exists_ok fun test => ?_
          split
          · exact exists_ok_bind (block_succeeds hlayout thenBody hthen _) fun p => ⟨_, rfl⟩
          · exact exists_ok_bind (block_succeeds hlayout thenBody hthen _) fun p =>
              exists_ok_bind (block_succeeds hlayout elseBody helse _) fun q => ⟨_, rfl⟩
  | .whileLoop c body, hs, n => by
      rw [stmt]
      cases hs with
      | whileLoop hc _ hbody =>
          exact exists_ok_bind (value_succeeds hlayout c hc).exists_ok fun test =>
            exists_ok_bind (block_succeeds hlayout body hbody _) fun p => ⟨_, rfl⟩
  | .repeatLoop limit counter body, hs, n => by
      rw [stmt]
      cases hs with
      | repeatLoop hl _ hc _ hlvalue hbody =>
          exact exists_ok_bind (address_succeeds hlayout counter hc hlvalue).exists_ok fun place =>
            exists_ok_bind (load_succeeds hlayout hc hlvalue).exists_ok fun current =>
            exists_ok_bind (value_succeeds hlayout limit hl).exists_ok fun bound =>
            exists_ok_bind (block_succeeds hlayout body hbody _) fun p => ⟨_, rfl⟩
  | .switch x cases none, hs, n => by
      rw [stmt]
      cases hs with
      | switch hx _ _ hcases _ =>
          exact exists_ok_bind (value_succeeds hlayout x hx).exists_ok fun selector =>
            exists_ok_bind (caseBodies_succeeds hlayout cases hcases _ _ _) fun p => ⟨_, rfl⟩
  | .switch x cases (some default), hs, n => by
      rw [stmt]
      cases hs with
      | switch hx _ _ hcases hdefault =>
          exact exists_ok_bind (value_succeeds hlayout x hx).exists_ok fun selector =>
            exists_ok_bind (caseBodies_succeeds hlayout cases hcases _ _ _) fun p =>
            exists_ok_bind (block_succeeds hlayout default (hdefault default rfl) _) fun q =>
              ⟨_, rfl⟩
  | .ret none, _, n => by
      rw [stmt]
      exact ⟨_, rfl⟩
  | .ret (some x), hs, n => by
      rw [stmt]
      cases hs with
      | ret hx _ _ =>
          exact exists_ok_bind (value_succeeds hlayout x hx).exists_ok fun code => ⟨_, rfl⟩
  | .expr x, hs, n => by
      rw [stmt]
      cases hs with
      | expr hx _ =>
          exact exists_ok_bind (value_succeeds hlayout x hx).exists_ok fun code => ⟨_, rfl⟩
  | .label name, _, n => by
      rw [stmt]
      exact ⟨_, rfl⟩
  | .goto name, _, n => by
      rw [stmt]
      exact ⟨_, rfl⟩
  | .block body, hs, n => by
      rw [stmt]
      cases hs with
      | block hbody => exact block_succeeds hlayout body hbody n

theorem block_succeeds {Γ : TypingEnv} {info : BodyInfo} {result : Option Ty} {labels : List String}
    (hlayout : info.layout.Covers Γ) : (body : List TypedStmt) →
      (∀ s ∈ body, s.WellTyped Γ result labels) → (n : Nat) → ∃ p, block info body n = .ok p
  | [], _, n => by
      rw [block]
      exact ⟨_, rfl⟩
  | s :: rest, h, n => by
      rw [block]
      rw [List.forall_mem_cons] at h
      exact exists_ok_bind (stmt_succeeds hlayout s h.1 _) fun p =>
        exists_ok_bind (block_succeeds hlayout rest h.2 _) fun q => ⟨_, rfl⟩

theorem caseBodies_succeeds {Γ : TypingEnv} {info : BodyInfo} {result : Option Ty}
    {labels : List String} (hlayout : info.layout.Covers Γ) : (cases : List TypedCase) →
      (∀ c ∈ cases, ∀ s ∈ c.body, s.WellTyped Γ result labels) → (done : String) → (i n : Nat) →
        ∃ p, caseBodies info done i cases n = .ok p
  | [], _, done, i, n => by
      rw [caseBodies]
      exact ⟨_, rfl⟩
  | ⟨v, body⟩ :: rest, h, done, i, n => by
      rw [caseBodies]
      rw [List.forall_mem_cons] at h
      exact exists_ok_bind (block_succeeds hlayout body h.1 _) fun p =>
        exists_ok_bind (caseBodies_succeeds hlayout rest h.2 _ _ _) fun q => ⟨_, rfl⟩

end
end Lowering
end GameScript
