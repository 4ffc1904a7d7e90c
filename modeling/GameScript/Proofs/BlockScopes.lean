import Mathlib.Data.List.Induction
import GameScript.Proofs.FrameSlots

/-!
# Names in nested blocks

What a name means inside a function depends on the blocks that are open there. Two things are shown.
A block that is entered and left again, whatever is done in between, has no influence on the names
after it. And after any calls on a new scope a name stands for the symbol that was declared under
its identity in the innermost open block that has one, and for the global symbol if no open block
has one. Which declarations stand in which open block is read off the calls, and not off the tables
of the scope.
-/
namespace GameScript

namespace ScopeCall

def isPush : ScopeCall → Bool
  | push => true
  | _ => false

def isPop : ScopeCall → Bool
  | pop => true
  | _ => false

/-- Calls that leave only blocks that they have entered, and leave all of these. -/
def Balanced (calls : List ScopeCall) : Prop :=
  (∀ n ≤ calls.length, (calls.take n).countP isPop ≤ (calls.take n).countP isPush) ∧
    calls.countP isPop = calls.countP isPush

/-- Only declarations are refused. -/
theorem not_block_of_refused {s : Scope} {call : ScopeCall} {e : DeclarationError}
    (h : call.run s = .error e) : call.isPush = false ∧ call.isPop = false := by
  cases call with
  | push => cases h
  | pop => cases h
  | declareArg => exact ⟨rfl, rfl⟩
  | declareLocal => exact ⟨rfl, rfl⟩

end ScopeCall

/-- The first member with a result, by its place. -/
theorem findSome?_eq_some_iff_level {α β : Type} {f : α → Option β} {b : β} {xs : List α} :
    xs.findSome? f = some b ↔
      ∃ level : Nat, xs[level]?.bind f = some b ∧ ∀ inner < level, xs[inner]?.bind f = none := by
  induction xs with
  | nil => simp
  | cons x xs ih =>
      rw [List.findSome?_cons]
      cases hx : f x with
      | some found =>
          constructor
          · intro h
            exact ⟨0, hx.trans h, fun inner hinner => absurd hinner (Nat.not_lt_zero inner)⟩
          · rintro ⟨level, h, hinner⟩
            cases level with
            | zero => exact hx.symm.trans h
            | succ level => cases hx.symm.trans (hinner 0 (Nat.succ_pos level))
      | none =>
          dsimp only
          rw [ih]
          constructor
          · rintro ⟨level, h, hinner⟩
            refine ⟨level + 1, h, fun inner hlt => ?_⟩
            cases inner with
            | zero => exact hx
            | succ inner => exact hinner inner (Nat.lt_of_succ_lt_succ hlt)
          · rintro ⟨level, h, hinner⟩
            cases level with
            | zero => cases hx.symm.trans h
            | succ level =>
                exact ⟨level, h, fun inner hlt => hinner (inner + 1) (Nat.succ_lt_succ hlt)⟩

namespace Scope

def blocks (s : Scope) : List SymbolTable := s.innermost :: s.enclosing

/-- What the block that is `level` blocks out from the innermost one has under an identity. -/
def findAt? (s : Scope) (level : Nat) (id : Identity) : Option Symbol :=
  s.blocks[level]?.bind (·.find? id)

/-! ## Leaving a block -/

/-- A call changes nothing outside the blocks that are open inside. -/
theorem blocks_after {s : Scope} {call : ScopeCall} {inner outer : List SymbolTable}
    (hblocks : s.blocks = inner ++ outer) (hinner : (if call.isPop then 1 else 0) < inner.length) :
    ∃ inner', (call.after s).blocks = inner' ++ outer ∧
      inner'.length + (if call.isPop then 1 else 0) = inner.length +
        (if call.isPush then 1 else 0) := by
  obtain ⟨block, rest, rfl⟩ := List.exists_cons_of_length_pos (Nat.zero_lt_of_lt hinner)
  obtain ⟨hinnermost, henclosing⟩ := List.cons.inj hblocks
  have hstep := call.step s
  generalize call.declares? s = symbol, call.after s = s' at hstep ⊢
  cases hstep with
  | push => exact ⟨[] :: block :: rest, by rw [List.cons_append, ← hblocks]; rfl, rfl⟩
  | pop =>
      obtain ⟨next, rest, rfl⟩ := List.exists_cons_of_length_pos (Nat.lt_of_succ_lt_succ hinner)
      refine ⟨next :: rest, ?_, rfl⟩
      rw [pop, henclosing]
      rfl
  | arg symbol =>
      exact ⟨(s.addArg symbol).innermost :: rest, congrArg (List.cons _) henclosing, rfl⟩
  | frame symbol =>
      exact ⟨(s.addLocal symbol).innermost :: rest, congrArg (List.cons _) henclosing, rfl⟩
  | refused hrun =>
      obtain ⟨hpush, hpop⟩ := ScopeCall.not_block_of_refused hrun
      exact ⟨block :: rest, hblocks, by rw [hpush, hpop]⟩

theorem globals_after (s : Scope) (call : ScopeCall) : (call.after s).globals = s.globals := by
  have hstep := call.step s
  generalize call.declares? s = symbol, call.after s = s' at hstep ⊢
  cases hstep with
  | pop =>
      unfold pop
      split <;> rfl
  | _ => rfl

theorem globals_afterAll (s : Scope) (calls : List ScopeCall) :
    (s.afterAll calls).globals = s.globals := by
  induction calls generalizing s with
  | nil => rfl
  | cons call rest ih => exact (ih (call.after s)).trans (globals_after s call)

/-- Nor do calls that leave no more blocks than are open inside. -/
theorem blocks_afterAll {calls : List ScopeCall} {s : Scope} {inner outer : List SymbolTable}
    (hblocks : s.blocks = inner ++ outer)
    (hcalls : ∀ n ≤ calls.length,
      (calls.take n).countP ScopeCall.isPop < inner.length + (calls.take n).countP
    ScopeCall.isPush) :
    ∃ inner', (s.afterAll calls).blocks = inner' ++ outer ∧
      inner'.length + calls.countP ScopeCall.isPop = inner.length +
        calls.countP ScopeCall.isPush := by
  induction calls generalizing s inner with
  | nil => exact ⟨inner, hblocks, rfl⟩
  | cons call rest ih =>
      have hfirst := hcalls 1 (Nat.succ_le_succ (Nat.zero_le _))
      rw [List.take_succ_cons, List.take_zero, List.countP_singleton, List.countP_singleton]
        at hfirst
      have hinner : (if call.isPop then 1 else 0) < inner.length := by
        cases call with
        | push => exact hcalls 0 (Nat.zero_le _)
        | pop => exact hfirst
        | declareArg => exact hfirst
        | declareLocal => exact hfirst
      obtain ⟨inner', hblocks', hlength⟩ := blocks_after hblocks hinner
      obtain ⟨inner'', hblocks'', hlength'⟩ := ih hblocks' fun n hn => by
        have h := hcalls (n + 1) (Nat.succ_le_succ hn)
        rw [List.take_succ_cons, List.countP_cons, List.countP_cons] at h
        omega
      refine ⟨inner'', hblocks'', ?_⟩
      rw [List.countP_cons, List.countP_cons]
      omega

/-- A block that is entered and left again leaves the blocks around it as they were. -/
theorem blocks_pop_afterAll (s : Scope) {calls : List ScopeCall} (h : ScopeCall.Balanced calls) :
    (s.push.afterAll calls).pop.blocks = s.blocks := by
  have hpush : s.push.blocks = [[]] ++ s.blocks := rfl
  obtain ⟨inner, hblocks, hlength⟩ := blocks_afterAll hpush fun n hn => by
    have hprefix := h.1 n hn
    rw [List.length_singleton]
    omega
  have hbalance := h.2
  rw [List.length_singleton] at hlength
  obtain ⟨block, rfl⟩ := List.length_eq_one_iff.mp (show inner.length = 1 by omega)
  have henclosing : (s.push.afterAll calls).enclosing = s.innermost :: s.enclosing :=
    (List.cons.inj hblocks).2
  rw [pop, henclosing]
  rfl

theorem find?_eq_of_blocks {s s' : Scope} (hblocks : s'.blocks = s.blocks)
    (hglobals : s'.globals = s.globals) (id : Identity) : s'.find? id = s.find? id := by
  obtain ⟨hinnermost, henclosing⟩ := List.cons.inj hblocks
  rw [find?, find?, hinnermost, henclosing, hglobals]

/-! ## Blocks and what they hold -/

theorem findAt?_push_zero (s : Scope) (id : Identity) : s.push.findAt? 0 id = none := rfl

theorem findAt?_push_succ (s : Scope) (level : Nat) (id : Identity) :
    s.push.findAt? (level + 1) id = s.findAt? level id := rfl

theorem pop_of_depth {s : Scope} (h : s.depth = 0) : s.pop = s := by
  rw [pop, List.eq_nil_of_length_eq_zero h]

theorem findAt?_pop {s : Scope} (h : s.depth ≠ 0) (level : Nat) (id : Identity) :
    s.pop.findAt? level id = s.findAt? (level + 1) id := by
  obtain ⟨outer, rest, henclosing⟩ := List.exists_cons_of_length_pos (Nat.pos_of_ne_zero h)
  rw [pop, findAt?, findAt?, blocks, blocks, henclosing]
  rfl

theorem findAt?_add {s : Scope} {symbol found : Symbol} {level : Nat} {id : Identity}
    (hfree : s.innermost.find? symbol.id = none) :
    (s.add symbol).findAt? level id = some found ↔
      s.findAt? level id = some found ∨ level = 0 ∧ symbol = found ∧ symbol.id = id := by
  cases level with
  | succ level =>
      have hadd : (s.add symbol).findAt? (level + 1) id = s.findAt? (level + 1) id := rfl
      simp [hadd]
  | zero =>
      have hadd : (s.add symbol).findAt? 0 id = (s.innermost ++ [(symbol.id, symbol)]).lookup id :=
        rfl
      have hfind : s.findAt? 0 id = s.innermost.lookup id := rfl
      rw [hadd, hfind, List.lookup_append]
      by_cases hid : symbol.id = id
      · subst hid
        have hnone : s.innermost.lookup symbol.id = none := hfree
        simp [hnone]
      · have hne : (id == symbol.id) = false := beq_eq_false_iff_ne.mpr (Ne.symm hid)
        simp [List.lookup_cons, hne, hid]

/-- A declaration adds to the innermost block what it declares, and nothing else. -/
theorem findAt?_after {s : Scope} {call : ScopeCall} {found : Symbol} {level : Nat} {id : Identity}
    (hcall : call.name?.isSome = true) :
    (call.after s).findAt? level id = some found ↔
      s.findAt? level id = some found ∨ level = 0 ∧ call.declares? s = some found ∧
        found.id = id := by
  have hstep := call.step s
  generalize call.declares? s = symbol, call.after s = s' at hstep ⊢
  cases hstep with
  | push => cases hcall
  | pop => cases hcall
  | refused => simp
  | arg symbol hkind hfree =>
      have hblocks : (s.addArg symbol).findAt? level id = (s.add symbol).findAt? level id := rfl
      rw [hblocks, findAt?_add hfree, Option.some.injEq]
      grind
  | frame symbol hkind hfree =>
      have hblocks : (s.addLocal symbol).findAt? level id = (s.add symbol).findAt? level id := rfl
      rw [hblocks, findAt?_add hfree, Option.some.injEq]
      grind

/-- A name is looked up from the innermost block out, and then among the global symbols. -/
theorem find?_eq_some_iff {s : Scope} {id : Identity} {symbol : Symbol} :
    s.find? id = some symbol ↔
      (∃ level, s.findAt? level id = some symbol ∧ ∀ inner < level, s.findAt? inner id = none) ∨
        (∀ level, s.findAt? level id = none) ∧ s.globals.find? id = some symbol := by
  have hfind :
      s.find? id = (s.blocks.findSome? fun block => block.find? id).or (s.globals.find? id) := by
    rw [find?, blocks]
    cases (s.innermost :: s.enclosing).findSome? (·.find? id) <;> rfl
  simp only [findAt?]
  rw [hfind, ← findSome?_eq_some_iff_level]
  cases hblocks : s.blocks.findSome? fun block => block.find? id with
  | some found =>
      obtain ⟨level, hlevel, -⟩ := findSome?_eq_some_iff_level.mp hblocks
      have hnot : ¬ ∀ level : Nat, (s.blocks[level]?.bind fun block => block.find? id) = none := by
        intro hnone
        cases hlevel.symm.trans (hnone level)
      simp only [Option.some_or, hnot, false_and, or_false]
  | none =>
      have hnone (level : Nat) : (s.blocks[level]?.bind fun block => block.find? id) = none := by
        rw [Option.bind_eq_none_iff]
        exact fun block hblock => List.findSome?_eq_none_iff.mp hblocks block
          (List.mem_of_getElem? hblock)
      simp only [Option.none_or, hnone, implies_true, true_and, reduceCtorEq, false_or]

end Scope

/-! ## Declarations in open blocks -/

namespace ScopeCall

/-- How many blocks are open inside the function after these calls. Its own block is never left. -/
def nesting (calls : List ScopeCall) : Nat :=
  calls.foldl (fun n call => if call.isPush then n + 1 else if call.isPop then n - 1 else n) 0

end ScopeCall

/-- After these calls on a new scope, a declaration of the symbol stands in the block that is
`level` blocks out from the innermost open one. -/
inductive StandsIn (globals : GlobalTable) : List ScopeCall → Nat → Symbol → Prop
  | declared {calls : List ScopeCall} {call : ScopeCall} {symbol : Symbol}
      (hcall : call.declares? ((Scope.new globals).afterAll calls) = some symbol) :
      StandsIn globals (calls ++ [call]) 0 symbol
  | kept {calls : List ScopeCall} {call : ScopeCall} {level : Nat} {symbol : Symbol}
      (hcall : call.name?.isSome = true) (h : StandsIn globals calls level symbol) :
      StandsIn globals (calls ++ [call]) level symbol
  | entered {calls : List ScopeCall} {level : Nat} {symbol : Symbol}
      (h : StandsIn globals calls level symbol) :
      StandsIn globals (calls ++ [.push]) (level + 1) symbol
  | left {calls : List ScopeCall} {level : Nat} {symbol : Symbol}
      (hnesting : ScopeCall.nesting calls ≠ 0)
      (h : StandsIn globals calls (level + 1) symbol) :
      StandsIn globals (calls ++ [.pop]) level symbol
  | stayed {calls : List ScopeCall} {level : Nat} {symbol : Symbol}
      (hnesting : ScopeCall.nesting calls = 0)
      (h : StandsIn globals calls level symbol) : StandsIn globals (calls ++ [.pop]) level symbol

section
variable {globals : GlobalTable} {calls : List ScopeCall} {call : ScopeCall} {level : Nat}
  {symbol : Symbol}

theorem Scope.afterAll_concat (s : Scope) (calls : List ScopeCall) (call : ScopeCall) :
    s.afterAll (calls ++ [call]) = call.after (s.afterAll calls) := List.foldl_concat _ _ _ _

theorem Scope.depth_after (s : Scope) (call : ScopeCall) :
    (call.after s).depth =
      if call.isPush then s.depth + 1 else if call.isPop then s.depth - 1 else s.depth := by
  have hstep := call.step s
  generalize call.declares? s = symbol, call.after s = s' at hstep ⊢
  cases hstep with
  | push => rfl
  | pop =>
      unfold pop
      split <;> simp [depth, *, ScopeCall.isPush, ScopeCall.isPop]
  | arg symbol => rfl
  | frame symbol => rfl
  | refused hrun =>
      obtain ⟨hpush, hpop⟩ := ScopeCall.not_block_of_refused hrun
      rw [hpush, hpop]
      rfl

theorem Scope.depth_afterAll (globals : GlobalTable) (calls : List ScopeCall) :
    ((Scope.new globals).afterAll calls).depth = ScopeCall.nesting calls :=
  (List.foldl_hom Scope.depth fun s call => (Scope.depth_after s call).symm).symm

/-- The declarations that stand in open blocks after one more call. -/
theorem StandsIn.concat_cases
    (h : StandsIn globals (calls ++ [call]) level symbol) :
    level = 0 ∧ call.declares? ((Scope.new globals).afterAll calls) = some symbol ∨
      call.name?.isSome = true ∧ StandsIn globals calls level symbol ∨
      call = .push ∧ (∃ inner, level = inner + 1 ∧ StandsIn globals calls inner symbol) ∨
      call = .pop ∧ ScopeCall.nesting calls ≠ 0 ∧ StandsIn globals calls (level + 1) symbol ∨
      call = .pop ∧ ScopeCall.nesting calls = 0 ∧ StandsIn globals calls level symbol := by
  generalize hall : calls ++ [call] = all at h
  cases h with
  | declared hcall =>
      obtain ⟨rfl, hlast⟩ := List.append_inj' hall rfl
      obtain rfl := List.singleton_inj.mp hlast
      exact .inl ⟨rfl, hcall⟩
  | kept hcall h =>
      obtain ⟨rfl, hlast⟩ := List.append_inj' hall rfl
      obtain rfl := List.singleton_inj.mp hlast
      exact .inr (.inl ⟨hcall, h⟩)
  | entered h =>
      obtain ⟨rfl, hlast⟩ := List.append_inj' hall rfl
      exact .inr (.inr (.inl ⟨List.singleton_inj.mp hlast, _, rfl, h⟩))
  | left hnesting h =>
      obtain ⟨rfl, hlast⟩ := List.append_inj' hall rfl
      exact .inr (.inr (.inr (.inl ⟨List.singleton_inj.mp hlast, hnesting, h⟩)))
  | stayed hnesting h =>
      obtain ⟨rfl, hlast⟩ := List.append_inj' hall rfl
      exact .inr (.inr (.inr (.inr ⟨List.singleton_inj.mp hlast, hnesting, h⟩)))

theorem standsIn_push_iff :
    StandsIn globals (calls ++ [.push]) level symbol ↔
      ∃ inner, level = inner + 1 ∧ StandsIn globals calls inner symbol := by
  constructor
  · intro h
    rcases h.concat_cases with ⟨-, hdeclares⟩ | ⟨hname, -⟩ | ⟨-, hinner⟩ | ⟨hcall, -⟩ | ⟨hcall, -⟩
    · cases hdeclares
    · cases hname
    · exact hinner
    · cases hcall
    · cases hcall
  · rintro ⟨inner, rfl, h⟩
    exact .entered h

theorem standsIn_pop_iff :
    StandsIn globals (calls ++ [.pop]) level symbol ↔
      StandsIn globals calls (if ScopeCall.nesting calls = 0 then level else level + 1) symbol := by
  constructor
  · intro h
    rcases h.concat_cases with ⟨-, hdeclares⟩ | ⟨hname, -⟩ | ⟨hcall, -⟩ | ⟨-, hnesting, h⟩ |
      ⟨-, hnesting, h⟩
    · cases hdeclares
    · cases hname
    · cases hcall
    · rwa [if_neg hnesting]
    · rwa [if_pos hnesting]
  · intro h
    split at h
    · next hnesting => exact .stayed hnesting h
    · next hnesting => exact .left hnesting h

theorem standsIn_declaration_iff (hcall : call.name?.isSome = true) :
    StandsIn globals (calls ++ [call]) level symbol ↔
      StandsIn globals calls level symbol ∨
        level = 0 ∧ call.declares? ((Scope.new globals).afterAll calls) = some symbol := by
  constructor
  · intro h
    rcases h.concat_cases with hdeclares | ⟨-, h⟩ | ⟨rfl, -⟩ | ⟨rfl, -⟩ | ⟨rfl, -⟩
    · exact .inr hdeclares
    · exact .inl h
    · cases hcall
    · cases hcall
    · cases hcall
  · rintro (h | ⟨rfl, hdeclares⟩)
    · exact .kept hcall h
    · exact .declared hdeclares

/-- What the calls say stands in an open block is what the scope finds there. -/
theorem standsIn_iff {id : Identity} :
    StandsIn globals calls level symbol ∧ symbol.id = id ↔
      ((Scope.new globals).afterAll calls).findAt? level id = some symbol := by
  induction calls using List.reverseRecOn generalizing level with
  | nil =>
      have hempty : ((Scope.new globals).afterAll []).findAt? level id = none := by
        cases level <;> rfl
      rw [hempty]
      constructor
      · rintro ⟨h, -⟩
        generalize hnil : ([] : List ScopeCall) = calls at h
        cases h <;> simp at hnil
      · exact nofun
  | append_singleton calls call ih =>
      rw [Scope.afterAll_concat]
      have hdeclaration (hcall : call.name?.isSome = true) :
          StandsIn globals (calls ++ [call]) level symbol ∧ symbol.id = id ↔
            (call.after ((Scope.new globals).afterAll calls)).findAt? level id = some symbol := by
        rw [Scope.findAt?_after hcall, ← ih, standsIn_declaration_iff hcall]
        tauto
      cases call with
      | push =>
          rw [standsIn_push_iff]
          cases level with
          | zero => simp [ScopeCall.after, ScopeCall.run, Scope.findAt?_push_zero]
          | succ level => simp [ScopeCall.after, ScopeCall.run, Scope.findAt?_push_succ, ← ih]
      | pop =>
          have hafter : ScopeCall.after ((Scope.new globals).afterAll calls) .pop =
            ((Scope.new globals).afterAll calls).pop := rfl
          rw [standsIn_pop_iff, ih, hafter, ← Scope.depth_afterAll globals]
          split
          · next hdepth => rw [Scope.pop_of_depth hdepth]
          · next hdepth => rw [Scope.findAt?_pop hdepth]
      | declareArg => exact hdeclaration rfl
      | declareLocal => exact hdeclaration rfl

end

/-- What a name means after calls on a new scope: the symbol declared under its identity in the
innermost open block that has one, or else the global symbol. -/
def NameMeans (globals : GlobalTable) (calls : List ScopeCall) (name : String) (symbol : Symbol) :
    Prop :=
  (∃ level, StandsIn globals calls level symbol ∧ symbol.id = Identity.ofName name ∧
      ∀ inner < level, ∀ other, StandsIn globals calls inner other →
        other.id ≠ Identity.ofName name) ∨
    (∀ level other, StandsIn globals calls level other → other.id ≠ Identity.ofName name) ∧
      globals.find? (Identity.ofName name) = some symbol

theorem findName?_eq_some_iff_nameMeans {globals : GlobalTable} {calls : List ScopeCall}
    {name : String} {symbol : Symbol} :
    ((Scope.new globals).afterAll calls).findName? name = some symbol ↔
      NameMeans globals calls name symbol := by
  have hnone (level : Nat) :
      ((Scope.new globals).afterAll calls).findAt? level (Identity.ofName name) = none ↔
        ∀ other, StandsIn globals calls level other → other.id ≠ Identity.ofName name := by
    rw [Option.eq_none_iff_forall_ne_some]
    exact forall_congr' fun other => by rw [ne_eq, ← standsIn_iff, not_and]
  have hglobals : ((Scope.new globals).afterAll calls).globals = globals :=
    Scope.globals_afterAll _ _
  rw [Scope.findName?, Scope.find?_eq_some_iff, NameMeans, hglobals]
  simp only [hnone, ← standsIn_iff, and_assoc]

/-- A block has no influence on names once it is left: whatever calls are made in between, as long
as they leave only blocks that they have entered, every name means afterwards what it meant before.
And after any calls on a new scope names mean what the declarations in the open blocks say. -/
theorem Scope.block_restores :
    (∀ (s : Scope) (calls : List ScopeCall), ScopeCall.Balanced calls →
      (s.push.afterAll calls).pop.depth = s.depth ∧
        ∀ name, (s.push.afterAll calls).pop.findName? name = s.findName? name) ∧
    ∀ (globals : GlobalTable) (calls : List ScopeCall) (name : String) (symbol : Symbol),
      ((Scope.new globals).afterAll calls).findName? name = some symbol ↔
        NameMeans globals calls name symbol := by
  refine ⟨fun s calls hcalls => ?_, fun _ _ _ _ => findName?_eq_some_iff_nameMeans⟩
  have hblocks := Scope.blocks_pop_afterAll s hcalls
  have hglobals : (s.push.afterAll calls).pop.globals = s.globals :=
    (globals_after _ .pop).trans (globals_afterAll s.push calls)
  refine ⟨?_, fun name => Scope.find?_eq_of_blocks hblocks hglobals _⟩
  rw [depth, depth, (List.cons.inj hblocks).2]

def patrolGlobals : GlobalTable :=
  ⟨[(Identity.ofName "limit", ⟨"limit", .int, {}, .static false none⟩)]⟩

def patrolStart : List ScopeCall := [.declareArg "speed" .float {}, .declareLocal "count" .int {}]

/-- Calls in the block: names of all kinds are used again, one of them twice in the same block. -/
def patrolBlock : List ScopeCall :=
  [.declareLocal "COUNT" .float {}, .declareLocal "count" .int {}, .push,
    .declareLocal "Limit" .vector {},
    .declareLocal "speed" .bool {}, .pop, .push, .pop, .declareLocal "last" .int {}]

theorem Scope.block_restores_patrol :
    let s := (Scope.new patrolGlobals).afterAll patrolStart
    ScopeCall.Balanced patrolBlock ∧
    ((s.push.afterAll (patrolBlock.take 5)).findName? "limit").map Symbol.name = some "Limit" ∧
    (s.findName? "limit").map Symbol.name = some "limit" ∧
    (s.push.afterAll patrolBlock).pop.depth = s.depth ∧
    (∀ name, (s.push.afterAll patrolBlock).pop.findName? name = s.findName? name) ∧
    ∃ symbol, symbol.name = "COUNT" ∧
      NameMeans patrolGlobals (patrolStart ++ .push :: patrolBlock) "count" symbol := by
  intro s
  have hbalanced : ScopeCall.Balanced patrolBlock := by
    unfold ScopeCall.Balanced
    decide
  have heval : ((s.push.afterAll (patrolBlock.take 5)).findName? "limit").map Symbol.name =
      some "Limit" ∧ (s.findName? "limit").map Symbol.name = some "limit" ∧
      (((Scope.new patrolGlobals).afterAll (patrolStart ++ .push :: patrolBlock)).findName?
        "count").map Symbol.name = some "COUNT" := by
    decide +kernel
  obtain ⟨symbol, hfind, hname⟩ := Option.map_eq_some_iff.mp heval.2.2
  obtain ⟨hrestores, hmeans⟩ := Scope.block_restores
  obtain ⟨hdepth, hnames⟩ := hrestores s patrolBlock hbalanced
  exact ⟨hbalanced, heval.1, heval.2.1, hdepth, hnames, symbol, hname, (hmeans _ _ _ _).mp hfind⟩

end GameScript
