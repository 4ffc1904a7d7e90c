import GameScript.Code.Assembly
import GameScript.Proofs.ScriptTyping

/-!
# Frame slots

A scope starts empty and changes by calls: a block is entered or left, an argument or a local is
declared. A refused declaration is part of the history too. The theorem says which slots of the
frame the declared variables have after any history, those of blocks that were left included, and
what a refused declaration does. Slots are 32-bit words; the statement is about histories that
declare fewer slots than such a word can count.
-/
namespace GameScript

inductive ScopeCall where
  | push
  | pop
  | declareArg (name : String) (ty : Ty) (span : Span)
  | declareLocal (name : String) (ty : Ty) (span : Span)

namespace ScopeCall

/-- The symbol that a call declares, if it is a declaration, and the scope after it; or why it is
refused. -/
def run (s : Scope) : ScopeCall → Except DeclarationError (Option Symbol × Scope)
  | push => .ok (none, s.push)
  | pop => .ok (none, s.pop)
  | declareArg name ty span =>
    (s.declareArg name ty span).map fun (slot, s') => (some ⟨name, ty, span, .arg slot⟩, s')
  | declareLocal name ty span =>
    (s.declareLocal name ty span).map fun (slot, s') => (some ⟨name, ty, span, .frame slot⟩, s')

def after (s : Scope) (call : ScopeCall) : Scope :=
  match call.run s with
  | .ok (_, s') => s'
  | .error _ => s

/-- The symbol that a call declares, unless it is refused. -/
def declares? (s : Scope) (call : ScopeCall) : Option Symbol :=
  match call.run s with
  | .ok (symbol, _) => symbol
  | .error _ => none

def name? : ScopeCall → Option String
  | push | pop => none
  | declareArg name _ _ | declareLocal name _ _ => some name

def isArg : ScopeCall → Bool
  | declareArg _ _ _ => true
  | _ => false

end ScopeCall

namespace Symbol

def isArg (symbol : Symbol) : Bool :=
  match symbol.kind with
  | .arg _ => true
  | _ => false

def isLocal (symbol : Symbol) : Bool :=
  match symbol.kind with
  | .frame _ => true
  | _ => false

def toVariable (symbol : Symbol) : Variable := ⟨symbol.name, symbol.ty⟩

def Covers (symbol : Symbol) (slot : Nat) : Prop :=
  ∃ first, symbol.kind.slot? = some first ∧
    first.toNat ≤ slot ∧ slot < first.toNat + symbol.ty.slots

end Symbol

namespace Scope

def afterAll (s : Scope) (calls : List ScopeCall) : Scope := calls.foldl ScopeCall.after s

def declared (s : Scope) : List ScopeCall → List Symbol
  | [] => []
  | call :: rest => (call.declares? s).toList ++ (call.after s).declared rest

/-- No call is for an argument once a local is declared. -/
def argsFirst (s : Scope) : List ScopeCall → Bool
  | [] => true
  | call :: rest =>
    (!(call.declares? s).any Symbol.isLocal || rest.all fun later => !later.isArg) &&
      (call.after s).argsFirst rest

end Scope

/-! ## What a call can do -/

namespace Scope

def add (s : Scope) (symbol : Symbol) : Scope :=
  { s with innermost := s.innermost ++ [(symbol.id, symbol)] }

def addArg (s : Scope) (symbol : Symbol) : Scope :=
  { s.add symbol with
    args := s.args ++ [symbol.toVariable]
    argSlots := s.argSlots + UInt32.ofNat symbol.ty.slots }

def addLocal (s : Scope) (symbol : Symbol) : Scope :=
  { s.add symbol with
    locals := s.locals ++ [symbol.toVariable]
    localSlots := s.localSlots + UInt32.ofNat symbol.ty.slots }

end Scope

/-- What a call does to a scope, and what it declares. -/
inductive ScopeCall.Step (s : Scope) : ScopeCall → Option Symbol → Scope → Prop
  | push : Step s .push none s.push
  | pop : Step s .pop none s.pop
  | arg (symbol : Symbol) (hkind : symbol.kind = .arg s.argSlots)
      (hfree : s.innermost.find? symbol.id = none) :
      Step s (.declareArg symbol.name symbol.ty symbol.span) (some symbol) (s.addArg symbol)
  | frame (symbol : Symbol) (hkind : symbol.kind = .frame s.frameSize)
      (hfree : s.innermost.find? symbol.id = none) :
      Step s (.declareLocal symbol.name symbol.ty symbol.span) (some symbol) (s.addLocal symbol)
  | refused {call : ScopeCall} {e : DeclarationError} (hrun : call.run s = .error e) :
      Step s call none s

theorem SymbolTable.insert_eq_error_iff {t : SymbolTable} {s : Symbol} {e : DeclarationError} :
    t.insert s = .error e ↔ ∃ existing, t.find? s.id = some existing ∧
      e = if sameName existing.name s.name then .duplicateIdentity s.name
        else .hashCollision s.name existing.name s.id := by
  unfold insert
  cases hfind : t.find? s.id with
  | none => simp
  | some existing =>
      simp only [Registry.clash, Except.error.injEq, Option.some.injEq, exists_eq_left', eq_comm]

namespace ScopeCall

theorem run_declareArg (s : Scope) (name : String) (ty : Ty) (span : Span) :
    (declareArg name ty span).run s =
      (s.innermost.insert ⟨name, ty, span, .arg s.argSlots⟩).map fun block =>
        (some ⟨name, ty, span, .arg s.argSlots⟩,
          { s.addArg ⟨name, ty, span, .arg s.argSlots⟩ with innermost := block }) := by
  rw [run, Scope.declareArg]
  cases s.innermost.insert ⟨name, ty, span, .arg s.argSlots⟩ <;> rfl

theorem run_declareLocal (s : Scope) (name : String) (ty : Ty) (span : Span) :
    (declareLocal name ty span).run s =
      (s.innermost.insert ⟨name, ty, span, .frame s.frameSize⟩).map fun block =>
        (some ⟨name, ty, span, .frame s.frameSize⟩,
          { s.addLocal ⟨name, ty, span, .frame s.frameSize⟩ with innermost := block }) := by
  rw [run, Scope.declareLocal]
  cases s.innermost.insert ⟨name, ty, span, .frame s.frameSize⟩ <;> rfl

theorem step (s : Scope) (call : ScopeCall) : call.Step s (call.declares? s) (call.after s) := by
  cases hrun : call.run s with
  | error e =>
      simp only [declares?, after, hrun]
      exact .refused hrun
  | ok result =>
      simp only [declares?, after, hrun]
      cases call with
      | push =>
          obtain rfl := Except.ok.inj hrun
          exact .push
      | pop =>
          obtain rfl := Except.ok.inj hrun
          exact .pop
      | declareArg name ty span =>
          rw [run_declareArg] at hrun
          obtain ⟨block, hblock, rfl⟩ := map_eq_ok.mp hrun
          obtain ⟨hfree, rfl⟩ := SymbolTable.insert_ok hblock
          exact .arg ⟨name, ty, span, .arg s.argSlots⟩ rfl hfree
      | declareLocal name ty span =>
          rw [run_declareLocal] at hrun
          obtain ⟨block, hblock, rfl⟩ := map_eq_ok.mp hrun
          obtain ⟨hfree, rfl⟩ := SymbolTable.insert_ok hblock
          exact .frame ⟨name, ty, span, .frame s.frameSize⟩ rfl hfree

/-- A declaration is refused if and only if the innermost block has a symbol of the same identity:
the same name again, or another name that collides with it. -/
theorem run_eq_error_iff {s : Scope} {call : ScopeCall} {e : DeclarationError} :
    call.run s = .error e ↔ ∃ name existing, call.name? = some name ∧
      s.innermost.find? (Identity.ofName name) = some existing ∧
      e = if sameName existing.name name then .duplicateIdentity name
        else .hashCollision name existing.name (Identity.ofName name) := by
  cases call with
  | push => simp [run, name?]
  | pop => simp [run, name?]
  | declareArg name ty span =>
      rw [run_declareArg, map_eq_error, SymbolTable.insert_eq_error_iff]
      simp [name?, Symbol.id]
  | declareLocal name ty span =>
      rw [run_declareLocal, map_eq_error, SymbolTable.insert_eq_error_iff]
      simp [name?, Symbol.id]

end ScopeCall

/-! ## Variables one after the other -/

/-- The symbols are of one kind and have slots one after the other, the first of them at `start`. -/
def LaidOut (kind : UInt32 → SymbolKind) : Nat → List Symbol → Prop
  | _, [] => True
  | start, symbol :: rest =>
    symbol.kind = kind (UInt32.ofNat start) ∧ LaidOut kind (start + symbol.ty.slots) rest

section
variable {kind : UInt32 → SymbolKind} {start : Nat} {symbols : List Symbol}

theorem LaidOut.concat (h : LaidOut kind start symbols) {symbol : Symbol}
    (hkind : symbol.kind = kind (UInt32.ofNat (start + slotsOf (symbols.map Symbol.ty)))) :
    LaidOut kind start (symbols ++ [symbol]) := by
  induction symbols generalizing start with
  | nil => exact ⟨hkind, trivial⟩
  | cons first rest ih =>
      rw [List.map_cons, slotsOf, ← Nat.add_assoc] at hkind
      exact ⟨h.1, ih h.2 hkind⟩

theorem LaidOut.kind_of_mem (h : LaidOut kind start symbols) {symbol : Symbol}
    (hmem : symbol ∈ symbols) :
    ∃ slot, symbol.kind = kind slot := by
  induction symbols generalizing start with
  | nil => exact absurd hmem List.not_mem_nil
  | cons first rest ih =>
      rcases List.mem_cons.mp hmem with rfl | hmem
      · exact ⟨_, h.1⟩
      · exact ih h.2 hmem

/-- Together the symbols have all slots from the first of them to the last. -/
theorem LaidOut.covers_iff (h : LaidOut kind start symbols)
    (hslot : ∀ slot, (kind slot).slot? = some slot)
    (hbound : start + slotsOf (symbols.map Symbol.ty) < 0x100000000) (slot : Nat) :
    (∃ symbol ∈ symbols, symbol.Covers slot) ↔
      start ≤ slot ∧ slot < start + slotsOf (symbols.map Symbol.ty) := by
  induction symbols generalizing start with
  | nil =>
      rw [List.map_nil, slotsOf]
      simp only [List.not_mem_nil, false_and, exists_false, false_iff]
      omega
  | cons first rest ih =>
      rw [List.map_cons, slotsOf, ← Nat.add_assoc] at hbound ⊢
      have hstart : (UInt32.ofNat start).toNat = start :=
        UInt32.toNat_ofNat_of_lt' (Nat.lt_of_le_of_lt (by omega) hbound)
      have hfirst : first.Covers slot ↔ start ≤ slot ∧ slot < start + first.ty.slots := by
        simp only [Symbol.Covers, h.1, hslot, Option.some.injEq, exists_eq_left', hstart]
      simp only [List.mem_cons, exists_eq_or_imp, hfirst, ih h.2 hbound]
      omega

/-- No slot belongs to two of them. -/
theorem LaidOut.disjoint (h : LaidOut kind start symbols)
    (hslot : ∀ slot, (kind slot).slot? = some slot)
    (hbound : start + slotsOf (symbols.map Symbol.ty) < 0x100000000) :
    symbols.Pairwise fun p q => ∀ slot, p.Covers slot → ¬ q.Covers slot := by
  induction symbols generalizing start with
  | nil => exact .nil
  | cons first rest ih =>
      rw [List.map_cons, slotsOf, ← Nat.add_assoc] at hbound
      refine .cons (fun q hq slot hfirst hcovers => ?_) (ih h.2 hbound)
      have hrest := ((h.2.covers_iff hslot hbound) slot).mp ⟨q, hq, hcovers⟩
      obtain ⟨given, hgiven, hlow, hhigh⟩ := hfirst
      rw [h.1, hslot, Option.some.injEq] at hgiven
      rw [← hgiven, UInt32.toNat_ofNat_of_lt' (Nat.lt_of_le_of_lt (by omega) hbound)] at hhigh
      omega

end

/-! ## The frame of a scope -/

/-- A scope has given slots to the arguments `as` and then to the locals `ls`. The counters are
words, so they say no more than the sizes modulo 2^32. -/
structure Scope.Holds (s : Scope) (as ls : List Symbol) : Prop where
  args : s.args = as.map Symbol.toVariable
  locals : s.locals = ls.map Symbol.toVariable
  argSlots : s.argSlots = UInt32.ofNat (slotsOf (as.map Symbol.ty))
  localSlots : s.localSlots = UInt32.ofNat (slotsOf (ls.map Symbol.ty))
  argsLaidOut : LaidOut .arg 0 as
  localsLaidOut : LaidOut .frame (slotsOf (as.map Symbol.ty) + reservedSlots) ls

namespace Scope.Holds

variable {s : Scope} {as ls : List Symbol}

theorem new (globals : GlobalTable) : (Scope.new globals).Holds [] [] :=
  ⟨rfl, rfl, rfl, rfl, trivial, trivial⟩

theorem pop (h : s.Holds as ls) : s.pop.Holds as ls := by
  unfold Scope.pop
  split
  · exact h
  · exact ⟨h.args, h.locals, h.argSlots, h.localSlots, h.argsLaidOut, h.localsLaidOut⟩

theorem frameSize (h : s.Holds as ls) :
    s.frameSize =
      UInt32.ofNat (slotsOf (as.map Symbol.ty) + reservedSlots + slotsOf (ls.map Symbol.ty)) := by
  rw [Scope.frameSize, h.argSlots, h.localSlots, UInt32.ofNat_add, UInt32.ofNat_add]

/-- An argument may be added as long as there are no locals. -/
theorem addArg (h : s.Holds as []) {symbol : Symbol} (hkind : symbol.kind = .arg s.argSlots) :
    (s.addArg symbol).Holds (as ++ [symbol]) [] := by
  have hslots : slotsOf ((as ++ [symbol]).map Symbol.ty) = slotsOf (as.map Symbol.ty) +
      symbol.ty.slots := by
    rw [List.map_append, slotsOf_append]
    rfl
  refine ⟨?_, h.locals, ?_, h.localSlots, ?_, trivial⟩
  · rw [Scope.addArg, h.args, List.map_append]
    rfl
  · rw [hslots, UInt32.ofNat_add, ← h.argSlots]
    rfl
  · apply h.argsLaidOut.concat
    rw [hkind, h.argSlots, Nat.zero_add]

theorem addLocal (h : s.Holds as ls) {symbol : Symbol} (hkind : symbol.kind = .frame s.frameSize) :
    (s.addLocal symbol).Holds as (ls ++ [symbol]) := by
  have hslots : slotsOf ((ls ++ [symbol]).map Symbol.ty) = slotsOf (ls.map Symbol.ty) +
      symbol.ty.slots := by
    rw [List.map_append, slotsOf_append]
    rfl
  refine ⟨h.args, ?_, h.argSlots, ?_, h.argsLaidOut, ?_⟩
  · rw [Scope.addLocal, h.locals, List.map_append]
    rfl
  · rw [hslots, UInt32.ofNat_add, ← h.localSlots]
    rfl
  · apply h.localsLaidOut.concat
    rw [hkind, h.frameSize]

/-- What calls do to a frame: arguments and locals are added, each at the end of its kind. -/
theorem afterAll {calls : List ScopeCall} (h : s.Holds as ls) (hfirst : s.argsFirst calls = true)
    (hlocals : ls = [] ∨ ∀ call ∈ calls, call.isArg = false) :
    ∃ as' ls', (s.afterAll calls).Holds as' ls' ∧ as ++ ls ++ s.declared calls = as' ++ ls' := by
  induction calls generalizing s as ls with
  | nil => exact ⟨as, ls, h, List.append_nil _⟩
  | cons call rest ih =>
      have hstep := call.step s
      rw [argsFirst, Bool.and_eq_true, Bool.or_eq_true, List.all_eq_true] at hfirst
      have hrest : ls = [] ∨ ∀ later ∈ rest, later.isArg = false :=
        hlocals.imp_right fun hnone => (List.forall_mem_cons.mp hnone).2
      have hnext : s.afterAll (call :: rest) = (call.after s).afterAll rest := rfl
      rw [declared, hnext, ← List.append_assoc]
      generalize call.declares? s = symbol, call.after s = s' at hstep hfirst ⊢
      cases hstep with
      | push =>
          rw [Option.toList_none, List.append_nil]
          exact ih ⟨h.args, h.locals, h.argSlots, h.localSlots, h.argsLaidOut, h.localsLaidOut⟩
            hfirst.2 hrest
      | pop =>
          rw [Option.toList_none, List.append_nil]
          exact ih h.pop hfirst.2 hrest
      | refused =>
          rw [Option.toList_none, List.append_nil]
          exact ih h hfirst.2 hrest
      | arg symbol hkind =>
          obtain rfl : ls = [] := by
            rcases hlocals with hnil | hnone
            · exact hnil
            · cases hnone _ List.mem_cons_self
          rw [List.append_nil, Option.toList_some]
          have hmore := ih (h.addArg hkind) hfirst.2 (.inl rfl)
          rwa [List.append_nil] at hmore
      | frame symbol hkind =>
          have hlocal : symbol.isLocal = true := by rw [Symbol.isLocal, hkind]
          have hnone : ∀ later ∈ rest, later.isArg = false := by
            rcases hfirst.1 with hnot | hall
            · simp [hlocal] at hnot
            · simpa using hall
          rw [Option.toList_some, List.append_assoc as]
          exact ih (h.addLocal hkind) hfirst.2 (.inr hnone)

end Scope.Holds

/-! ## Exact frames -/

/-- The frame of a scope, given the symbols declared on the way to it. -/
structure Scope.FrameExact (s : Scope) (symbols : List Symbol) : Prop where
  disjoint : symbols.Pairwise fun p q => ∀ slot, p.Covers slot → ¬ q.Covers slot
  args : ∀ slot, (∃ p ∈ symbols, p.isArg = true ∧ p.Covers slot) ↔ slot < s.argSlots.toNat
  locals : ∀ slot, (∃ p ∈ symbols, p.isLocal = true ∧ p.Covers slot) ↔
    s.argSlots.toNat + reservedSlots ≤ slot ∧ slot < s.frameSize.toNat
  reserved : ∀ slot, s.argSlots.toNat ≤ slot → slot < s.argSlots.toNat + reservedSlots →
    ∀ p ∈ symbols, ¬ p.Covers slot
  /-- The variables that the frame lists are those that were declared. -/
  listed : s.args ++ s.locals = symbols.map Symbol.toVariable
  frameSize : ∀ f : FunctionDef, f.args = s.args → f.locals = s.locals →
    f.frameSize = s.frameSize.toNat

namespace Scope.Holds

variable {s : Scope} {as ls : List Symbol}

theorem frameExact (h : s.Holds as ls)
    (hbound : slotsOf (as.map Symbol.ty) + reservedSlots + slotsOf (ls.map Symbol.ty) <
      0x100000000) :
    s.FrameExact (as ++ ls) := by
  have hargSlots : s.argSlots.toNat = slotsOf (as.map Symbol.ty) := by
    rw [h.argSlots]
    exact UInt32.toNat_ofNat_of_lt' (Nat.lt_of_le_of_lt (by omega) hbound)
  have hframeSize : s.frameSize.toNat =
      slotsOf (as.map Symbol.ty) + reservedSlots + slotsOf (ls.map Symbol.ty) := by
    rw [h.frameSize]
    exact UInt32.toNat_ofNat_of_lt' hbound
  have hcoversArgs := h.argsLaidOut.covers_iff (fun _ => rfl) (by omega)
  have hcoversLocals := h.localsLaidOut.covers_iff (fun _ => rfl) hbound
  simp only [Nat.zero_le, true_and, Nat.zero_add] at hcoversArgs
  have hisArg (p : Symbol) (hp : p ∈ as) : p.isArg = true ∧ p.isLocal = false := by
    obtain ⟨slot, hkind⟩ := h.argsLaidOut.kind_of_mem hp
    simp only [Symbol.isArg, Symbol.isLocal, hkind, and_self]
  have hisLocal (p : Symbol) (hp : p ∈ ls) : p.isArg = false ∧ p.isLocal = true := by
    obtain ⟨slot, hkind⟩ := h.localsLaidOut.kind_of_mem hp
    simp only [Symbol.isArg, Symbol.isLocal, hkind, and_self]
  constructor
  case disjoint =>
    rw [List.pairwise_append]
    refine ⟨h.argsLaidOut.disjoint (fun _ => rfl) (by omega),
      h.localsLaidOut.disjoint (fun _ => rfl) hbound, ?_⟩
    intro p hp q hq slot hcovers hcovers'
    have hlow := (hcoversArgs slot).mp ⟨p, hp, hcovers⟩
    have hhigh := (hcoversLocals slot).mp ⟨q, hq, hcovers'⟩
    omega
  case args =>
    intro slot
    rw [hargSlots, ← hcoversArgs slot]
    constructor
    · rintro ⟨p, hp, harg, hcovers⟩
      rcases List.mem_append.mp hp with hp | hp
      · exact ⟨p, hp, hcovers⟩
      · rw [(hisLocal p hp).1] at harg
        cases harg
    · rintro ⟨p, hp, hcovers⟩
      exact ⟨p, List.mem_append_left _ hp, (hisArg p hp).1, hcovers⟩
  case locals =>
    intro slot
    rw [hargSlots, hframeSize, ← hcoversLocals slot]
    constructor
    · rintro ⟨p, hp, hlocal, hcovers⟩
      rcases List.mem_append.mp hp with hp | hp
      · rw [(hisArg p hp).2] at hlocal
        cases hlocal
      · exact ⟨p, hp, hcovers⟩
    · rintro ⟨p, hp, hcovers⟩
      exact ⟨p, List.mem_append_right _ hp, (hisLocal p hp).2, hcovers⟩
  case reserved =>
    intro slot hlow hhigh p hp hcovers
    rw [hargSlots] at hlow hhigh
    rcases List.mem_append.mp hp with hp | hp
    · have := (hcoversArgs slot).mp ⟨p, hp, hcovers⟩
      omega
    · have := (hcoversLocals slot).mp ⟨p, hp, hcovers⟩
      omega
  case listed => rw [h.args, h.locals, List.map_append]
  case frameSize =>
    intro f hargs hlocals
    have hvariables (symbols : List Symbol) :
        variableSlots (symbols.map Symbol.toVariable) = slotsOf (symbols.map Symbol.ty) := by
      rw [variableSlots, List.map_map]
      rfl
    rw [FunctionDef.frameSize, FunctionDef.argSlots, FunctionDef.localSlots, hargs, hlocals, h.args,
      h.locals, hvariables, hvariables, hframeSize]

end Scope.Holds

/-! ## Refused declarations -/

/-- Nothing comes of a refused call: the scope is the same after it, and when the checker makes the
call for a local or an argument, it reports the error and goes on with the same scope. -/
structure ScopeCall.Refused (s : Scope) (call : ScopeCall) (e : DeclarationError) : Prop where
  unchanged : call.after s = s ∧ call.declares? s = none
  checkLocal : ∀ name ty span, call = .declareLocal name ty span → ∀ b : BodyState, b.scope = s →
    BodyM.declareLocal name ty span b =
      (none, { b with diagnostics := b.diagnostics.push (errorAt span (.declaration e)) })
  checkArg : ∀ (param : ParamDecl) ty rest, call = .declareArg param.name ty param.span →
    ∀ b : BodyState, b.scope = s → declareArgs ((param, ty) :: rest) b =
      declareArgs rest
        { b with diagnostics := b.diagnostics.push (errorAt param.span (.declaration e)) }

theorem ScopeCall.refused {s : Scope} {call : ScopeCall} {e : DeclarationError}
    (h : call.run s = .error e) :
    call.Refused s e := by
  constructor
  case unchanged => simp only [after, declares?, h, and_self]
  case checkLocal =>
    rintro name ty span rfl b rfl
    have hdeclare : b.scope.declareLocal name ty span = .error e := map_eq_error.mp h
    simp only [BodyM.declareLocal, bind, StateT.bind, get, getThe, MonadStateOf.get, StateT.get,
      pure, hdeclare]
    rfl
  case checkArg =>
    rintro param ty rest rfl b rfl
    have hdeclare : b.scope.declareArg param.name ty param.span = .error e := map_eq_error.mp h
    simp only [declareArgs, bind, StateT.bind, get, getThe, MonadStateOf.get, StateT.get, pure,
      hdeclare]
    rfl

/-- The slots of a frame are given out once. After any calls on a new scope in which no argument is
to be declared after a local, the arguments have the slots from zero on, the locals those behind the
reserved ones, and no two variables share one. A declaration is refused if and only if the innermost
block has the identity already, and then nothing comes of it. -/
theorem Scope.frame_exact :
    (∀ (globals : GlobalTable) (calls : List ScopeCall), (Scope.new globals).argsFirst calls =
      true → slotsOf (((Scope.new globals).declared calls).map Symbol.ty) < 0xFFFFFFFE →
      ((Scope.new globals).afterAll calls).FrameExact ((Scope.new globals).declared calls)) ∧
    (∀ (s : Scope) (call : ScopeCall) (e : DeclarationError), call.run s = .error e ↔
      ∃ name existing, call.name? = some name ∧
        s.innermost.find? (Identity.ofName name) = some existing ∧
        e = if sameName existing.name name then .duplicateIdentity name
          else .hashCollision name existing.name (Identity.ofName name)) ∧
    ∀ (s : Scope) (call : ScopeCall) (e : DeclarationError), call.run s = .error e →
      call.Refused s e := by
  refine ⟨fun globals calls hfirst htotal => ?_, fun _ _ _ => ScopeCall.run_eq_error_iff,
    fun _ _ _ => ScopeCall.refused⟩
  obtain ⟨as, ls, hholds, hdeclared⟩ := (Scope.Holds.new globals).afterAll hfirst (.inl rfl)
  rw [List.nil_append, List.nil_append] at hdeclared
  rw [hdeclared, List.map_append, slotsOf_append] at htotal
  rw [hdeclared]
  exact hholds.frameExact (by rw [reservedSlots]; omega)

/-- Calls with an argument declared twice, a name used again in a nested block and once more there,
and a name that collides with another one. -/
def ambushCalls : List ScopeCall :=
  [.declareArg "ped" (.handle .ped) {}, .declareArg "home" .vector {}, .declareArg "PED" .int {},
    .declareLocal "count" .int {}, .push, .declareLocal "Count" (.textLabel 16) {},
    .declareLocal "count" .int {}, .pop, .push, .declareLocal "v55020" .int {},
    .declareLocal "v59344" .int {}, .pop, .declareLocal "limit" .float {}]

theorem Scope.frame_exact_ambush :
    (Scope.new {}).argsFirst ambushCalls = true ∧
    slotsOf (((Scope.new {}).declared ambushCalls).map Symbol.ty) < 0xFFFFFFFE ∧
    ((Scope.new {}).declared ambushCalls).map (fun p => (p.name, p.kind.slot?)) =
      [("ped", some 0), ("home", some 1), ("count", some 6), ("Count", some 7), ("v55020", some 11),
        ("limit", some 12)] ∧
    ((Scope.new {}).afterAll ambushCalls).frameSize = 13 ∧
    ((Scope.new {}).afterAll ambushCalls).FrameExact ((Scope.new {}).declared ambushCalls) ∧
    ∃ e, (ScopeCall.declareLocal "v59344" .int {}).run
      ((Scope.new {}).afterAll (ambushCalls.take 10)) =
        .error e ∧
      (ScopeCall.declareLocal "v59344" .int {}).Refused
        ((Scope.new {}).afterAll (ambushCalls.take 10)) e := by
  have heval : (Scope.new {}).argsFirst ambushCalls = true ∧
      slotsOf (((Scope.new {}).declared ambushCalls).map Symbol.ty) < 0xFFFFFFFE ∧
      ((Scope.new {}).declared ambushCalls).map (fun p => (p.name, p.kind.slot?)) =
        [("ped", some 0), ("home", some 1), ("count", some 6), ("Count", some 7),
          ("v55020", some 11), ("limit", some 12)] ∧
      ((Scope.new {}).afterAll ambushCalls).frameSize = 13 ∧
      ((((Scope.new {}).afterAll (ambushCalls.take 10)).innermost.find?
        (Identity.ofName "v59344")).map Symbol.name) = some "v55020" := by
    decide +kernel
  obtain ⟨hfirst, htotal, hslots, hsize, hfind⟩ := heval
  obtain ⟨existing, hexisting, -⟩ := Option.map_eq_some_iff.mp hfind
  obtain ⟨hframe, hiff, hrefused⟩ := Scope.frame_exact
  have hrun :=
    (hiff ((Scope.new {}).afterAll (ambushCalls.take 10)) (.declareLocal "v59344" .int {}) _).mpr
    ⟨"v59344", existing, rfl, hexisting, rfl⟩
  exact ⟨hfirst, htotal, hslots, hsize, hframe {} ambushCalls hfirst htotal, _, hrun,
    hrefused _ _ _ hrun⟩

end GameScript
