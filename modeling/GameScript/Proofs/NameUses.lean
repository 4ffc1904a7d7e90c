import GameScript.Proofs.KeptDeclarations

/-!
# Where names are used

A script uses names in expressions, as callees, as types and as targets of jumps. Each of them is
looked up where it stands: in the scope that the declarations before it have built, or among the
labels of its function. What it means that all names of a script are found is said here by recursion
on the source, with the scope passed from statement to statement; a relation says how the name that
is written and the name of what is found must be alike.

Tables are searched by identity alone. So a symbol that is found has the identity of the name that
is written, and it is spelled like it exactly if no other declared name shares that identity.
-/
namespace GameScript

/-! ## Names of the source -/

mutual

/-- The names in an expression, those of callees included. A field is not among them: it is looked
up in the type of its target. -/
def Expr.names : Expr → List String
  | .literal _ _ => []
  | .name _ n => [n]
  | .unary _ _ e | .field _ e _ | .sizeOf _ e => e.names
  | .binary _ _ x y | .index _ x y => x.names ++ y.names
  | .call _ callee args => callee.names ++ Expr.listNames args
  | .vector _ x y z => x.names ++ (y.names ++ z.names)

def Expr.listNames : List Expr → List String
  | [] => []
  | e :: rest => e.names ++ Expr.listNames rest

end

def Expr.optionNames : Option Expr → List String
  | none => []
  | some e => e.names

mutual

/-- The names that a statement uses: of values, functions, types and labels. -/
def Stmt.uses : Stmt → List String
  | .var _ _ ref init => ref.name :: Expr.optionNames init
  | .assign _ target value => target.names ++ value.names
  | .cond _ condition thenBody elseBody =>
    condition.names ++ (Stmt.blockUses thenBody ++ Stmt.blockUses elseBody)
  | .whileLoop _ condition body => condition.names ++ Stmt.blockUses body
  | .repeatLoop _ limit counter body => limit.names ++ (counter.names ++ Stmt.blockUses body)
  | .switch _ value cases none => value.names ++ Stmt.caseUses cases
  | .switch _ value cases (some body) => value.names ++ (Stmt.caseUses cases ++ Stmt.blockUses body)
  | .ret _ value => Expr.optionNames value
  | .call _ e => e.names
  | .label _ _ => []
  | .goto _ name => [name]
  | .block _ body => Stmt.blockUses body

def Stmt.blockUses : List Stmt → List String
  | [] => []
  | s :: rest => s.uses ++ Stmt.blockUses rest

def Stmt.caseUses : List SwitchCase → List String
  | [] => []
  | ⟨e, body, _⟩ :: rest => e.names ++ (Stmt.blockUses body ++ Stmt.caseUses rest)

end

mutual

def Stmt.locals : Stmt → List String
  | .var _ name _ _ => [name]
  | .cond _ _ thenBody elseBody => Stmt.blockLocals thenBody ++ Stmt.blockLocals elseBody
  | .whileLoop _ _ body | .repeatLoop _ _ _ body | .block _ body => Stmt.blockLocals body
  | .switch _ _ cases none => Stmt.caseLocals cases
  | .switch _ _ cases (some body) => Stmt.caseLocals cases ++ Stmt.blockLocals body
  | _ => []

def Stmt.blockLocals : List Stmt → List String
  | [] => []
  | s :: rest => s.locals ++ Stmt.blockLocals rest

def Stmt.caseLocals : List SwitchCase → List String
  | [] => []
  | ⟨_, body, _⟩ :: rest => Stmt.blockLocals body ++ Stmt.caseLocals rest

end

/-! ## Names that are found -/

section
variable (R : String → String → Prop)

/-- The name stands for a visible symbol, and is related to the symbol's own name. -/
def Scope.Resolves (scope : Scope) (name : String) : Prop :=
  ∃ s, scope.findName? name = some s ∧ R name s.name

def Expr.Resolves (scope : Scope) (e : Expr) : Prop := ∀ name ∈ e.names, scope.Resolves R name

def TypeRef.Resolves (scope : Scope) (ref : TypeRef) : Prop :=
  ∃ s, scope.findName? ref.name = some s ∧ s.kind.isType = true ∧ R ref.name s.name

mutual

/-- All names of a statement are found in the scope before it; the second scope is the one after
it. -/
inductive Stmt.Resolves (labels : LabelTable) : Stmt → Scope → Scope → Prop where
  /-- The initial value does not see the variable. -/
  | var {span name ref init ty slot scope scope'} : ref.Resolves R scope →
      (∀ e ∈ init, e.Resolves R scope) → scope.declareLocal name ty span = .ok (slot, scope') →
      Resolves labels (.var span name ref init) scope scope'
  | assign {span target value scope} : target.Resolves R scope → value.Resolves R scope →
      Resolves labels (.assign span target value) scope scope
  | cond {span condition thenBody elseBody scope inner inner'} : condition.Resolves R scope →
      Stmt.BlockResolves labels thenBody scope.push inner →
      Stmt.BlockResolves labels elseBody inner.pop.push inner' →
      Resolves labels (.cond span condition thenBody elseBody) scope inner'.pop
  | whileLoop {span condition body scope inner} : condition.Resolves R scope →
      Stmt.BlockResolves labels body scope.push inner →
      Resolves labels (.whileLoop span condition body) scope inner.pop
  | repeatLoop {span limit counter body scope inner} : limit.Resolves R scope →
      counter.Resolves R scope → Stmt.BlockResolves labels body scope.push inner →
      Resolves labels (.repeatLoop span limit counter body) scope inner.pop
  | switch {span value cases scope scope'} : value.Resolves R scope →
      Stmt.CasesResolve labels cases scope scope' →
      Resolves labels (.switch span value cases none) scope scope'
  | switchDefault {span value cases body scope scope' inner} : value.Resolves R scope →
      Stmt.CasesResolve labels cases scope scope' →
        Stmt.BlockResolves labels body scope'.push inner →
      Resolves labels (.switch span value cases (some body)) scope inner.pop
  | ret {span value scope} : (∀ e ∈ value, e.Resolves R scope) →
      Resolves labels (.ret span value) scope scope
  | call {span e scope} : e.Resolves R scope → Resolves labels (.call span e) scope scope
  | label {span name scope} : Resolves labels (.label span name) scope scope
  | goto {span name l scope} : labels.findName? name = some l → R name l.name →
      Resolves labels (.goto span name) scope scope
  | block {span body scope inner} : Stmt.BlockResolves labels body scope.push inner →
      Resolves labels (.block span body) scope inner.pop

inductive Stmt.BlockResolves (labels : LabelTable) : List Stmt → Scope → Scope → Prop where
  | nil {scope} : Stmt.BlockResolves labels [] scope scope
  | cons {s body scope scope' scope''} : Stmt.Resolves labels s scope scope' →
      Stmt.BlockResolves labels body scope' scope'' →
      Stmt.BlockResolves labels (s :: body) scope scope''

inductive Stmt.CasesResolve (labels : LabelTable) : List SwitchCase → Scope → Scope → Prop where
  | nil {scope} : Stmt.CasesResolve labels [] scope scope
  | cons {e body span cases scope inner scope'} : e.Resolves R scope →
      Stmt.BlockResolves labels body scope.push inner →
        Stmt.CasesResolve labels cases inner.pop scope' →
      Stmt.CasesResolve labels (⟨e, body, span⟩ :: cases) scope scope'

end

end

inductive Scope.Params : Scope → List ParamDecl → Scope → Prop where
  | nil {scope} : Params scope [] scope
  | cons {p params ty slot scope scope' scope''} :
      scope.declareArg p.name ty p.span = .ok (slot, scope') → Params scope' params scope'' →
      Params scope (p :: params) scope''

/-! ## What a lookup can find -/

/-- Every symbol stands under the identity of its own name, which is one of these names. -/
def SymbolTable.Keyed (names : List String) (t : SymbolTable) : Prop :=
  ∀ e ∈ t, e.1 = e.2.id ∧ e.2.name ∈ names

theorem SymbolTable.Keyed.append {names : List String} {t : SymbolTable} (h : t.Keyed names)
    {symbol : Symbol} (hname : symbol.name ∈ names) :
    SymbolTable.Keyed names (t ++ [(symbol.id, symbol)]) :=
  List.forall_mem_append.mpr ⟨h, List.forall_mem_singleton.mpr ⟨rfl, hname⟩⟩

theorem SymbolTable.Keyed.find {names : List String} {t : SymbolTable} (h : t.Keyed names)
    {name : String} {s : Symbol} (hs : t.find? (Identity.ofName name) = some s) :
    s.name ∈ names ∧ Identity.ofName s.name = Identity.ofName name := by
  obtain ⟨hkey, hname⟩ := h _ (mem_of_lookup hs)
  exact ⟨hname, hkey.symm⟩

structure Scope.Keyed (names : List String) (scope : Scope) : Prop where
  globals : scope.globals.symbols.Keyed names
  blocks : ∀ t ∈ scope.innermost :: scope.enclosing, t.Keyed names

namespace Scope.Keyed

variable {names : List String} {scope scope' : Scope}

theorem new {symbols : GlobalTable} (h : symbols.symbols.Keyed names) :
    (Scope.new symbols).Keyed names :=
  ⟨h, List.forall_mem_singleton.mpr fun _ he => absurd he List.not_mem_nil⟩

/-- What is found in a scope has one of the names, with the identity that was looked up. -/
theorem find (h : scope.Keyed names) {name : String} {s : Symbol}
    (hs : scope.findName? name = some s) :
    s.name ∈ names ∧ Identity.ofName s.name = Identity.ofName name := by
  unfold Scope.findName? Scope.find? at hs
  split at hs
  · next symbol hblock =>
      obtain rfl := Option.some.inj hs
      obtain ⟨t, ht, hfind⟩ := List.exists_of_findSome?_eq_some hblock
      exact (h.blocks t ht).find hfind
  · exact h.globals.find hs

theorem push (h : scope.Keyed names) : scope.push.Keyed names :=
  ⟨h.globals, List.forall_mem_cons.mpr ⟨fun _ he => absurd he List.not_mem_nil, h.blocks⟩⟩

theorem pop (h : scope.Keyed names) : scope.pop.Keyed names := by
  unfold Scope.pop
  cases henclosing : scope.enclosing with
  | nil => exact h
  | cons outer rest =>
      have hblocks := h.blocks
      rw [henclosing, List.forall_mem_cons] at hblocks
      exact ⟨h.globals, hblocks.2⟩

/-- A symbol that is added to the innermost block. -/
theorem insert (h : scope.Keyed names) {symbol : Symbol} (hname : symbol.name ∈ names)
    {block : SymbolTable} (hblock : scope.innermost.insert symbol = .ok block)
    (hglobals : scope'.globals = scope.globals) (hinnermost : scope'.innermost = block)
    (henclosing : scope'.enclosing = scope.enclosing) : scope'.Keyed names := by
  obtain ⟨-, rfl⟩ := SymbolTable.insert_ok hblock
  have hblocks := List.forall_mem_cons.mp h.blocks
  refine ⟨hglobals ▸ h.globals, ?_⟩
  rw [hinnermost, henclosing]
  exact List.forall_mem_cons.mpr ⟨hblocks.1.append hname, hblocks.2⟩

theorem declareLocal (h : scope.Keyed names) {name : String} (hname : name ∈ names) {ty : Ty}
    {span : Span} {slot : UInt32}
    (hdeclare : scope.declareLocal name ty span = .ok (slot, scope')) :
    scope'.Keyed names := by
  obtain ⟨block, hblock, hp⟩ := bind_eq_ok.mp hdeclare
  obtain rfl := (Prod.mk.inj (Except.ok.inj hp)).2
  exact h.insert hname hblock rfl rfl rfl

theorem declareArg (h : scope.Keyed names) {name : String} (hname : name ∈ names) {ty : Ty}
    {span : Span} {slot : UInt32} (hdeclare : scope.declareArg name ty span = .ok (slot, scope')) :
    scope'.Keyed names := by
  obtain ⟨block, hblock, hp⟩ := bind_eq_ok.mp hdeclare
  obtain rfl := (Prod.mk.inj (Except.ok.inj hp)).2
  exact h.insert hname hblock rfl rfl rfl

theorem params (h : scope.Keyed names) {params : List ParamDecl}
    (hparams : scope.Params params scope') (hnames : params.map ParamDecl.name ⊆ names) :
    scope'.Keyed names := by
  induction hparams with
  | nil => exact h
  | cons hdeclare _ ih =>
      rw [List.map_cons, List.cons_subset] at hnames
      exact ih (h.declareArg hnames.1 hdeclare) hnames.2

end Scope.Keyed

/-! ## From identities to spellings -/

/-- The relation holds of a use and every one of the names that shares its identity. -/
def Settles (R : String → String → Prop) (names uses : List String) : Prop :=
  ∀ w ∈ uses, ∀ d ∈ names, Identity.ofName d = Identity.ofName w → R w d

theorem settles_append {R : String → String → Prop} {names uses uses' : List String} :
    Settles R names (uses ++ uses') ↔ Settles R names uses ∧ Settles R names uses' :=
  List.forall_mem_append

theorem settles_cons {R : String → String → Prop} {names uses : List String} {w : String} :
    Settles R names (w :: uses) ↔
      (∀ d ∈ names, Identity.ofName d = Identity.ofName w → R w d) ∧ Settles R names uses :=
  List.forall_mem_cons

def AnySpelling (_ _ : String) : Prop := True

section
variable {R : String → String → Prop} {names : List String} {scope scope' : Scope}

theorem Expr.Resolves.settle {e : Expr} (h : e.Resolves AnySpelling scope)
    (hkeyed : scope.Keyed names) (hR : Settles R names e.names) : e.Resolves R scope := by
  intro name hname
  obtain ⟨s, hfind, -⟩ := h name hname
  obtain ⟨hmem, hid⟩ := hkeyed.find hfind
  exact ⟨s, hfind, hR name hname s.name hmem hid⟩

theorem Expr.Resolves.settleOption {o : Option Expr} (h : ∀ e ∈ o, e.Resolves AnySpelling scope)
    (hkeyed : scope.Keyed names) (hR : Settles R names (Expr.optionNames o)) :
    ∀ e ∈ o, e.Resolves R scope := by
  rintro e ⟨⟩
  exact (h e rfl).settle hkeyed hR

theorem TypeRef.Resolves.settle {ref : TypeRef} (h : ref.Resolves AnySpelling scope)
    (hkeyed : scope.Keyed names)
    (hR : ∀ d ∈ names, Identity.ofName d = Identity.ofName ref.name → R ref.name d) :
    ref.Resolves R scope := by
  obtain ⟨s, hfind, htype, -⟩ := h
  obtain ⟨hmem, hid⟩ := hkeyed.find hfind
  exact ⟨s, hfind, htype, hR s.name hmem hid⟩

end

/-- Labels are found under their own identity, and are among these names. -/
def LabelTable.Keyed (names : List String) (labels : LabelTable) : Prop :=
  ∀ name l, labels.findName? name = some l → l.name ∈ names ∧
    Identity.ofName l.name = Identity.ofName name

section
variable {R : String → String → Prop} {names : List String} {labels : LabelTable}

-- The scope stays keyed from statement to statement, so every lookup finds one of the names.
mutual

theorem Stmt.Resolves.settle (hlabels : labels.Keyed names) : (s : Stmt) → {scope scope' : Scope} →
    s.Resolves AnySpelling labels scope scope' → scope.Keyed names → s.locals ⊆ names →
    Settles R names s.uses → s.Resolves R labels scope scope' ∧ scope'.Keyed names
  | .var _ _ _ _, _, _, h, hkeyed, hlocals, hR => by
      rw [Stmt.locals, List.cons_subset] at hlocals
      rw [Stmt.uses, settles_cons] at hR
      cases h with
      | var hty hinit hdeclare =>
          exact ⟨.var (hty.settle hkeyed hR.1) (Expr.Resolves.settleOption hinit hkeyed hR.2)
            hdeclare, hkeyed.declareLocal hlocals.1 hdeclare⟩
  | .assign _ _ _, _, _, h, hkeyed, _, hR => by
      rw [Stmt.uses, settles_append] at hR
      cases h with
      | assign htarget hvalue =>
          exact ⟨.assign (htarget.settle hkeyed hR.1) (hvalue.settle hkeyed hR.2), hkeyed⟩
  | .cond _ _ thenBody elseBody, _, _, h, hkeyed, hlocals, hR => by
      rw [Stmt.locals, List.append_subset] at hlocals
      rw [Stmt.uses, settles_append, settles_append] at hR
      cases h with
      | cond hcondition hthen helse =>
          obtain ⟨hthen, hinner⟩ :=
            Stmt.BlockResolves.settle hlabels thenBody hthen hkeyed.push hlocals.1 hR.2.1
          obtain ⟨helse, hinner⟩ :=
            Stmt.BlockResolves.settle hlabels elseBody helse hinner.pop.push hlocals.2 hR.2.2
          exact ⟨.cond (hcondition.settle hkeyed hR.1) hthen helse, hinner.pop⟩
  | .whileLoop _ _ body, _, _, h, hkeyed, hlocals, hR => by
      rw [Stmt.locals] at hlocals
      rw [Stmt.uses, settles_append] at hR
      cases h with
      | whileLoop hcondition hbody =>
          obtain ⟨hbody, hinner⟩ :=
            Stmt.BlockResolves.settle hlabels body hbody hkeyed.push hlocals hR.2
          exact ⟨.whileLoop (hcondition.settle hkeyed hR.1) hbody, hinner.pop⟩
  | .repeatLoop _ _ _ body, _, _, h, hkeyed, hlocals, hR => by
      rw [Stmt.locals] at hlocals
      rw [Stmt.uses, settles_append, settles_append] at hR
      cases h with
      | repeatLoop hlimit hcounter hbody =>
          obtain ⟨hbody, hinner⟩ :=
            Stmt.BlockResolves.settle hlabels body hbody hkeyed.push hlocals hR.2.2
          exact ⟨.repeatLoop (hlimit.settle hkeyed hR.1) (hcounter.settle hkeyed hR.2.1) hbody,
            hinner.pop⟩
  | .switch _ _ cases none, _, _, h, hkeyed, hlocals, hR => by
      rw [Stmt.locals] at hlocals
      rw [Stmt.uses, settles_append] at hR
      cases h with
      | switch hvalue hcases =>
          obtain ⟨hcases, hafter⟩ :=
            Stmt.CasesResolve.settle hlabels cases hcases hkeyed hlocals hR.2
          exact ⟨.switch (hvalue.settle hkeyed hR.1) hcases, hafter⟩
  | .switch _ _ cases (some body), _, _, h, hkeyed, hlocals, hR => by
      rw [Stmt.locals, List.append_subset] at hlocals
      rw [Stmt.uses, settles_append, settles_append] at hR
      cases h with
      | switchDefault hvalue hcases hbody =>
          obtain ⟨hcases, hafter⟩ :=
            Stmt.CasesResolve.settle hlabels cases hcases hkeyed hlocals.1 hR.2.1
          obtain ⟨hbody, hinner⟩ :=
            Stmt.BlockResolves.settle hlabels body hbody hafter.push hlocals.2 hR.2.2
          exact ⟨.switchDefault (hvalue.settle hkeyed hR.1) hcases hbody, hinner.pop⟩
  | .ret _ _, _, _, h, hkeyed, _, hR => by
      rw [Stmt.uses] at hR
      cases h with
      | ret hvalue => exact ⟨.ret (Expr.Resolves.settleOption hvalue hkeyed hR), hkeyed⟩
  | .call _ _, _, _, h, hkeyed, _, hR => by
      rw [Stmt.uses] at hR
      cases h with
      | call he => exact ⟨.call (he.settle hkeyed hR), hkeyed⟩
  | .label _ _, _, _, h, hkeyed, _, _ => by
      cases h with
      | label => exact ⟨.label, hkeyed⟩
  | .goto _ _, _, _, h, hkeyed, _, hR => by
      rw [Stmt.uses, settles_cons] at hR
      cases h with
      | goto hfind _ =>
          obtain ⟨hmem, hid⟩ := hlabels _ _ hfind
          exact ⟨.goto hfind (hR.1 _ hmem hid), hkeyed⟩
  | .block _ body, _, _, h, hkeyed, hlocals, hR => by
      rw [Stmt.locals] at hlocals
      rw [Stmt.uses] at hR
      cases h with
      | block hbody =>
          obtain ⟨hbody, hinner⟩ :=
            Stmt.BlockResolves.settle hlabels body hbody hkeyed.push hlocals hR
          exact ⟨.block hbody, hinner.pop⟩

theorem Stmt.BlockResolves.settle (hlabels : labels.Keyed names) : (body : List Stmt) →
    {scope scope' : Scope} → Stmt.BlockResolves AnySpelling labels body scope scope' →
      scope.Keyed names →
    Stmt.blockLocals body ⊆ names → Settles R names (Stmt.blockUses body) →
    Stmt.BlockResolves R labels body scope scope' ∧ scope'.Keyed names
  | [], _, _, h, hkeyed, _, _ => by
      cases h with
      | nil => exact ⟨.nil, hkeyed⟩
  | s :: rest, _, _, h, hkeyed, hlocals, hR => by
      rw [Stmt.blockLocals, List.append_subset] at hlocals
      rw [Stmt.blockUses, settles_append] at hR
      cases h with
      | cons hs hrest =>
          obtain ⟨hs, hkeyed⟩ := Stmt.Resolves.settle hlabels s hs hkeyed hlocals.1 hR.1
          obtain ⟨hrest, hkeyed⟩ :=
            Stmt.BlockResolves.settle hlabels rest hrest hkeyed hlocals.2 hR.2
          exact ⟨.cons hs hrest, hkeyed⟩

theorem Stmt.CasesResolve.settle (hlabels : labels.Keyed names) : (cases : List SwitchCase) →
    {scope scope' : Scope} → Stmt.CasesResolve AnySpelling labels cases scope scope' →
      scope.Keyed names →
    Stmt.caseLocals cases ⊆ names → Settles R names (Stmt.caseUses cases) →
    Stmt.CasesResolve R labels cases scope scope' ∧ scope'.Keyed names
  | [], _, _, h, hkeyed, _, _ => by
      cases h with
      | nil => exact ⟨.nil, hkeyed⟩
  | ⟨_, body, _⟩ :: rest, _, _, h, hkeyed, hlocals, hR => by
      rw [Stmt.caseLocals, List.append_subset] at hlocals
      rw [Stmt.caseUses, settles_append, settles_append] at hR
      cases h with
      | cons he hbody hrest =>
          obtain ⟨hbody, hinner⟩ :=
            Stmt.BlockResolves.settle hlabels body hbody hkeyed.push hlocals.1 hR.2.1
          obtain ⟨hrest, hafter⟩ :=
            Stmt.CasesResolve.settle hlabels rest hrest hinner.pop hlocals.2 hR.2.2
          exact ⟨.cons (he.settle hkeyed hR.1) hbody hrest, hafter⟩

end

end

end GameScript
