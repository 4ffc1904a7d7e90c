import GameScript.Proofs.TypeFacts

/-!
# Labels of statements

A function's labels, in the order in which they stand in its body, whatever block they are in. They
are the same for source statements and for typed ones, so that a body that is typed without an error
keeps them. Collecting the labels of a body reports an error exactly when a label cannot be told
from an earlier one by its identity; otherwise the table lists the labels of the body.
-/
namespace GameScript

mutual

def Stmt.labels : Stmt → List String
  | .label _ name => [name]
  | .cond _ _ thenBody elseBody => Stmt.blockLabels thenBody ++ Stmt.blockLabels elseBody
  | .whileLoop _ _ body | .repeatLoop _ _ _ body | .block _ body => Stmt.blockLabels body
  | .switch _ _ cases default =>
    Stmt.caseLabels cases ++
      match default with
      | some body => Stmt.blockLabels body
      | none => []
  | _ => []

def Stmt.blockLabels : List Stmt → List String
  | [] => []
  | s :: rest => s.labels ++ Stmt.blockLabels rest

def Stmt.caseLabels : List SwitchCase → List String
  | [] => []
  | ⟨_, body, _⟩ :: rest => Stmt.blockLabels body ++ Stmt.caseLabels rest

end

mutual

def TypedStmt.labels : TypedStmt → List String
  | .label name => [name]
  | .cond _ thenBody elseBody => TypedStmt.blockLabels thenBody ++ TypedStmt.blockLabels elseBody
  | .whileLoop _ body | .repeatLoop _ _ body | .block body => TypedStmt.blockLabels body
  | .switch _ cases default =>
    TypedStmt.caseLabels cases ++
      match default with
      | some body => TypedStmt.blockLabels body
      | none => []
  | _ => []

def TypedStmt.blockLabels : List TypedStmt → List String
  | [] => []
  | s :: rest => s.labels ++ TypedStmt.blockLabels rest

def TypedStmt.caseLabels : List TypedCase → List String
  | [] => []
  | ⟨_, body⟩ :: rest => TypedStmt.blockLabels body ++ TypedStmt.caseLabels rest

end

theorem TypedStmt.blockLabels_append (xs ys : List TypedStmt) :
    blockLabels (xs ++ ys) = blockLabels xs ++ blockLabels ys := by
  induction xs with
  | nil => rw [List.nil_append, blockLabels, List.nil_append]
  | cons x xs ih => rw [List.cons_append, blockLabels, blockLabels, ih, List.append_assoc]

/-- The table lists these labels, and they have different identities. -/
structure LabelTable.Lists (table : LabelTable) (names : List String) : Prop where
  entries : table.map (fun e => (e.1, e.2.name)) = names.map fun n => (Identity.ofName n, n)
  nodup : (names.map Identity.ofName).Nodup

/-- What is found is one of the labels, under its own identity. -/
theorem LabelTable.Lists.mem_of_find {table : LabelTable} {names : List String}
    (h : table.Lists names) {name : String} {l : Label} (hl : table.findName? name = some l) :
    l.name ∈ names ∧ Identity.ofName l.name = Identity.ofName name := by
  have hmem : (Identity.ofName name, l.name) ∈ table.map fun e => (e.1, e.2.name) :=
    List.mem_map.mpr ⟨_, mem_of_lookup hl, rfl⟩
  rw [h.entries, List.mem_map] at hmem
  obtain ⟨n, hn, heq⟩ := hmem
  obtain ⟨hid, rfl⟩ := Prod.mk.inj heq
  exact ⟨hn, hid⟩

theorem LabelTable.Lists.add {table table' : LabelTable} {names : List String}
    (h : table.Lists names) {name : String} {span : Span}
    (hadd : table.add name span = .ok table') :
    table'.Lists (names ++ [name]) := by
  unfold LabelTable.add at hadd
  cases hfind : table.findName? name with
  | some l => rw [hfind] at hadd; cases hadd
  | none =>
      rw [hfind] at hadd
      obtain rfl := Except.ok.inj hadd
      constructor
      · rw [List.map_append, List.map_append, h.entries]
        rfl
      · have hkeys : table.map Prod.fst = names.map Identity.ofName := by
          have hfst := congrArg (List.map Prod.fst) h.entries
          rw [List.map_map, List.map_map] at hfst
          exact hfst
        rw [List.map_append, List.map_singleton,
          (List.perm_append_singleton _ _).nodup_iff, List.nodup_cons, ← hkeys]
        exact ⟨not_mem_keys_of_lookup hfind, hkeys ▸ h.nodup⟩

/-- What a scan has collected: only errors, and unless there are any, a table of all labels. -/
structure LabelScan.Holds (scan : LabelScan) (names : List String) : Prop where
  errors : ∀ d ∈ scan.2, d.isError = true
  table : scan.2 = [] → LabelTable.Lists scan.1 names

mutual

theorem Stmt.scanLabels_holds {scan : LabelScan} {names : List String} (h : scan.Holds names) :
    (s : Stmt) → (s.scanLabels scan).Holds (names ++ s.labels)
  | .label span name => by
      rcases scan with ⟨table, reports⟩
      rw [Stmt.scanLabels, Stmt.labels]
      cases hadd : table.add name span with
      | ok table' => exact ⟨h.errors, fun hnone => (h.table hnone).add hadd⟩
      | error e =>
          refine ⟨fun d hd => ?_, fun hnone => absurd hnone (by simp)⟩
          rcases List.mem_append.mp hd with hd | hd
          · exact h.errors d hd
          · rw [List.mem_singleton.mp hd]
            rfl
  | .cond _ _ thenBody elseBody => by
      rw [Stmt.scanLabels, Stmt.labels, ← List.append_assoc]
      exact scanLabels_holds (scanLabels_holds h thenBody) elseBody
  | .whileLoop _ _ body | .repeatLoop _ _ _ body | .block _ body => by
      rw [Stmt.scanLabels, Stmt.labels]
      exact scanLabels_holds h body
  | .switch _ _ cases none => by
      rw [Stmt.scanLabels, Stmt.labels, List.append_nil]
      exact scanCaseLabels_holds h cases
  | .switch _ _ cases (some body) => by
      rw [Stmt.scanLabels, Stmt.labels, ← List.append_assoc]
      exact scanLabels_holds (scanCaseLabels_holds h cases) body
  | .var .. | .assign .. | .ret .. | .call .. | .goto .. => by
      rw [Stmt.scanLabels, Stmt.labels, List.append_nil]
      · exact h
      all_goals intros; contradiction

theorem scanLabels_holds {scan : LabelScan} {names : List String} (h : scan.Holds names) :
    (body : List Stmt) → (scanLabels body scan).Holds (names ++ Stmt.blockLabels body)
  | [] => by
      rw [scanLabels, Stmt.blockLabels, List.append_nil]
      exact h
  | s :: rest => by
      rw [scanLabels, Stmt.blockLabels, ← List.append_assoc]
      exact scanLabels_holds (s.scanLabels_holds h) rest

theorem scanCaseLabels_holds {scan : LabelScan} {names : List String} (h : scan.Holds names) :
    (cases : List SwitchCase) → (scanCaseLabels cases scan).Holds (names ++ Stmt.caseLabels cases)
  | [] => by
      rw [scanCaseLabels, Stmt.caseLabels, List.append_nil]
      exact h
  | ⟨_, body, _⟩ :: rest => by
      rw [scanCaseLabels, Stmt.caseLabels, ← List.append_assoc]
      exact scanCaseLabels_holds (scanLabels_holds h body) rest

end

/-- The labels of a whole body. -/
theorem scanLabels_body (body : List Stmt) :
    (scanLabels body ([], [])).Holds (Stmt.blockLabels body) := by
  have hempty : LabelScan.Holds ([], []) [] :=
    ⟨fun _ hd => absurd hd List.not_mem_nil, fun _ => ⟨rfl, List.nodup_nil⟩⟩
  exact scanLabels_holds hempty body

end GameScript
