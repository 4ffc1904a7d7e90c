import GameScript.Diagnostic
import GameScript.Type.Registry

/-!
# Symbols

A symbol is what a name stands for: a type, a piece of storage, a function or a member of an enum.
-/
namespace GameScript

/-- The name of the function in which a script starts. -/
def entryName : String := "main"

/-- Whether a function is compiled from the script or provided by the game. -/
inductive Linkage where
  | script
  | native
deriving DecidableEq, Repr

/-- What sort of thing a symbol is. Arguments and locals know their first frame slot. -/
inductive SymbolKind where
  | type
  | static (isArg : Bool) (init : Option Literal)
  | global
  | function (linkage : Linkage)
  | arg (slot : UInt32)
  | frame (slot : UInt32)
  | member (value : Int32)
deriving DecidableEq, Repr

structure Symbol where
  name : String
  ty : Ty
  span : Span := {}
  kind : SymbolKind

namespace SymbolKind

def text : SymbolKind → String
  | type => "type"
  | static true _ => "script argument"
  | static false _ => "static"
  | global => "global"
  | function .native => "native"
  | function .script => "function"
  | arg _ => "argument"
  | frame _ => "local"
  | member _ => "enum member"

def isType : SymbolKind → Bool
  | type => true
  | _ => false

/-- Statics, globals, arguments and locals name storage. -/
def isVariable : SymbolKind → Bool
  | static _ _ | global | arg _ | frame _ => true
  | type | function _ | member _ => false

def slot? : SymbolKind → Option UInt32
  | arg s | frame s => some s
  | _ => none

def value? : SymbolKind → Option Int32
  | member v => some v
  | _ => none

end SymbolKind

namespace Symbol

def id (s : Symbol) : Identity := Identity.ofName s.name

/-- The symbol of a type under the type's own name. -/
def ofType (ty : Ty) : Symbol := { name := ty.name, ty := ty, kind := .type }

end Symbol

/-- Symbols by identity, in the order in which they were added. -/
abbrev SymbolTable := List (Identity × Symbol)

namespace SymbolTable

def find? (t : SymbolTable) (id : Identity) : Option Symbol := t.lookup id

/-- Add a symbol under its identity, which must be free in this table. -/
def insert (t : SymbolTable) (s : Symbol) : Except DeclarationError SymbolTable :=
  match t.find? s.id with
  | some existing => .error (Registry.clash s.name existing.name s.id)
  | none => .ok (t ++ [(s.id, s)])

end SymbolTable

/-- The top-level symbols of one script. -/
structure GlobalTable where
  symbols : SymbolTable := []

namespace GlobalTable

/-- A table that names every type of a registry that a script can name. -/
def ofRegistry (r : Registry) : GlobalTable :=
  ⟨r.nameable.map fun e => (e.1, Symbol.ofType e.2)⟩

def find? (t : GlobalTable) (id : Identity) : Option Symbol := t.symbols.find? id

def findName? (t : GlobalTable) (name : String) : Option Symbol := t.find? (Identity.ofName name)

/-- The type of this name, if the name stands for a type. -/
def findType? (t : GlobalTable) (name : String) : Option Ty :=
  match t.findName? name with
  | some s => if s.kind.isType then some s.ty else none
  | none => none

def add (t : GlobalTable) (s : Symbol) : Except DeclarationError GlobalTable :=
  (t.symbols.insert s).map GlobalTable.mk

def size (t : GlobalTable) : Nat := t.symbols.length

def names (t : GlobalTable) : List String := t.symbols.map fun e => e.2.name

end GlobalTable
end GameScript
