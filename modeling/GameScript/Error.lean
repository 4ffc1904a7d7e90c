import GameScript.Identity
import GameScript.Literal

/-!
# Errors

Each way in which the toolchain can refuse its input is one constructor that holds the cause. The
wording is a function of the cause.
-/
namespace GameScript

inductive DeclarationError where
  | duplicateIdentity (name : String)
  | hashCollision (name existing : String) (id : Identity)
  | undefinedOrCircular (names : List String)
  | malformedNakedFunction (name : String)
  | hasDependents (name : String) (dependents : List String)
  | permanentType (name : String)
  | unknownType (name : String)
  | invalidTextLabelLength (length : Nat)
  | duplicateLabel (name : String)
  | duplicateGlobalBlock (name existing : String)
deriving DecidableEq, Repr

inductive TypeError where
  | mismatch (expected found : String)
  | unknownName (name : String)
  | notAType (name : String)
  | notCallable (name : String)
  | argumentCount (expected found : Nat)
  | argumentType (index : Nat) (expected found : String)
  | invalidUnaryOperator (op operand : String)
  | invalidBinaryOperator (op lhs rhs : String)
  | unknownField (ty field : String)
  | notIndexable (ty : String)
  | requiredType (context expected found : String)
  | notAnLValue
  | returnMismatch (expected found : String)
  | missingReturnValue (expected : String)
  | unexpectedReturnValue
  | unknownLabel (name : String)
  | invalidStaticInitializer (kind name reason : String)
  | typeAsValue (name : String)
  | duplicateCase (value : Int)
deriving DecidableEq, Repr

/-- Where container bytes end too early: in a field of the header, or in a segment. -/
inductive Shortage where
  | field
  | segment (what : String) (needed left : Nat)
deriving DecidableEq, Repr

/-- Why a compressed stream cannot be expanded: it is not valid, or it ends too early. -/
inductive StreamFault where
  | corrupt
  | incomplete
deriving DecidableEq, Repr

/-- Container bytes that cannot be read, or a container that cannot be written. -/
inductive FormatError where
  | unrecognizedMagic (magic : Word)
  | truncated (shortage : Shortage)
  | lengthMismatch (what : String) (expected actual : Nat)
  | compression (fault : StreamFault)
deriving DecidableEq, Repr

/-- A construct for which no code can be generated. -/
inductive Unsupported where
  | initializerWithoutMain
  | addressOf (ty : String)
  | typeNameValue (ty : String)
  | unknownStorage (kind name : String)
  | operator (op operand : String)
  | dataInitializer (value : Literal) (ty : String)
deriving DecidableEq, Repr

/-- Assembly that cannot be encoded, or code that cannot be decoded. Storage that no allocation can
hold is not reported but ends the program, with the text given here. -/
inductive EncodingError where
  | unresolvedLabel (name : String)
  | duplicateLabel (name : String)
  | unknownMnemonic (mnemonic : String)
  | operandCount (mnemonic expected : String) (found : Nat)
  | operandType (mnemonic : String) (index : Nat) (expected : String)
  | operandOutOfRange (mnemonic : String) (value : Int) (width : String)
  | jumpOutOfRange (label : String) (offset : Int)
  | staticSizeMismatch (ty : String) (expected written : Nat)
  | capacityOverflow
  | lengthMismatch (ip : Nat) (mnemonic : String) (declared consumed : Nat)
  | truncatedInstruction (ip : Nat)
  | unsupported (what : Unsupported)
deriving DecidableEq, Repr

inductive KeyError where
  | notFound (target path : String)
  | missing (target : String)
  | noExecutable (target : String)
  | unreadable (path : String)
deriving DecidableEq, Repr

inductive Failure where
  | declaration (e : DeclarationError)
  | typing (e : TypeError)
  | format (e : FormatError)
  | encoding (e : EncodingError)
  | key (e : KeyError)
deriving DecidableEq, Repr

def DeclarationError.message : DeclarationError → String
  | duplicateIdentity name => s!"'{name}' is already declared"
  | hashCollision name existing id =>
    s!"'{name}' collides with '{existing}' (identity " ++ id.text ++ ")"
  | undefinedOrCircular names =>
    "undefined or circular type reference in: " ++ ", ".intercalate names
  | malformedNakedFunction name =>
    s!"naked function '{name}' cannot have arguments, locals or a return type"
  | hasDependents name dependents =>
    s!"type '{name}' is used by: " ++ ", ".intercalate dependents
  | permanentType name => s!"type '{name}' cannot be unregistered"
  | unknownType name => s!"unknown type '{name}'"
  | invalidTextLabelLength length => s!"invalid text label length {length}"
  | duplicateLabel name => s!"label '{name}' is already defined"
  | duplicateGlobalBlock name existing =>
    s!"GLOBALS block '{name}' conflicts with block '{existing}'"

def TypeError.message : TypeError → String
  | mismatch expected found => s!"mismatched types: expected '{expected}', found '{found}'"
  | unknownName name => s!"unknown name '{name}'"
  | notAType name => s!"'{name}' is not a type"
  | notCallable name => s!"cannot call '{name}', it is not a procedure or a function"
  | argumentCount expected found =>
    s!"mismatched number of arguments: expected {expected}, found {found}"
  | argumentType index expected found =>
    s!"mismatched type of argument #{index}: expected '{expected}', found '{found}'"
  | invalidUnaryOperator op operand => s!"operator '{op}' is not defined for '{operand}'"
  | invalidBinaryOperator op lhs rhs =>
    s!"operator '{op}' is not defined for '{lhs}' and '{rhs}'"
  | unknownField ty field => s!"type '{ty}' has no field '{field}'"
  | notIndexable ty => s!"type '{ty}' cannot be indexed"
  | requiredType context expected found =>
    s!"{context} requires {expected} type, found '{found}'"
  | notAnLValue => "expression cannot be assigned to"
  | returnMismatch expected found =>
    s!"returned type '{found}' does not match the function return type '{expected}'"
  | missingReturnValue expected => s!"function must return a value of type '{expected}'"
  | unexpectedReturnValue => "procedures cannot return a value"
  | unknownLabel name => s!"unknown label '{name}'"
  | invalidStaticInitializer kind name reason => s!"{kind} '{name}': {reason}"
  | typeAsValue name => s!"type '{name}' cannot be used as a value"
  | duplicateCase value => s!"duplicate SWITCH case value {value}"

def Shortage.message : Shortage → String
  | field => "failed to fill whole buffer"
  | segment what needed left => s!"{what} needs {needed} bytes, {left} left"

def StreamFault.message : StreamFault → String
  | corrupt => "corrupt deflate stream"
  | incomplete => "incomplete deflate stream"

def FormatError.message : FormatError → String
  | unrecognizedMagic magic =>
    "unrecognized container format (magic 0x" ++ hexUpper 8 magic.toNat ++ ")"
  | truncated shortage => "truncated container: " ++ shortage.message
  | lengthMismatch what expected actual =>
    s!"{what} length mismatch: expected {expected}, found {actual}"
  | compression fault => "compression failed: " ++ fault.message

def Unsupported.message : Unsupported → String
  | initializerWithoutMain =>
    "non-constant static or global initializers without a main function"
  | addressOf ty => s!"address of a '{ty}' value"
  | typeNameValue ty => s!"type name '{ty}' as a value"
  | unknownStorage kind name => s!"unknown {kind} '{name}'"
  | operator op operand => s!"operator '{op}' on '{operand}'"
  | dataInitializer value ty => "initializer " ++ value.display ++ s!" for '{ty}'"

/-- An address as it appears in messages: at least four upper-case hexadecimal digits. -/
def addressText (ip : Nat) : String := "0x" ++ hexUpper 4 ip

def EncodingError.message : EncodingError → String
  | unresolvedLabel name => s!"unresolved label '{name}'"
  | duplicateLabel name => s!"label '{name}' is defined more than once"
  | unknownMnemonic mnemonic => s!"unknown mnemonic '{mnemonic}'"
  | operandCount mnemonic expected found =>
    s!"{mnemonic} expects {expected} operand(s), found {found}"
  | operandType mnemonic index expected => s!"{mnemonic} operand #{index} must be {expected}"
  | operandOutOfRange mnemonic value width => s!"{mnemonic} operand {value} does not fit in {width}"
  | jumpOutOfRange label offset =>
    s!"relative jump to '{label}' is out of range (offset {offset})"
  | staticSizeMismatch ty expected written =>
    s!"static initializer for '{ty}' wrote {written} bytes, expected {expected}"
  | capacityOverflow => "capacity overflow"
  | lengthMismatch ip mnemonic declared consumed =>
    s!"instruction {mnemonic} at " ++ addressText ip ++
      s!" declares {declared} bytes but decodes {consumed}"
  | truncatedInstruction ip =>
    "instruction at " ++ addressText ip ++ " runs past the end of the code"
  | unsupported what => "code generation does not support " ++ what.message

def KeyError.message : KeyError → String
  | notFound target path => s!"AES key for {target} not found in '{path}'"
  | missing target => s!"no key available for {target}"
  | noExecutable target => s!"no cached key and no executable configured for {target}"
  | unreadable path => s!"i/o error on '{path}'"

def Failure.message : Failure → String
  | declaration e => e.message
  | typing e => e.message
  | format e => e.message
  | encoding e => e.message
  | key e => e.message

end GameScript
