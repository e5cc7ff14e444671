import DiamondScript.Catalog.Schema
import DiamondScript.Language.ValueType
import DiamondScript.Source.Span

namespace DiamondScript

inductive Container where
  | dictionary
  | list
  deriving DecidableEq, Repr

inductive Callee where
  | function
  | codeblock
  deriving DecidableEq, Repr

inductive SemanticFault where
  | globalInitializer (name : String)
  | parameterType (param func : String) (type : ValueType)
  | undefinedAssignment (name : String)
  | undefinedVariable (name : String)
  | undefinedFunction (name : String)
  | statementExpected
  | noValue
  | assignmentType (actual declared : ValueType)
  | assignmentEntry (actual declared : ValueType) (key : EntryKey) (entry : ValueType)
  | notIndexable (type : ValueType)
  | indexNotImplemented (type : ValueType)
  | elementType (container : Container) (element actual : ValueType)
  | keyType (container : Container) (actual : ValueType)
  | operandType
  | functionTakesNone (name : String)
  | actionTakesNone (name : String)
  | calleeTakesNone (callee : Callee)
  | argumentType (callee : Callee) (position : Nat) (expected : String) (actual : ValueType)
  | argumentMissing (callee : Callee) (position : Nat) (expected : String)
  | schema (e : SchemaError)

structure SemanticError where
  fault : SemanticFault
  span : Span

def Container.key : Container → BaseType
  | .dictionary => .str
  | .list => .num

def Container.title : Container → String
  | .dictionary => "Dictionary"
  | .list => "List"

def Container.noun : Container → String
  | .dictionary => "dictionary"
  | .list => "list"

def Callee.title : Callee → String
  | .function => "Function"
  | .codeblock => "Codeblock"

def SemanticFault.message : SemanticFault → String
  | .globalInitializer name => s!"Global variable '{name}' cannot have an initializer"
  | .parameterType param func type =>
    s!"Parameter '{param}' of function '{func}' cannot have type '{type.display}'"
  | .undefinedAssignment name => s!"Assigning an undefined variable '{name}'"
  | .undefinedVariable name => s!"Undefined variable '{name}'"
  | .undefinedFunction name => s!"Undefined function '{name}'"
  | .statementExpected => "Expected statement, got expression"
  | .noValue => "Expression does not produce a value"
  | .assignmentType actual declared =>
    s!"Assigning a value of type '{actual.display}' to variable defined as '{declared.display}'"
  | .assignmentEntry actual declared key entry =>
    s!"Assigning a value of type '{actual.display}' to variable defined as '{declared.display}'"
      ++ s!" (entry {key.display} has type '{entry.display}')"
  | .notIndexable type => s!"Cannot index into object of type '{type.display}'"
  | .indexNotImplemented type => s!"Indexing into a '{type.display}' is not implemented"
  | .elementType container element actual =>
    s!"{container.title} expected value of type '{element.display}'"
      ++ s!" but instead got '{actual.display}'"
  | .keyType container actual =>
    s!"Cannot index into {container.noun} with key of type '{actual.display}'"
      ++ s!" (must be a {container.key.keyword})"
  | .operandType => "Currently only numbers are supported for binary operations"
  | .functionTakesNone name => s!"Function '{name}' takes no arguments"
  | .actionTakesNone name => s!"Action '{name}' takes no arguments"
  | .calleeTakesNone callee => s!"{callee.title} takes no arguments"
  | .argumentType callee position expected actual =>
    s!"{callee.title} parameter #{position + 1} expected '{expected}' but got '{actual.display}'"
  | .argumentMissing callee position expected =>
    s!"{callee.title} parameter #{position + 1} expected '{expected}' but got no argument"
  | .schema e => e.message

end DiamondScript
