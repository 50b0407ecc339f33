import TypeStub.Condition

namespace TypeStub

-- Why a type expression is no type.
inductive TypeError
  | unexpected (kind : NodeKind)
  | unexpectedSubscript
  | missingOptions (name : Text)
  | doubleEllipsis
  | ellipsisNotLast
  | callableCount (count : Nat)
  | callableArguments
  deriving DecidableEq, Repr

def TypeError.message : TypeError → Text
  | unexpected kind => "Unexpected " ++ kind.display ++ " in type"
  | unexpectedSubscript => "Unexpected subscript in type"
  | missingOptions name => "Missing options to " ++ name
  | doubleEllipsis => "[..., ...] not supported"
  | ellipsisNotLast => "ellipsis (...) must be last type parameter"
  | callableCount count => "Expected 2 parameters to Callable, got " ++ Text.ofNat count
  | callableArguments => "First argument to Callable must be a list of argument types"

-- Why statements that parse declare no module.
inductive Cause
  | condition (cause : ConditionError)
  | type (cause : TypeError)
  | inClassBody (kind : NodeKind)
  | classKeyword
  | metaclassNotLast
  | nonZeroNumber
  | classAlias (target : Text)
  | renamedModule
  | typeVarName (declared target : Text)
  | tooManyDecorators (name : Text)
  | afterDoubleStar (name : Text)
  | afterEllipsis
  | secondStar
  | ellipsisAfterBareStar
  | bareStarLast
  | unknownMutator (name : Text)
  | unhandledDecorator (text : Text)
  | severalExternals (name : Text)
  | mixedExternals (name : Text)
  | kindsDisagree (name : Text)
  | incompatibleSignatures (name : Text)
  | moduleProperties (names : List Text)
  | duplicateTopLevel (names : List Text)
  | duplicateMembers (names : List Text)
  deriving DecidableEq, Repr

def Cause.message : Cause → Text
  | condition cause => cause.message
  | type cause => cause.message
  | inClassBody kind => "Unexpected " ++ kind.display ++ " in class body"
  | classKeyword => "Only 'metaclass' allowed as classdef kwarg"
  | metaclassNotLast => "metaclass must be last argument"
  | nonZeroNumber => "Only '0' allowed as int literal"
  | classAlias target => "Illegal value for alias '" ++ target ++ "'"
  | renamedModule => "Renaming of modules not supported"
  | typeVarName declared target =>
      "TypeVar name needs to be '" ++ declared ++ "' (not '" ++ target ++ "')"
  | tooManyDecorators name => "Too many decorators for " ++ name
  | afterDoubleStar name => "**" ++ name ++ " must be last parameter"
  | afterEllipsis => "ellipsis (...) must be last parameter"
  | secondStar => "Unexpected second *"
  | ellipsisAfterBareStar => "ellipsis (...) not compatible with bare *"
  | bareStarLast => "Named arguments must follow bare *"
  | unknownMutator name => "No parameter named " ++ name
  | unhandledDecorator text => "Unhandled decorator: " ++ text
  | severalExternals name => "Multiple PYTHONCODEs for " ++ name
  | mixedExternals name => "Mixed pytd and PYTHONCODEs for " ++ name
  | kindsDisagree name => "Overloaded signatures for " ++ name ++ " disagree on decorators"
  | incompatibleSignatures name => "Incompatible signatures for " ++ name
  | moduleProperties names =>
      "Module-level functions with property decorators: " ++ Text.joinWith ", " names
  | duplicateTopLevel names => "Duplicate top-level identifier(s): " ++ Text.joinWith ", " names
  | duplicateMembers names => "Duplicate identifier(s): " ++ Text.joinWith ", " names

-- A cause and the line of the statement it belongs to, when there is one.
structure Fault where
  cause : Cause
  line : Option Int
  deriving DecidableEq, Repr

def Fault.at (line : Int32) (cause : Cause) : Fault := ⟨cause, some line.toInt⟩

end TypeStub
