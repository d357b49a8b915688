/-
What can be wrong with the forms of a program. Each error is about one node,
whose place is told with it; an error inside a function is told with the
function's name.
-/
import RefCount.Sexp.Source
import RefCount.Types.Pool

namespace RefCount

/-- What is wrong with a form. Types are given by their written form. -/
inductive FormError where
  | formExpected
  | nameExpected
  | typeExpected
  | patternExpected
  | variantExpected
  | paramsExpected
  | modeExpected
  | whenExpected
  | bindingsExpected
  | fnParamsExpected
  | closureExpected
  | constructedExpected
  /-- A form has the wrong number or kind of parts; the text shows the right
  one. -/
  | shape (what expected : String)
  | topLevel (head : String)
  | pool (error : PoolError)
  | unknownType (name : String)
  | unknownFunction (name : String)
  | undefined (name : String)
  | redefined (name : String)
  | badClosure (name : String)
  | bodyType (actual expected : String)
  | conditionType (actual : String)
  | notApplicable (type : String) (args : Nat)
  | notConstructible (type : String)
  | notProjectable (type : String)
  | noField (type : String)
  | noVariant (type variant : String)
  | noMatch (head type : String)
  | rangeBounds
  | recurOutside
  | arity (what : String) (actual expected : Nat)
  | fieldCount (what : String) (actual expected : Nat)
  deriving Repr, Inhabited

def FormError.message : FormError → String
  | formExpected => "form expected"
  | nameExpected => "name expected"
  | typeExpected => "type expected"
  | patternExpected => "pattern expected"
  | variantExpected => "variant expected"
  | paramsExpected => "params expected"
  | modeExpected => "mode expected"
  | whenExpected => "when expected"
  | bindingsExpected => "bindings expected"
  | fnParamsExpected => "fn: params list expected"
  | closureExpected => "apply: closure expected"
  | constructedExpected => "new: type expected"
  | shape what expected => what ++ ": want " ++ expected
  | topLevel head => "unexpected top level form: " ++ head
  | pool e => e.message
  | unknownType name => "unknown type: " ++ name
  | unknownFunction name => "unknown function: " ++ name
  | undefined name => "undefined: " ++ name
  | redefined name => "redefined: " ++ name
  | badClosure name => "closure: bad function " ++ name
  | bodyType actual expected => "body type " ++ actual ++ ", want " ++ expected
  | conditionType actual => "if: condition is " ++ actual
  | notApplicable type args => "apply: " ++ type ++ " with " ++ toString args ++ " args"
  | notConstructible type => "new: " ++ type ++ " is not a record or enum"
  | notProjectable type => "get: " ++ type ++ " is not a record or tuple"
  | noField type => "get: no such field in " ++ type
  | noVariant type variant => type ++ " has no variant " ++ variant
  | noMatch head type => "pattern " ++ head ++ " does not match " ++ type
  | rangeBounds => "range: bounds must be ints"
  | recurOutside => "recur outside of loop"
  | arity what actual expected =>
    what ++ ": " ++ toString actual ++ " args, want " ++ toString expected
  | fieldCount what actual expected =>
    what ++ ": " ++ toString actual ++ " fields, want " ++ toString expected

/-- A form error with the offset of the node it is about. -/
structure FormFailure where
  pos : Nat
  error : FormError
  deriving Repr, Inhabited

/-- Why a text is no program. -/
inductive ReadError where
  | parse (place : Sexp.Place) (error : Sexp.ParseError)
  /-- A form is wrong, possibly in the body of a function. -/
  | form (func : Option String) (place : Sexp.Place) (error : FormError)
  deriving Repr, Inhabited

def ReadError.message : ReadError → String
  | parse place e => place.describe e.message
  | form none place e => place.describe e.message
  | form (some f) place e => "func " ++ f ++ ": " ++ place.describe e.message

end RefCount
