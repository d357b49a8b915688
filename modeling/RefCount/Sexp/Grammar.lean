/-
Grammars. A grammar names what is expected at a position: one kind of token, a
fixed text, a list, any form, a sequence of forms up to the end, or the first
of several alternatives. The atoms are numbers, quoted strings and symbols,
tried in that order.
-/
import RefCount.Sexp.Basic
import RefCount.Numeral.Read

namespace RefCount.Sexp

open Numeral (NumeralError)

/-- What is expected at a position. -/
inductive Grammar where
  /-- Forms up to the end of the text. -/
  | forms
  /-- A list or an atom. -/
  | form
  /-- A parenthesised sequence of forms. -/
  | list
  | num
  | str
  | symbol
  /-- Exactly these bytes. -/
  | const (text : Bytes)
  /-- The first alternative that fits. -/
  | any (alternatives : List Grammar)
  deriving Repr, Inhabited

/-- The name of a grammar in messages. -/
def Grammar.label : Grammar → String
  | forms => "parse.Forms"
  | form => "parse.Form"
  | list => "parse.List"
  | num => "parse.Num"
  | str => "parse.Str"
  | symbol => "parse.Symbol"
  | const _ => "parse.Const"
  | any _ => "parse.AnyOf"

def Grammar.atom : Grammar := .any [.num, .str, .symbol]

/-- Why a text does not fit a grammar. -/
inductive ParseError where
  | numberExpected
  | stringExpected
  | symbolExpected
  | constantExpected (text : Bytes)
  /-- No alternative got beyond its start. -/
  | noneOf (alternatives : List Grammar)
  /-- The first alternative that got beyond its start failed. -/
  | inAlternative (alternative : Grammar) (error : ParseError)
  | unclosedList (start : Nat)
  | unterminatedString
  | malformedString
  | quoteInSymbol
  /-- A symbol holds bytes that are no character, or the replacement
  character. -/
  | badCharacter
  | badFloat (text : Bytes) (error : NumeralError)
  | badInt (text : Bytes) (error : NumeralError)
  deriving Repr, Inhabited

/-- A list of names as in a sentence. -/
def orList : List String → String
  | [] => "<none>"
  | [a] => a
  | [a, b] => a ++ " or " ++ b
  | a :: rest => a ++ ", " ++ orList rest

def ParseError.message : ParseError → String
  | numberExpected => "Num expected"
  | stringExpected => "Str expected"
  | symbolExpected => "Symbol expected"
  | constantExpected text => Text.quote text ++ " expected"
  | noneOf gs => "expected " ++ orList (gs.map Grammar.label)
  | inAlternative g e => g.label ++ ": " ++ e.message
  | unclosedList start => "unclosed list opened at " ++ toString start
  | unterminatedString => "unterminated string"
  | malformedString => "string literal: invalid syntax"
  | quoteInSymbol => "quote in symbol"
  | badCharacter => "bad rune"
  | badFloat text e =>
    "float: strconv.ParseFloat: parsing " ++ Text.quote text ++ ": " ++ e.message
  | badInt text e =>
    "int: strconv.ParseInt: parsing " ++ Text.quote text ++ ": " ++ e.message

/-- Where reading stopped, and why. -/
structure Failure where
  pos : Nat
  error : ParseError
  deriving Repr, Inhabited

abbrev Outcome := Except Failure (Node × Nat)

end RefCount.Sexp
