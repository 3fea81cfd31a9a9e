/-
Module: JsonSidecar.Lexer.Error
Purpose: The ways in which a token or the skeleton of a value can be malformed, and how each is worded.
Main exports: LexError, LexError.message
-/

namespace JsonSidecar

/-- What is wrong with the text under the cursor. -/
inductive LexError where
  | expectedNumber
  | expectedExponentDigits
  | expectedString
  | unclosedString
  | rawControl
  | expectedHexDigit
  | tooDeep
  | expectedCommaOrBracket
  | expectedCommaOrBrace
  | expectedColon
  | unknownWord
  | expectedValue
  | endOfText
deriving DecidableEq, Repr

/-- The wording of an error. -/
def LexError.message : LexError → String
  | .expectedNumber => "expected number"
  | .expectedExponentDigits => "expected exponent digits"
  | .expectedString => "expected string"
  | .unclosedString => "no closing quote"
  | .rawControl => "surprising control character"
  | .expectedHexDigit => "expected hex digit in escape"
  | .tooDeep => "nesting too deep"
  | .expectedCommaOrBracket => "expected , or ]"
  | .expectedCommaOrBrace => "expected , or \x7d"
  | .expectedColon => "expected :"
  | .unknownWord => "unexpected literal"
  | .expectedValue => "expected value"
  | .endOfText => "unexpected end of text"

end JsonSidecar
