import DerivativeHeaders.Json
import DerivativeHeaders.Text.Offset
import DerivativeHeaders.Text.Quoted

/-! # Faults of a JSON text

What is wrong with a text that is no JSON object, and where. -/
namespace DerivativeHeaders.Json

inductive Cause where
  | endInValue
  | endInList
  | endInObject
  | endInText
  | expectedWord
  | expectedValue
  | expectedColon
  | expectedCommaOrBracket
  | expectedCommaOrBrace
  | keyNotText
  | trailingComma
  | trailingCharacters
  | invalidNumber
  | numberOutOfRange
  | invalidEscape
  | controlCharacter
  | loneSurrogate
  | unfinishedSurrogate
  | tooDeep
  /-- The text is another value than an object. -/
  | notObject (found : Json)

def kindText : Json → String
  | null => "null"
  | bool b => "boolean `" ++ boolText b ++ "`"
  | integer n => "integer `" ++ toString n ++ "`"
  | float x => "floating point `" ++ NumberStyle.summary.text x ++ "`"
  | text s => "string " ++ String.ofList (Text.quoted s.toList)
  | array _ => "sequence"
  | object _ => "map"

def Cause.message : Cause → String
  | endInValue => "EOF while parsing a value"
  | endInList => "EOF while parsing a list"
  | endInObject => "EOF while parsing an object"
  | endInText => "EOF while parsing a string"
  | expectedWord => "expected ident"
  | expectedValue => "expected value"
  | expectedColon => "expected `:`"
  | expectedCommaOrBracket => "expected `,` or `]`"
  | expectedCommaOrBrace => "expected `,` or `\x7d`"
  | keyNotText => "key must be a string"
  | trailingComma => "trailing comma"
  | trailingCharacters => "trailing characters"
  | invalidNumber => "invalid number"
  | numberOutOfRange => "number out of range"
  | invalidEscape => "invalid escape"
  | controlCharacter => "control character (\\u0000-\\u001F) found while parsing a string"
  | loneSurrogate => "lone leading surrogate in hex escape"
  | unfinishedSurrogate => "unexpected end of hex escape"
  | tooDeep => "recursion limit exceeded"
  | notObject found => "invalid type: " ++ kindText found ++ ", expected a map"

structure Mishap where
  cause : Cause
  offset : Nat

/-- A cause at a line, counted from one, and a number of bytes after the start of that line. -/
structure Fault where
  cause : Cause
  line : Nat
  column : Nat

/-- The bytes between the last line feed and the end. -/
def lastLineSize (cs : List Char) : Nat := Text.byteSize (cs.reverse.takeWhile (· != '\n'))

/-- Places an offset inside a character after the line of that character's start. -/
def Mishap.locate (cs : List Char) (m : Mishap) : Fault :=
  let before := Text.takeBytes m.offset cs
  ⟨m.cause, before.count '\n' + 1, lastLineSize before + (m.offset - Text.byteSize before)⟩

def Fault.message (f : Fault) : String :=
  f.cause.message ++ " at line " ++ toString f.line ++ " column " ++ toString f.column

end DerivativeHeaders.Json
