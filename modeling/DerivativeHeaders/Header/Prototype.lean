import DerivativeHeaders.Header.Block

/-! # Reading prototypes

The body of a block is searched for a line that starts with `void`. The prototype reaches from
there to a line that ends in `);`, with at most one field on each line. -/
namespace DerivativeHeaders

inductive Field where
  | input (x : Variable)
  | output (type name : String)
  | constant (name : String) (x : Binary64)
deriving DecidableEq

namespace Field

/-- An input, if its type is passed in this way. -/
def ofInput (line : Nat) (passing : Passing) (type name : String) : Except Fault Field :=
  if Passing.ofName type = passing then .ok (input ⟨type, name⟩)
  else .error (.line line (.wrongPassing name type))

/-- The field that tokens spell; `text` is shown when they spell none. -/
def ofTokens (line : Nat) (text : List Char) : List Token → Except Fault Field
  | [.word type, .word name] => ofInput line .byValue type name
  | [.keyword .const, .word type, .mark .ampersand, .word name] =>
    ofInput line .byConstReference type name
  | [.word type, .mark .star, .word name] => .ok (output type name)
  | [.mark .commentOpen, .word name, .mark .equals, .number x, .mark .commentClose] =>
    .ok (constant name x)
  | _ => .error (.line line (.unknownField (String.ofList text)))

def ofText (line : Nat) (text : List Char) : Except Fault Field :=
  match straysOf text with
  | stray :: _ => .error (.line line (.strayCharacter stray.value))
  | [] => ofTokens line text ((tokensOf text).map Located.value)

end Field

structure Prototype where
  function : String
  fields : List (Nat × Field)
deriving DecidableEq

namespace Prototype

def startsPrototype (text : List Char) : Bool :=
  (tokensOf text).head?.map Located.value == some (.keyword .void)

/-- The function name on an opening line, and what follows the parenthesis. -/
def readOpening (l : Line) : Except Fault (String × List Char) :=
  match tokensOf l.text with
  | ⟨.keyword .void, _⟩ :: ⟨.word name, _⟩ :: ⟨.mark .leftParen, paren⟩ :: _ =>
    .ok (name, Text.trim (Text.dropBytes paren.stop l.text))
  | _ => .error (.line l.number .noOpening)

/-- The place of the parenthesis before a semicolon at the end. -/
def closing? (text : List Char) : Option Span :=
  match (tokensOf text).reverse with
  | ⟨.mark .semicolon, _⟩ :: ⟨.mark .rightParen, paren⟩ :: _ => some paren
  | _ => none

/-- The field on a line, without the closing of the prototype and without a comma. -/
def fieldText (text : List Char) : List Char :=
  let field :=
    match closing? text with
    | some paren => Text.trimEnd (Text.takeBytes paren.start text)
    | none => text
  Text.trimEnd (Text.dropEnd ',' field)

/-- The lines up to the one that closes the prototype, cut down to their fields; none if the
prototype is not closed. -/
def fieldLines? : List Line → Option (List Line)
  | [] => none
  | l :: ls =>
    let field := fieldText l.text
    let here := if field.isEmpty then [] else [⟨l.number, field⟩]
    if (closing? l.text).isSome then some here else (here ++ ·) <$> fieldLines? ls

def ofLines (first : Line) (rest : List Line) : Except Fault Prototype := do
  let (function, text) ← readOpening first
  match fieldLines? (⟨first.number, text⟩ :: rest) with
  | none => throw (.line first.number (.openPrototype function))
  | some lines =>
    let fields ← lines.mapM fun l => (l.number, ·) <$> Field.ofText l.number l.text
    return ⟨function, fields⟩

def ofBlock (b : Block) : Except Fault Prototype :=
  let lines := b.body.map fun l => { l with text := Text.trim l.text }
  match lines.dropWhile fun l => !startsPrototype l.text with
  | [] => .error (.line b.opened (.noPrototype b.variant))
  | first :: rest => ofLines first rest

def inputs (p : Prototype) : List Variable :=
  p.fields.filterMap fun x =>
    match x.2 with
    | .input x => some x
    | _ => none

def outputs (p : Prototype) : List Variable :=
  p.fields.filterMap fun x =>
    match x.2 with
    | .output type name => some ⟨type, name⟩
    | _ => none

end Prototype

end DerivativeHeaders
