/-! # Command line arguments

A word of a command line is an option with two dashes in front, the value of the option before
it, or an operand. After a word `--` every word is an operand. -/
namespace DerivativeHeaders

inductive OptionKind where
  | flag
  | single
  | repeated
deriving DecidableEq

/-- The words of a command line by what they are, each kind in order. -/
structure Arguments where
  flags : List String
  values : List (String × String)
  operands : List String
deriving DecidableEq

namespace Arguments

/-- A word that cannot be a value or an operand: a dash and more. -/
def looksLikeOption (word : List Char) : Bool :=
  match word with
  | '-' :: _ :: _ => true
  | _ => false

/-- The name of an option, and what stands after its equals sign if it has one. -/
def splitOption (cs : List Char) : String × Option String :=
  let value :=
    match cs.dropWhile (· != '=') with
    | _ :: value => some (String.ofList value)
    | [] => none
  (String.ofList (cs.takeWhile (· != '=')), value)

/-- What a word is, apart from the words before it. -/
inductive Word where
  | ending
  | option (name : String) (value : Option String)
  | operand
  | wrong

def classify (word : String) : Word :=
  match word.toList with
  | ['-', '-'] => .ending
  | '-' :: '-' :: cs => .option (splitOption cs).1 (splitOption cs).2
  | cs => if looksLikeOption cs then .wrong else .operand

/-- The arguments that the words are, none if a word is out of place. An option in `pending`
waits for its value. -/
def scan (kind? : String → Option OptionKind) (pending : Option String) :
    List String → Option Arguments
  | [] => if pending.isSome then none else some ⟨[], [], []⟩
  | word :: words =>
    match pending with
    | some name =>
      if looksLikeOption word.toList then none
      else (scan kind? none words).map fun a => { a with values := (name, word) :: a.values }
    | none =>
      match classify word with
      | .ending => some ⟨[], [], words⟩
      | .wrong => none
      | .operand =>
        (scan kind? none words).map fun a => { a with operands := word :: a.operands }
      | .option name value =>
        match kind? name, value with
        | none, _ | some .flag, some _ => none
        | some .flag, none =>
          (scan kind? none words).map fun a => { a with flags := name :: a.flags }
        | some _, none => scan kind? (some name) words
        | some _, some value =>
          (scan kind? none words).map fun a => { a with values := (name, value) :: a.values }

def all (a : Arguments) (name : String) : List String :=
  (a.values.filter fun x => x.1 == name).map Prod.snd

def get? (a : Arguments) (name : String) : Option String := (a.all name).head?

def hasFlag (a : Arguments) (name : String) : Bool := a.flags.contains name

/-- No flag and no option with a single value is given twice. -/
def respects (kind? : String → Option OptionKind) (a : Arguments) : Bool :=
  decide a.flags.Nodup &&
    decide ((a.values.map Prod.fst).filter fun name => kind? name == some .single).Nodup

def ofWords (options : List (String × OptionKind)) (words : List String) : Option Arguments := do
  let kind? := fun name => (options.find? fun x => x.1 == name).map Prod.snd
  let a ← scan kind? none words
  if a.respects kind? then some a else none

end Arguments

end DerivativeHeaders
