import DerivativeHeaders.Command.Arguments
import DerivativeHeaders.Header.Description

/-! # Commands

What a command line asks for: to print a header from its description, to check a header file,
or to print a call of a header in a file. -/
namespace DerivativeHeaders

structure CallRequest where
  variant : String
  inputs : List String
  /-- Channel names and variables with an equals sign between them. -/
  bindings : List String
  requirements : List String
  space : Option String
deriving DecidableEq

inductive Command where
  /-- The target is the folder and base name of a file; without one the text is the output. -/
  | emit (description : Description) (target : Option (String × String))
  | check (file : String) (summary : Bool)
  | call (file : String) (request : CallRequest)
deriving DecidableEq

structure Invocation where
  command : Command
  verbose : Bool
deriving DecidableEq

namespace Command

def emitOptions : List (String × OptionKind) :=
  [("verbose", .flag), ("name", .single), ("inputs", .single), ("outputs", .single),
    ("derivatives", .single), ("variants", .repeated), ("out-dir", .single), ("lib", .single)]

def checkOptions : List (String × OptionKind) := [("verbose", .flag), ("json", .flag)]

def callOptions : List (String × OptionKind) :=
  [("verbose", .flag), ("variant", .single), ("arg", .repeated), ("bind", .repeated),
    ("require", .repeated), ("namespace", .single)]

/-- The short names in the values of the option for variants, which have commas between them. -/
def variantNames : List String → List String
  | [] => ["d0"]
  | values => values.flatMap fun value => (value.toList.splitOn ',').map String.ofList

/-- A folder needs a base name and the other way round; the folder is not empty. -/
def targetOf (folder base : Option String) : Option (Option (String × String)) :=
  match folder, base with
  | none, none => some none
  | some folder, some base => if folder = "" then none else some (some (folder, base))
  | _, _ => none

def emitOf (a : Arguments) : Option Command := do
  if a.operands ≠ [] then none
  let name ← a.get? "name"
  let target ← targetOf (a.get? "out-dir") (a.get? "lib")
  return emit {
    name
    inputs := (a.get? "inputs").getD ""
    outputs := (a.get? "outputs").getD ""
    derivatives := (a.get? "derivatives").getD ""
    variants := variantNames (a.all "variants") } target

def fileOf (a : Arguments) : Option String :=
  match a.operands with
  | [file] => if file = "" then none else some file
  | _ => none

def checkOf (a : Arguments) : Option Command :=
  return check (← fileOf a) (a.hasFlag "json")

def callOf (a : Arguments) : Option Command :=
  return call (← fileOf a) {
    variant := (a.get? "variant").getD "d0"
    inputs := a.all "arg"
    bindings := a.all "bind"
    requirements := a.all "require"
    space := a.get? "namespace" }

end Command

namespace Invocation

def ofArguments (options : List (String × OptionKind)) (command : Arguments → Option Command)
    (words : List String) : Option Invocation := do
  let a ← Arguments.ofWords options words
  return ⟨← command a, a.hasFlag "verbose"⟩

def ofCommandWords : List String → Option Invocation
  | "emit" :: words => ofArguments Command.emitOptions Command.emitOf words
  | "check" :: words => ofArguments Command.checkOptions Command.checkOf words
  | "call" :: words => ofArguments Command.callOptions Command.callOf words
  | _ => none

def ofWords : List String → Option Invocation
  | "--verbose" :: words => (ofCommandWords words).map fun i => { i with verbose := true }
  | words => ofCommandWords words

end Invocation

end DerivativeHeaders
