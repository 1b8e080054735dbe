import DerivativeHeaders.Call
import DerivativeHeaders.Command
import DerivativeHeaders.Json.Pretty
import DerivativeHeaders.Library

/-! # Running commands

A command reads and writes files, and leaves a transcript: its output, its messages and an exit
code. -/
namespace DerivativeHeaders

structure Transcript where
  output : String
  messages : String
deriving DecidableEq

/-- The effects of a command. What it has said before a fault stays. -/
abbrev CommandM (m : Type → Type) := ExceptT Fault (StateT Transcript m)

structure Outcome where
  code : Nat
  transcript : Transcript
deriving DecidableEq

namespace Command

variable {m : Type → Type} [Monad m] [Files m]

def say (text : String) : CommandM m Unit :=
  modify fun t => { t with output := t.output ++ text }

def sayLine (text : String) : CommandM m Unit := say (text ++ "\n")

def report (text : String) : CommandM m Unit :=
  modify fun t => { t with messages := t.messages ++ "ifgen: " ++ text ++ "\n" }

def reportIf (verbose : Bool) (text : String) : CommandM m Unit :=
  if verbose then report text else pure ()

def require {α : Type} (x : Except Fault α) : CommandM m α := ExceptT.mk (pure x)

/-- An action on files, as a step of a command. -/
def onFiles {α : Type} (x : ExceptT Fault m α) : CommandM m α := ExceptT.mk (liftM x.run)

def runEmit (d : Description) (target : Option (String × String)) (verbose : Bool) :
    CommandM m Unit := do
  let h ← require (Header.ofDescription d)
  reportIf verbose
    s!"{h.name} with {h.variants.length} variants, {h.constants.size} constant channels"
  match target with
  | some (folder, base) =>
    let location ← require (Location.ofParts folder base)
    let path ← onFiles (Library.write h location)
    reportIf verbose s!"wrote {path}"
  | none => say (← require h.print)

def readHeader (file : String) (verbose : Bool) : CommandM m (Header × List Char) := do
  let text ← onFiles (Files.readText file)
  let h ← require (Header.ofText text)
  reportIf verbose s!"parsed {h.name} from {file}"
  return (h, text.toList)

/-- The number, counted from one, of the first line where two texts differ. If one of them
starts with the lines of the other, that is the line after these. -/
def differingLine (a b : List Char) : Nat :=
  let pairs := (Text.lines a).zip (Text.lines b)
  (pairs.takeWhile fun x => x.1 == x.2).length + 1

def variableSummary (p : Variable) :
    Json := .object [("type", .text p.type), ("name", .text p.name)]

def summary (h : Header) : Except Fault Json := do
  let variants ← Variant.shortNames h.variants
  let constants ← h.constants.entries.mapM fun x => do
    return Json.object [("channel", .text (← h.channelName x.1)), ("value", .float x.2)]
  return .object [
    ("name", .text h.name),
    ("inputs", .array (h.inputs.map variableSummary)),
    ("outputs", .array (h.outputs.map variableSummary)),
    ("variants", .array (variants.map .text)),
    ("constants", .array constants)]

/-- Fails at the first line from the first marker on that is not as it is printed. -/
def checkCanonical (h : Header) (text : List Char) : Except Fault Unit := do
  let printed := (← h.print).toList
  let region := (blockRegion? text).getD text
  if printed ≠ region then throw (.line (differingLine printed region) .notCanonical)

def runCheck (file : String) (json verbose : Bool) : CommandM m Unit := do
  let (h, text) ← readHeader file verbose
  require (checkCanonical h text)
  if json then sayLine ((← require (summary h)).pretty 0)
  else
    sayLine
      s!"{file}: ok ({h.name}, {h.variants.length} variants, {h.constants.size} constant channels)"

def trimmed (cs : List Char) : String := String.ofList (Text.trim cs)

/-- Binds a channel as `CHANNEL=DEST` says. -/
def applyBinding (h : Header) (u : Usage) (binding : String) : Except Fault Usage := do
  match binding.toList.dropWhile (· != '=') with
  | [] => throw (.line 1 (.noDestination binding))
  | _ :: destination =>
    let c ← h.channelOfName (trimmed (binding.toList.takeWhile (· != '=')))
    return u.bind c (trimmed destination)

def applyRequirement (h : Header) (u : Usage) (name : String) : Except Fault Usage :=
  return u.require (← h.channelOfName (trimmed name.toList))

def usageOf (h : Header) (r : CallRequest) : Except Fault Usage := do
  let bound ← r.bindings.foldlM (applyBinding h) (.ofInputs r.inputs)
  r.requirements.foldlM (applyRequirement h) bound

def lookupVariant (name : String) : Except Fault Variant :=
  match Variant.ofShortName? name with
  | some v => .ok v
  | none => .error (.unknownVariant name)

def runCall (file : String) (r : CallRequest) (verbose : Bool) : CommandM m Unit := do
  let (h, _) ← readHeader file verbose
  let v ← require (lookupVariant r.variant)
  let u ← require (usageOf h r)
  let site ← require (h.call v u r.space)
  sayLine site.text
  site.constants.entries.forM fun x => do
    let name ← require (h.channelName x.1)
    sayLine s!"// {name} = {x.2.fixed constantPlaces}"
  reportIf verbose s!"{site.constants.size} resolved constants"

def run (i : Invocation) : CommandM m Unit :=
  match i.command with
  | emit d target => runEmit d target i.verbose
  | check file json => runCheck file json i.verbose
  | call file r => runCall file r i.verbose

end Command

/-- A failure with files is told from the others by the exit code. -/
def Fault.exitCode : Fault → Nat
  | file .. => 2
  | _ => 1

namespace Invocation

variable {m : Type → Type} [Monad m] [Files m]

/-- Runs a command; a fault is its last message. -/
def run (i : Invocation) : m Outcome := do
  let (result, t) ← (Command.run i).run.run ⟨"", ""⟩
  match result with
  | .ok () => return ⟨0, t⟩
  | .error fault =>
    let messages := t.messages ++ "ifgen: error: " ++ fault.message ++ "\n"
    return ⟨fault.exitCode, { t with messages }⟩

end Invocation

/-- What is said about a command line that is none. -/
def usageText : String :=
  "usage: ifgen [--verbose] emit --name NAME [--inputs LIST] [--outputs LIST] [--derivatives LIST]\n" ++
  "         [--variants NAMES] [--out-dir FOLDER --lib BASE]\n" ++
  "       ifgen [--verbose] check FILE [--json]\n" ++
  "       ifgen [--verbose] call FILE [--variant NAME] [--arg EXPRESSION] [--bind CHANNEL=DEST]\n" ++
  "         [--require CHANNEL] [--namespace PATH]\n"

def runWords {m : Type → Type} [Monad m] [Files m] (words : List String) : m Outcome :=
  match Invocation.ofWords words with
  | some i => i.run
  | none => return ⟨2, ⟨"", usageText⟩⟩

end DerivativeHeaders
