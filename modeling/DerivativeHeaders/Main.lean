import DerivativeHeaders.Command.Run

/-! # The command line -/
namespace DerivativeHeaders

/-- What an operating system error means for a file. Its number may be given with a minus. -/
def FileFault.ofCode (code : UInt32) (reason : String) : FileFault :=
  let code := if code < 0x80000000 then code else 0 - code
  if code = 2 then notFound
  else if code = 20 then notFolder
  else if code = 21 then isFolder
  else if code = 36 then nameTooLong
  else other s!"{reason} (os error {code})"

def FileFault.ofError : IO.Error → FileFault
  | .noFileOrDirectory _ code reason | .inappropriateType _ code reason
  | .permissionDenied _ code reason | .resourceExhausted _ code reason
  | .invalidArgument _ code reason | .alreadyExists _ code reason => ofCode code reason
  | .otherError code reason | .resourceBusy code reason | .hardwareFault code reason
  | .unsatisfiedConstraints code reason | .illegalOperation code reason
  | .unsupportedOperation code reason => ofCode code reason
  | e => other (toString e)

instance : Files IO where
  read path := do
    try return .ok (← IO.FS.readBinFile path)
    catch e => return .error (.ofError e)
  write path text := do
    try return .ok (← IO.FS.writeFile path text)
    catch e => return .error (.ofError e)

end DerivativeHeaders

def main (words : List String) : IO UInt32 := do
  let outcome ← DerivativeHeaders.runWords (m := IO) words
  IO.print outcome.transcript.output
  IO.eprint outcome.transcript.messages
  return UInt32.ofNat outcome.code
