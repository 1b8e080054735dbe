import DerivativeHeaders.Fault

/-! # Files

The two things a program does to files, in whatever monad it can do them. -/
namespace DerivativeHeaders

class Files (m : Type → Type) where
  read : String → m (Except FileFault ByteArray)
  /-- Makes a text the whole of a file, whether the file exists or not. -/
  write : String → String → m (Except FileFault Unit)

namespace Files

variable {m : Type → Type} [Monad m] [Files m]

def decode (bytes : ByteArray) : Except FileFault String :=
  match String.fromUTF8? bytes with
  | some text => .ok text
  | none => .error .notText

def readText (path : String) : ExceptT Fault m String := do
  match (← (Files.read path : m _)).bind decode with
  | .ok text => return text
  | .error cause => throw (.file path cause)

def writeText (path text : String) : ExceptT Fault m Unit := do
  match ← (Files.write path text : m _) with
  | .ok () => return ()
  | .error cause => throw (.file path cause)

end Files

end DerivativeHeaders
