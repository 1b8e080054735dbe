import DerivativeHeaders.Files
import DerivativeHeaders.Header.Read

/-! # Libraries

A library is a folder of header files. A file holds a preamble and the text of one header. -/
namespace DerivativeHeaders

structure Location where
  folder : String
  base : String
deriving DecidableEq

namespace Location

def extension : String := "h"

/-- The folder has to be absolute and the base name an identifier. -/
def ofParts (folder base : String) : Except Fault Location :=
  if folder.toList.head? ≠ some '/' then .error (.location (.notAbsolute folder))
  else if isIdentifier base then .ok ⟨folder, base⟩
  else .error (.location (.notIdentifier base))

def path (l : Location) : String :=
  l.folder ++ (if l.folder.toList.getLast? = some '/' then "" else "/") ++ l.base ++
    "." ++ extension

end Location

namespace Library

variable {m : Type → Type} [Monad m] [Files m]

def preamble : String := "#pragma once"

def fileText (h : Header) : Except Fault String :=
  return preamble ++ "\n\n" ++ (← h.print)

/-- Writes the file of a header and gives its path. -/
def write (h : Header) (l : Location) : ExceptT Fault m String := do
  let text ← ExceptT.mk (pure (fileText h))
  Files.writeText l.path text
  return l.path

def read (l : Location) : ExceptT Fault m Header := do
  let text ← Files.readText l.path
  ExceptT.mk (pure (Header.ofText text))

end Library

end DerivativeHeaders
