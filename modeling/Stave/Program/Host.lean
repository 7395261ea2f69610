/-!
# Hosts

A host keeps the files that the program works with.  Files are octets; which of them are text is for
the program to say.
-/

namespace Stave.Program

/-- The files that the program works with.  What goes wrong is described by the host. -/
structure Host (m : Type → Type) where
  readBytes : String → m (Except String (List UInt8))
  writeBytes : String → List UInt8 → m (Except String Unit)
  /-- The path of the user's own configuration, if there is a place for it. -/
  userConfiguration : Option String

/-- The text that a file holds. -/
def textOf (bytes : List UInt8) : Except String String :=
  match String.fromUTF8? ⟨bytes.toArray⟩ with
  | some text => .ok text
  | none => .error "stream did not contain valid UTF-8"

namespace Host

/-- Reads a text. -/
def readText {m : Type → Type} [Monad m] (host : Host m) (path : String) :
    m (Except String String) := do
  return (← host.readBytes path).bind textOf

end Host

end Stave.Program
