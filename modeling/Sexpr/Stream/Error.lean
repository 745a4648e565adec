/-! # Input and output errors

Errors of devices and files have a kind, which decides how they are dealt with, and a text of their
own, which is shown.
-/

namespace Sexpr

inductive IoError.Kind
  | notFound
  | isADirectory
  | notADirectory
  | invalidFilename
  | invalidInput
  | writeZero
  | interrupted
  /-- A kind that nothing here treats specially. -/
  | other (name : String)
deriving DecidableEq

def IoError.Kind.name : IoError.Kind → String
  | notFound => "NotFound"
  | isADirectory => "IsADirectory"
  | notADirectory => "NotADirectory"
  | invalidFilename => "InvalidFilename"
  | invalidInput => "InvalidInput"
  | writeZero => "WriteZero"
  | interrupted => "Interrupted"
  | other name => name

structure IoError where
  kind : IoError.Kind
  message : String
deriving DecidableEq

namespace IoError

def notFound : IoError := ⟨.notFound, "No such file or directory (os error 2)"⟩

def isADirectory : IoError := ⟨.isADirectory, "Is a directory (os error 21)"⟩

def notADirectory : IoError := ⟨.notADirectory, "Not a directory (os error 20)"⟩

def nameTooLong : IoError := ⟨.invalidFilename, "File name too long (os error 36)"⟩

def nulInName : IoError := ⟨.invalidInput, "file name contained an unexpected NUL byte"⟩

/-- A sink took no byte of a text that was not empty. -/
def writeZero : IoError := ⟨.writeZero, "failed to write whole buffer"⟩

/-- Interrupted operations are tried again. -/
def isInterruption (e : IoError) : Bool := e.kind == .interrupted

end IoError

end Sexpr
