import Sexpr.Cli.Run

/-! # The command-line program -/

namespace Sexpr.Cli

def systemError : IO.Error → IoError
  | .noFileOrDirectory _ _ _ => .notFound
  | .permissionDenied _ _ _ => ⟨.other "PermissionDenied", "Permission denied (os error 13)"⟩
  | .invalidArgument _ code details => ⟨.invalidInput, numbered code details⟩
  | .inappropriateType _ code details => ⟨.other "Other", numbered code details⟩
  | .resourceExhausted _ code details => ⟨.other "Other", numbered code details⟩
  | .otherError code details => ⟨.other "Other", numbered code details⟩
  | error => ⟨.other "Other", toString error⟩
where
  numbered (code : UInt32) (details : String) : String :=
    details ++ " (os error " ++ toString code ++ ")"

/-- All bytes of a stream. -/
partial def drain (stream : IO.FS.Stream) (read : ByteArray) : IO ByteArray := do
  let chunk ← stream.read 65536
  if chunk.isEmpty then return read else drain stream (read ++ chunk)

def contents (o : Options) : IO (Except IoError Bytes) := do
  try
    let bytes ←
      if o.readsStandardInput then drain (← IO.getStdin) ByteArray.empty
      else IO.FS.readBinFile (o.path.getD "")
    return .ok bytes.data.toList
  catch error => return .error (systemError error)

def emit (stream : IO.FS.Stream) (bytes : Bytes) : IO Unit := do
  stream.write ⟨bytes.toArray⟩
  stream.flush

def usage : String :=
  "Usage: [-a|--ast] [--print] [-d|--dump] [--pos] [--max-nodes N] INPUT_PATH"

end Sexpr.Cli

def main (arguments : List String) : IO UInt32 := do
  match Sexpr.Cli.Options.ofArguments {} arguments with
  | none =>
    IO.eprintln Sexpr.Cli.usage
    return 2
  | some options =>
    match Sexpr.Cli.run options (← Sexpr.Cli.contents options) with
    | .error _ =>
      IO.eprintln "Error: broken reference"
      return 101
    | .ok outcome =>
      Sexpr.Cli.emit (← IO.getStdout) outcome.stdout
      Sexpr.Cli.emit (← IO.getStderr) outcome.stderr
      return UInt32.ofNat outcome.exitCode
