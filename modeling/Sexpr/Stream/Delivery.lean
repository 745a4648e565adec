import Sexpr.Byte
import Sexpr.Stream.Error

/-! # Deliveries of an input stream

A stream delivers its bytes in chunks, some deliveries fail, and an empty chunk is its end. All
bytes before the end are gathered. Interruptions are passed over, and any other error takes the
place of what was delivered before it.
-/

namespace Sexpr

inductive Delivery
  | chunk (bytes : Bytes)
  | failed (error : IoError)
deriving DecidableEq

namespace Delivery

def gather : List Delivery → Except IoError Bytes
  | [] => .ok []
  | .chunk bytes :: later =>
    if bytes.isEmpty then .ok [] else (gather later).map (bytes ++ ·)
  | .failed error :: later => if error.isInterruption then gather later else .error error

end Delivery

end Sexpr
