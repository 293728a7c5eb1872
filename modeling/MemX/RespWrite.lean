import MemX.DecimalText

namespace MemX.RespWrite

open DecimalText

/-- A server reply; the constructors are the reply kinds. -/
inductive Reply
  | simple (s : Bytes)
  | error (s : Bytes)
  | integer (n : Int)
  | bulk (b : Bytes)
  | null
  | array (rs : List Reply)

def crlf : Bytes := [13, 10]

def writeLine (marker : UInt8) (payload : Bytes) : Bytes := marker :: (payload ++ crlf)

def bulk (b : Bytes) : Bytes := writeLine 36 (formatNat b.length) ++ (b ++ crlf)

def arrayLen (n : Nat) : Bytes := writeLine 42 (formatNat n)

mutual

def writeTo : Reply → Bytes
  | .simple s => writeLine 43 s
  | .error s => writeLine 45 s
  | .integer n => writeLine 58 (formatInt n)
  | .bulk b => bulk b
  | .null => writeLine 36 (ascii "-1")
  | .array rs => arrayLen rs.length ++ writeAll rs

def writeAll : List Reply → Bytes
  | [] => []
  | r :: rs => writeTo r ++ writeAll rs

end

/-- A command as a client sends it and as the log records it. -/
def encodeCommand (args : List Bytes) : Bytes := arrayLen args.length ++ args.flatMap bulk

end MemX.RespWrite
