import MemX.BufWriter
import MemX.RespWrite

namespace MemX.RespWriter

open DecimalText RespWrite BufWriter

variable {σ : Type} (S : Sink UInt8 σ) (strings : Bool)

/-- What a method of `Writer` does to the buffered writer behind it. -/
abbrev Action (σ : Type) := Buffered UInt8 σ → Buffered UInt8 σ

def writerBuffer : Nat := 4096

/-! The methods of `Writer`. Each returns with the first error; `strings` says
whether the destination has a `WriteString` of its own. -/

def writeByte (b : UInt8) : Action σ := BufWriter.writeByte S writerBuffer b

def writeString (s : Bytes) : Action σ := write S writerBuffer strings s

def writeBytes (b : Bytes) : Action σ := write S writerBuffer true b

def writeStringLine (marker : UInt8) (s : Bytes) : Action σ :=
  andThen (writeByte S marker) (andThen (writeString S strings s) (writeString S strings crlf))

def simpleString (s : Bytes) : Action σ := writeStringLine S strings 43 s

def error (s : Bytes) : Action σ := writeStringLine S strings 45 s

def integer (n : Int) : Action σ := writeStringLine S strings 58 (formatInt n)

def bulk (b : Bytes) : Action σ :=
  andThen (writeStringLine S strings 36 (formatNat b.length))
    (andThen (writeBytes S b) (writeString S strings crlf))

def nullBulk : Action σ := writeString S strings (ascii "$-1\r\n")

def arrayLen (n : Nat) : Action σ := writeStringLine S strings 42 (formatNat n)

mutual

def writeTo : Reply → Action σ
  | .simple s => simpleString S strings s
  | .error s => error S strings s
  | .integer n => integer S strings n
  | .bulk b => bulk S strings b
  | .null => nullBulk S strings
  | .array rs => andThen (arrayLen S strings rs.length) (writeAll rs)

def writeAll : List Reply → Action σ
  | [] => id
  | r :: rs => andThen (writeTo r) (writeAll rs)

end

def bulks : List Bytes → Action σ
  | [] => id
  | arg :: args => andThen (bulk S strings arg) (bulks args)

/-- The writes of `AOF.Append` and of `Client.Do`. -/
def sendCommand (args : List Bytes) : Action σ :=
  andThen (arrayLen S strings args.length) (andThen (bulks S strings args) (flush S))

variable {S strings}

theorem writes_string (s : Bytes) : Writes S (writeString S strings s) s := writes_write strings (by decide) s

theorem writes_line (marker : UInt8) (s : Bytes) : Writes S (writeStringLine S strings marker s) (writeLine marker s) :=
  (writes_writeByte marker).andThen ((writes_string s).andThen (writes_string crlf))

theorem writes_bulk (b : Bytes) : Writes S (bulk S strings b) (RespWrite.bulk b) :=
  (writes_line 36 _).andThen ((writes_write true (by decide) b).andThen (writes_string crlf))

theorem writes_arrayLen (n : Nat) : Writes S (arrayLen S strings n) (RespWrite.arrayLen n) := writes_line 42 _

theorem writes_id : Writes S (id : Action σ) [] := Puts.refl

mutual

theorem writes_writeTo (r : Reply) : Writes S (writeTo S strings r) (RespWrite.writeTo r) := by
  cases r with
  | simple s => exact writes_line 43 s
  | error s => exact writes_line 45 s
  | integer n => exact writes_line 58 _
  | bulk b => exact writes_bulk b
  | null => exact writes_string _
  | array rs => exact (writes_arrayLen _).andThen (writes_writeAll rs)

theorem writes_writeAll (rs : List Reply) : Writes S (writeAll S strings rs) (RespWrite.writeAll rs) := by
  cases rs with
  | nil => exact writes_id
  | cons r rs => exact (writes_writeTo r).andThen (writes_writeAll rs)

end

theorem writes_bulks (args : List Bytes) : Writes S (bulks S strings args) (args.flatMap RespWrite.bulk) := by
  induction args with
  | nil => exact writes_id
  | cons arg args ih => exact (writes_bulk arg).andThen ih

theorem writes_sendCommand (args : List Bytes) : Writes S (sendCommand S strings args) (encodeCommand args) := by
  have h : Writes S (sendCommand S strings args)
      (RespWrite.arrayLen args.length ++ (args.flatMap RespWrite.bulk ++ [])) :=
    (writes_arrayLen _).andThen ((writes_bulks args).andThen writes_flush)
  rwa [List.append_nil] at h

theorem flushes_sendCommand (args : List Bytes) : Flushes (sendCommand S strings args) := flushes_flush.after.after

end MemX.RespWriter
