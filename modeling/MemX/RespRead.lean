import MemX.Utf8Runes

namespace MemX.RespRead

open DecimalText

structure Limits where
  maxBulkLen : Int
  maxArgs : Int
  maxInlineLen : Int
  maxHeaderLen : Int

def defaultLimits : Limits := ⟨67108864, 1048576, 65536, 64⟩

/-- How a read fails: at the end of the input, in the middle of a payload, or
with a `ProtocolError`. -/
inductive ReadErr
  | eof
  | unexpectedEOF
  | protocol (msg : Bytes)
deriving DecidableEq

/-- The outcome of `ReadSlice('\n')` on a buffer of `size` bytes. -/
inductive Slice
  | found (frag rest : Bytes)
  | full (frag rest : Bytes)
  | eof
deriving DecidableEq

def readSlice (size : Nat) (s : Bytes) : Slice :=
  if (10 : UInt8) ∈ s.take size then
    .found (s.takeWhile (· != 10) ++ [10]) ((s.dropWhile (· != 10)).drop 1)
  else if s.length ≥ size then .full (s.take size) (s.drop size)
  else .eof

def stripEOL (line : Bytes) : Bytes :=
  let line := line.dropLast
  if line.getLast? = some 13 then line.dropLast else line

/-- `readLine`: the fragments of a line longer than the buffer accumulate, and
a limit check follows each of them. -/
def readLineLoop (size : Nat) (max : Int) (what : Bytes) : Nat → Bytes → Bytes → Except ReadErr (Bytes × Bytes)
  | 0, _, _ => .error .eof
  | fuel + 1, line, s =>
    match readSlice size s with
    | .found frag rest =>
      let line := stripEOL (line ++ frag)
      if line.length > max then .error (.protocol (ascii "too big " ++ what)) else .ok (line, rest)
    | .full frag rest =>
      if (line ++ frag).length > max then .error (.protocol (ascii "too big " ++ what))
      else readLineLoop size max what fuel (line ++ frag) rest
    | .eof => .error .eof

def readLine (size : Nat) (max : Int) (what s : Bytes) : Except ReadErr (Bytes × Bytes) :=
  readLineLoop size max what (s.length + 1) [] s

/-- `io.ReadFull`: nothing at all is the end of the input, a part is not. -/
def readFull (n : Nat) (s : Bytes) : Except ReadErr (Bytes × Bytes) :=
  if s.length ≥ n then .ok (s.take n, s.drop n)
  else if s = [] then .error .eof else .error .unexpectedEOF

def expectedDollar (bl : Bytes) : Bytes :=
  ascii "expected '$', got '" ++
    (match bl with
      | [] => ascii "?"
      | b :: _ => Utf8Runes.encodeRune b.toNat) ++ ascii "'"

def bulkLength (lim : Limits) (s : Bytes) : Option Nat :=
  match parseInt s with
  | none => none
  | some n => if n < 0 ∨ n > lim.maxBulkLen then none else some n.toNat

def invalidBulk : ReadErr := .protocol (ascii "invalid bulk length")

def readPayload (n : Nat) (s : Bytes) : Except ReadErr (Bytes × Bytes) :=
  match readFull (n + 2) s with
  | .error e => .error e
  | .ok (buf, rest) => if buf.drop n = [13, 10] then .ok (buf.take n, rest) else .error invalidBulk

def readBulk (size : Nat) (lim : Limits) (s : Bytes) : Except ReadErr (Bytes × Bytes) :=
  match readLine size lim.maxHeaderLen (ascii "header line") s with
  | .error e => .error e
  | .ok (bl, s) =>
    if bl.head? = some 36 then
      match bulkLength lim (bl.drop 1) with
      | none => .error invalidBulk
      | some n => readPayload n s
    else .error (.protocol (expectedDollar bl))

def readBulks (size : Nat) (lim : Limits) : Nat → Bytes → Except ReadErr (List Bytes × Bytes)
  | 0, s => .ok ([], s)
  | n + 1, s =>
    match readBulk size lim s with
    | .error e => .error e
    | .ok (arg, s) =>
      match readBulks size lim n s with
      | .error e => .error e
      | .ok (args, s) => .ok (arg :: args, s)

def invalidMultibulk : ReadErr := .protocol (ascii "invalid multibulk length")

def readMultibulk (size : Nat) (lim : Limits) (s : Bytes) : Except ReadErr (List Bytes × Bytes) :=
  match readLine size lim.maxHeaderLen (ascii "header line") s with
  | .error e => .error e
  | .ok (line, s) =>
    match parseInt (line.drop 1) with
    | none => .error invalidMultibulk
    | some n => if n ≤ 0 ∨ n > lim.maxArgs then .error invalidMultibulk else readBulks size lim n.toNat s

def readInline (size : Nat) (lim : Limits) (s : Bytes) : Except ReadErr (List Bytes × Bytes) :=
  match readLine size lim.maxInlineLen (ascii "inline request") s with
  | .error e => .error e
  | .ok (line, s) =>
    let fields := Utf8Runes.fields line
    if fields = [] then .error (.protocol (ascii "empty command"))
    else if fields.length > lim.maxArgs then .error (.protocol (ascii "too many arguments"))
    else .ok (fields, s)

def readCommand (size : Nat) (lim : Limits) (s : Bytes) : Except ReadErr (List Bytes × Bytes) :=
  if s = [] then .error .eof
  else if s.head? = some 42 then readMultibulk size lim s
  else readInline size lim s

end MemX.RespRead
