import MemX.StoreState

namespace MemX.StoreRules

open MachineInt DecimalText Clock StoreState

inductive SetMode
  | always
  | nx
  | xx
deriving DecidableEq

inductive StoreError
  | notInteger
  | valueTooLarge
deriving DecidableEq

def StoreError.text : StoreError → Bytes
  | .notInteger => ascii "value is not an integer or out of range"
  | .valueTooLarge => ascii "string exceeds maximum allowed size"

/-- An entry to store, and whether its deadline is pushed on the expiry heap. -/
structure Write where
  entry : Entry
  track : Bool

inductive Effect
  | keep
  | purge
  | put (w : Write)

/-- What a single-key operation does after the lazy-expiry check that all of
them begin with: once for a key that is absent (or was just purged), once for
a live entry. An absent key can only be created. The reading is the one the
operation takes for itself, after the reading of the check. -/
structure KeyOp (α : Type) where
  absent : Instant → α × Option Write
  present : Instant → Entry → α × Effect

def get : KeyOp (Option Bytes) where
  absent _ := (none, none)
  present _ e := (some e.val, .keep)

def deadlineIn (now : Instant) (ttl : Int) : Int := if ttl > 0 then unixNano now ttl else 0

def setWrite (val : Bytes) (ttl : Int) (now : Instant) : Write :=
  ⟨⟨val, deadlineIn now ttl⟩, deadlineIn now ttl != 0⟩

def set (val : Bytes) (ttl : Int) (mode : SetMode) : KeyOp Bool where
  absent now := if mode = .xx then (false, none) else (true, some (setWrite val ttl now))
  present now _ := if mode = .nx then (false, .keep) else (true, .put (setWrite val ttl now))

def del : KeyOp Bool where
  absent _ := (false, none)
  present _ _ := (true, .purge)

def plain (val : Bytes) : Write := ⟨⟨val, 0⟩, false⟩

/-- The new entry drops any deadline, as the source's composite literal does. -/
def incrBy (delta : Int) : KeyOp (Except StoreError Int) where
  absent _ := (.ok (wrap64 (0 + delta)), some (plain (formatInt (wrap64 (0 + delta)))))
  present _ e :=
    match parseInt e.val with
    | none => (.error .notInteger, .keep)
    | some n => (.ok (wrap64 (n + delta)), .put (plain (formatInt (wrap64 (n + delta)))))

def append (maxValLen : Int) (suffix : Bytes) : KeyOp (Except StoreError Nat) where
  absent _ :=
    if suffix.length > maxValLen then (.error .valueTooLarge, none)
    else (.ok suffix.length, some (plain suffix))
  present _ e :=
    if (e.val.length : Int) + suffix.length > maxValLen then (.error .valueTooLarge, .keep)
    else (.ok (e.val ++ suffix).length, .put ⟨⟨e.val ++ suffix, e.expireAt⟩, false⟩)

def expire (ttl : Int) : KeyOp Bool where
  absent _ := (false, none)
  present now e :=
    if ttl ≤ 0 then (true, .purge)
    else (true, .put ⟨⟨e.val, unixNano now ttl⟩, true⟩)

def ttl : KeyOp (Option Int) where
  absent _ := (none, none)
  present now e :=
    if e.expireAt = 0 then (some (-1), .keep)
    else (some (wrap64 (e.expireAt - now.nanos)), .keep)

def getSet (val : Bytes) : KeyOp (Option Bytes) where
  absent _ := (none, some (plain val))
  present _ e := (some e.val, .put (plain val))

/-- The common body of the two absolute forms, after the conversion of the
argument to nanoseconds. -/
def expireAtNanos (dl : Int) : KeyOp Bool where
  absent _ := (false, none)
  present now e :=
    if dl ≤ now.nanos then (true, .purge)
    else (true, .put ⟨⟨e.val, dl⟩, true⟩)

def expireAt (unixSeconds : Int) : KeyOp Bool := expireAtNanos (wrap64 (unixSeconds * second))

def expireAtMs (unixMs : Int) : KeyOp Bool := expireAtNanos (wrap64 (unixMs * millisecond))

def persist : KeyOp Bool where
  absent _ := (false, none)
  present _ e :=
    if e.expireAt = 0 then (false, .keep) else (true, .put (plain e.val))

end MemX.StoreRules
