import MemX.DecimalText

namespace MemX.StoreGlob

open DecimalText

/-- The member loop of a character class. An index outside the pattern and
an exhausted fuel both give `none`; running off the pattern's end is the
unclosed class. -/
def classLoop (pattern : Bytes) (pos : Nat) (ch : UInt8) (negate : Bool) :
    Nat → Nat → Bool → Option (Bool × Nat)
  | 0, _, _ => none
  | fuel + 1, i, matched =>
    if i < pattern.length then do
      let c ← pattern[i]?
      if c = 93 then
        some (if negate then !matched else matched, i + 1)
      else if c = 92 ∧ i + 1 < pattern.length then do
        let x ← pattern[i + 1]?
        classLoop pattern pos ch negate fuel (i + 2) (matched || ch == x)
      else do
        let range ← if i + 2 < pattern.length then do
            let dash ← pattern[i + 1]?
            let hi ← pattern[i + 2]?
            some (dash == 45 && hi != 93)
          else some false
        if range then do
          let hi ← pattern[i + 2]?
          classLoop pattern pos ch negate fuel (i + 3) (matched || (c ≤ ch && ch ≤ hi))
        else
          classLoop pattern pos ch negate fuel (i + 1) (matched || ch == c)
    else some (false, pos + 1)

def matchClass (pattern : Bytes) (pos : Nat) (ch : UInt8) : Option (Bool × Nat) :=
  if pos + 1 ≥ pattern.length then some (false, pos + 1)
  else do
    let first ← pattern[pos + 1]?
    let negate := first == 94 || first == 33
    classLoop pattern pos ch negate (pattern.length + 1) (if negate then pos + 2 else pos + 1) false

/-- Pattern index, name index, last star and the position to resume after it. -/
structure Scan where
  pi : Nat
  si : Nat
  star : Option Nat
  mark : Nat

def Scan.both (st : Scan) (pi : Nat) : Scan := { st with pi := pi, si := st.si + 1 }

/-- One iteration up to the mismatch: `some none` falls through to the
backtracking branch. -/
def tryMatch (pattern s : Bytes) (st : Scan) : Option (Option Scan) :=
  if st.pi < pattern.length then do
    let c ← pattern[st.pi]?
    if c = 92 ∧ st.pi + 1 < pattern.length then do
      let x ← pattern[st.pi + 1]?
      let y ← s[st.si]?
      some (if x = y then some (st.both (st.pi + 2)) else none)
    else if c = 63 then
      some (some (st.both (st.pi + 1)))
    else if c = 91 then do
      let y ← s[st.si]?
      let (ok, next) ← matchClass pattern st.pi y
      some (if ok then some (st.both next)
        else if y = 91 then some (st.both (st.pi + 1)) else none)
    else if c = 42 then
      some (some ⟨st.pi + 1, st.si, some st.pi, st.si⟩)
    else do
      let y ← s[st.si]?
      some (if c = y then some (st.both (st.pi + 1)) else none)
  else some none

def trailing (pattern : Bytes) (pi : Nat) : Bool :=
  pi + ((pattern.drop pi).takeWhile (· == 42)).length == pattern.length

def globLoop (pattern s : Bytes) : Nat → Scan → Option Bool
  | 0, _ => none
  | fuel + 1, st =>
    if st.si < s.length then
      match tryMatch pattern s st with
      | none => none
      | some (some next) => globLoop pattern s fuel next
      | some none =>
        match st.star with
        | some star => globLoop pattern s fuel ⟨star + 1, st.mark + 1, some star, st.mark + 1⟩
        | none => some false
    else some (trailing pattern st.pi)

def globMatch (pattern s : Bytes) : Bool :=
  (globLoop pattern s ((s.length + 1) * (pattern.length + s.length + 2)) ⟨0, 0, none, 0⟩).getD false

end MemX.StoreGlob
