import MemX.StoreGlob
import MemX.WildMatch

namespace MemX.GlobTokens

open DecimalText StoreGlob WildMatch

inductive Member
  | byte (b : UInt8)
  | range (lo hi : UInt8)
deriving DecidableEq

def Member.has (y : UInt8) : Member → Bool
  | .byte b => y == b
  | .range lo hi => lo ≤ y && y ≤ hi

/-- A character class; a negated one takes the bytes that are not listed. -/
structure CharClass where
  negate : Bool
  members : List Member
deriving DecidableEq

def CharClass.accepts (k : CharClass) (y : UInt8) : Bool := k.members.any (Member.has y) != k.negate

def addMember (m : Member) (r : List Member × Bytes) : List Member × Bytes := (m :: r.1, r.2)

/-- The members up to the closing bracket, and the text behind it. A bracket
ends the list wherever it stands, also behind a dash; a backslash takes the
next byte as it is, but not as the end of a range. -/
def parseMembers : Bytes → Option (List Member × Bytes)
  | [] => none
  | [c] => if c = 93 then some ([], []) else none
  | [c, d] =>
    if c = 93 then some ([], [d])
    else if c = 92 then none
    else (parseMembers [d]).map (addMember (.byte c))
  | c :: d :: hi :: rest =>
    if c = 93 then some ([], d :: hi :: rest)
    else if c = 92 then (parseMembers (hi :: rest)).map (addMember (.byte d))
    else if d = 45 ∧ hi ≠ 93 then (parseMembers rest).map (addMember (.range c hi))
    else (parseMembers (d :: hi :: rest)).map (addMember (.byte c))

def parseClass : Bytes → Option (CharClass × Bytes)
  | [] => none
  | c :: rest =>
    if c = 94 ∨ c = 33 then (parseMembers rest).map fun r => (⟨true, r.1⟩, r.2)
    else (parseMembers (c :: rest)).map fun r => (⟨false, r.1⟩, r.2)

inductive Token
  | any
  | lit (b : UInt8)
  | cls (k : CharClass)
deriving DecidableEq

def Token.accepts : Token → UInt8 → Bool
  | .any, _ => true
  | .lit b, y => y == b
  | .cls k, y => k.accepts y

theorem map_addMember {m : Member} {o : Option (List Member × Bytes)} {ms : List Member} {rest : Bytes}
    (h : o.map (addMember m) = some (ms, rest)) : ∃ ms', o = some (ms', rest) ∧ ms = m :: ms' := by
  obtain ⟨r, hr, heq⟩ := Option.map_eq_some_iff.mp h
  cases heq
  exact ⟨r.1, hr, rfl⟩

theorem parseMembers_split {p rest : Bytes} {ms : List Member} (h : parseMembers p = some (ms, rest)) :
    93 :: rest <:+ p := by
  fun_induction parseMembers p generalizing ms rest with
  | case1 => cases h
  | case2 =>
    cases h
    exact List.suffix_rfl
  | case3 => cases h
  | case4 d =>
    cases h
    exact List.suffix_rfl
  | case5 => cases h
  | case6 c d _ _ ih =>
    obtain ⟨ms', hr, rfl⟩ := map_addMember h
    exact (ih hr).trans (List.suffix_cons c [d])
  | case7 d hi rest' =>
    cases h
    exact List.suffix_rfl
  | case8 d hi rest' _ ih =>
    obtain ⟨ms', hr, rfl⟩ := map_addMember h
    exact (ih hr).trans (List.suffix_append [92, d] (hi :: rest'))
  | case9 c d hi rest' _ _ _ ih =>
    obtain ⟨ms', hr, rfl⟩ := map_addMember h
    exact (ih hr).trans (List.suffix_append [c, d, hi] rest')
  | case10 c d hi rest' _ _ _ ih =>
    obtain ⟨ms', hr, rfl⟩ := map_addMember h
    exact (ih hr).trans (List.suffix_cons c (d :: hi :: rest'))

theorem parseClass_split {p rest : Bytes} {k : CharClass} (h : parseClass p = some (k, rest)) :
    93 :: rest <:+ p := by
  cases p with
  | nil => cases h
  | cons c p =>
    rw [parseClass] at h
    split_ifs at h
    · obtain ⟨r, hr, heq⟩ := Option.map_eq_some_iff.mp h
      cases heq
      exact (parseMembers_split hr).trans (List.suffix_cons c p)
    · obtain ⟨r, hr, heq⟩ := Option.map_eq_some_iff.mp h
      cases heq
      exact parseMembers_split hr

theorem parseClass_length {p rest : Bytes} {k : CharClass} (h : parseClass p = some (k, rest)) :
    rest.length < p.length := (parseClass_split h).length_le

theorem parseClass_suffix {p rest : Bytes} {k : CharClass} (h : parseClass p = some (k, rest)) : rest <:+ p :=
  (List.suffix_cons 93 rest).trans (parseClass_split h)

/-- The items of a pattern. A bracket that opens no class is a literal, and so
is a backslash at the end. -/
def tokens : Bytes → List (Item Token)
  | [] => []
  | c :: rest =>
    if c = 42 then .star :: tokens rest
    else if c = 63 then .one .any :: tokens rest
    else if c = 92 then
      match rest with
      | [] => [.one (.lit 92)]
      | x :: rest => .one (.lit x) :: tokens rest
    else if c = 91 then
      match h : parseClass rest with
      | some (k, rest') =>
        have := parseClass_length h
        .one (.cls k) :: tokens rest'
      | none => .one (.lit 91) :: tokens rest
    else .one (.lit c) :: tokens rest
termination_by p => p.length

theorem parseMembers_close (r : Bytes) : parseMembers (93 :: r) = some ([], r) := by
  cases r with
  | nil => rfl
  | cons d r => cases r <;> rfl

theorem parseMembers_escape (d : UInt8) (r : Bytes) :
    parseMembers (92 :: d :: r) = (parseMembers r).map (addMember (.byte d)) := by
  cases r <;> rfl

theorem parseMembers_range {c hi : UInt8} (hc : c ≠ 93) (hb : c ≠ 92) (hhi : hi ≠ 93) (r : Bytes) :
    parseMembers (c :: 45 :: hi :: r) = (parseMembers r).map (addMember (.range c hi)) := by
  simp [parseMembers, hc, hb, hhi]

theorem parseMembers_byte {c : UInt8} (hc : c ≠ 93) (hb : c ≠ 92) {r : Bytes}
    (hr : ∀ hi r', r = 45 :: hi :: r' → hi = 93) :
    parseMembers (c :: r) = (parseMembers r).map (addMember (.byte c)) := by
  cases r with
  | nil => simp [parseMembers, hc]
  | cons d r =>
    cases r with
    | nil => simp [parseMembers, hc, hb]
    | cons hi r =>
      have hno : ¬ (d = 45 ∧ hi ≠ 93) := by
        rintro ⟨rfl, hne⟩
        exact hne (hr hi r rfl)
      rw [parseMembers, if_neg hc, if_neg hb, if_neg hno]

/-- The bytes behind an opening bracket decide about the class, not what
follows its end. -/
theorem parseMembers_append {p rest : Bytes} {ms : List Member} (h : parseMembers p = some (ms, rest)) (r : Bytes) :
    parseMembers (p ++ r) = some (ms, rest ++ r) := by
  fun_induction parseMembers p generalizing ms rest with
  | case1 => cases h
  | case2 =>
    cases h
    exact parseMembers_close r
  | case3 => cases h
  | case4 d =>
    cases h
    exact parseMembers_close (d :: r)
  | case5 => cases h
  | case6 c d hc hb ih =>
    obtain ⟨ms', hr, rfl⟩ := map_addMember h
    have hd : d ≠ 45 := by
      rintro rfl
      cases hr
    have hbyte : parseMembers (c :: d :: r) = (parseMembers (d :: r)).map (addMember (.byte c)) :=
      parseMembers_byte hc hb fun hi r' he => absurd (List.cons.inj he).1 hd
    have hd' : parseMembers (d :: r) = some (ms', rest ++ r) := ih hr
    change parseMembers (c :: d :: r) = _
    rw [hbyte, hd']
    rfl
  | case7 d hi rest' =>
    cases h
    exact parseMembers_close (d :: hi :: rest' ++ r)
  | case8 d hi rest' _ ih =>
    obtain ⟨ms', hr, rfl⟩ := map_addMember h
    have ih' : parseMembers (hi :: (rest' ++ r)) = some (ms', rest ++ r) := ih hr
    change parseMembers (92 :: d :: hi :: (rest' ++ r)) = _
    rw [parseMembers_escape, ih']
    rfl
  | case9 c d hi rest' hc hb hrange ih =>
    obtain ⟨ms', hr, rfl⟩ := map_addMember h
    obtain ⟨rfl, hhi⟩ := hrange
    change parseMembers (c :: 45 :: hi :: (rest' ++ r)) = _
    rw [parseMembers_range hc hb hhi, ih hr]
    rfl
  | case10 c d hi rest' hc hb hrange ih =>
    obtain ⟨ms', hr, rfl⟩ := map_addMember h
    have ih' : parseMembers (d :: hi :: (rest' ++ r)) = some (ms', rest ++ r) := ih hr
    change parseMembers (c :: d :: hi :: (rest' ++ r)) = _
    rw [parseMembers, if_neg hc, if_neg hb, if_neg hrange, ih']
    rfl

theorem parseClass_append {p rest : Bytes} {k : CharClass} (h : parseClass p = some (k, rest)) (r : Bytes) :
    parseClass (p ++ r) = some (k, rest ++ r) := by
  cases p with
  | nil => cases h
  | cons c p =>
    rw [parseClass] at h
    rw [List.cons_append, parseClass]
    split_ifs at h ⊢
    · obtain ⟨q, hq, heq⟩ := Option.map_eq_some_iff.mp h
      cases heq
      rw [parseMembers_append hq]
      rfl
    · obtain ⟨q, hq, heq⟩ := Option.map_eq_some_iff.mp h
      cases heq
      rw [← List.cons_append, parseMembers_append hq]
      rfl

end MemX.GlobTokens
