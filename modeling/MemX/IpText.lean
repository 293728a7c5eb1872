import MemX.DecimalText
import MemX.EscapedText

namespace MemX.IpText

open DecimalText EscapedText

/-! Textual IP addresses, as far as whether a text is one. -/

def isHex (c : UInt8) : Bool := isDigit c || (97 ≤ c && c ≤ 102) || (65 ≤ c && c ≤ 70)

/-- The four fields of an IPv4 address: the value and the number of digits of
the current field, and the number of the fields before it. -/
def fieldsLoop (val digits pos : Nat) : Bytes → Bool
  | [] => pos = 3
  | c :: s =>
    if isDigit c then
      if digits = 1 ∧ val = 0 then false
      else if 255 < val * 10 + (c.toNat - 48) then false
      else fieldsLoop (val * 10 + (c.toNat - 48)) (digits + 1) pos s
    else if c = 46 then
      if digits = 0 ∨ s = [] ∨ pos = 3 then false else fieldsLoop 0 0 (pos + 1) s
    else false

def isIPv4 (s : Bytes) : Bool := fieldsLoop 0 0 0 s

/-- With `left` groups to come: an ellipsis stands for one or more. -/
def complete (left : Nat) (ellipsis : Bool) : Bool := if left = 0 then !ellipsis else ellipsis

/-- Groups of hex digits, with at most one ellipsis, and an IPv4 address in the
place of the last two. -/
def groupsLoop : Nat → Bool → Bytes → Bool
  | 0, _, _ => false
  | left + 1, ellipsis, s =>
    if s.takeWhile isHex = [] ∨ 4 < (s.takeWhile isHex).length then false
    else
      match s.dropWhile isHex with
      | [] => complete left ellipsis
      | c :: rest =>
        if c = 46 then
          if (ellipsis = false ∧ left ≠ 1) ∨ left = 0 then false else isIPv4 s && complete (left - 1) ellipsis
        else if c = 58 then
          match rest with
          | [] => false
          | d :: rest' =>
            if d = 58 then
              if ellipsis then false
              else if rest' = [] then complete left true
              else groupsLoop left true rest'
            else groupsLoop left ellipsis rest
        else false

def isGroups (s : Bytes) : Bool :=
  if [58, 58].isPrefixOf s then s.drop 2 = [] || groupsLoop 8 true (s.drop 2) else groupsLoop 8 false s

def isIPv6 (s : Bytes) : Bool :=
  match cutFirst 37 s with
  | none => isGroups s
  | some (a, zone) => zone ≠ [] && isGroups a

inductive Family
  | v4
  | v6
deriving DecidableEq

def parseAddr (s : Bytes) : Option Family :=
  match s.find? fun c => c = 46 || c = 58 || c = 37 with
  | some 46 => if isIPv4 s then some .v4 else none
  | some 58 => if isIPv6 s then some .v6 else none
  | _ => none

/-! What the bytes of an address are. -/

def addressByte (c : UInt8) : Bool := isHex c || c = 46 || c = 58

theorem addressByte_of_fields {s : Bytes} {val digits pos : Nat} (h : fieldsLoop val digits pos s = true) :
    ∀ c ∈ s, addressByte c = true := by
  induction s generalizing val digits pos with
  | nil => exact nofun
  | cons c s ih =>
    unfold fieldsLoop at h
    refine List.forall_mem_cons.mpr ?_
    split_ifs at h with hc _ _ hdot _
    · exact ⟨by simp [addressByte, isHex, hc], ih h⟩
    · exact ⟨by simp [addressByte, hdot], ih h⟩

theorem addressByte_takeWhile (s : Bytes) : ∀ c ∈ s.takeWhile isHex, addressByte c = true := fun c hc => by
  have hhex : isHex c = true := List.all_eq_true.mp List.all_takeWhile c hc
  simp [addressByte, hhex]

theorem addressByte_of_groups {left : Nat} {ellipsis : Bool} {s : Bytes}
    (h : groupsLoop left ellipsis s = true) : ∀ c ∈ s, addressByte c = true := by
  induction left generalizing ellipsis s with
  | zero => cases h
  | succ left ih =>
    have hcolon : addressByte 58 = true := by decide
    have hgroup := addressByte_takeWhile s
    have hsplit : s = s.takeWhile isHex ++ s.dropWhile isHex := List.takeWhile_append_dropWhile.symm
    unfold groupsLoop at h
    split at h
    · cases h
    · rw [hsplit]
      refine List.forall_mem_append.mpr ⟨hgroup, ?_⟩
      cases hdrop : s.dropWhile isHex with
      | nil => exact nofun
      | cons c rest =>
        rw [hdrop] at h
        simp only at h
        by_cases hdot : c = 46
        · -- the IPv4 address takes the digits before it, too
          simp only [hdot, ↓reduceIte] at h
          split at h
          · cases h
          · have hall := addressByte_of_fields (Bool.and_eq_true_iff.mp h).1
            rw [hsplit, hdrop] at hall
            exact (List.forall_mem_append.mp hall).2
        · by_cases hc : c = 58
          · simp only [hc, show ¬ (58 : UInt8) = 46 by decide, ↓reduceIte] at h
            rw [hc]
            refine List.forall_mem_cons.mpr ⟨hcolon, ?_⟩
            cases rest with
            | nil => exact nofun
            | cons d rest =>
              simp only at h
              by_cases hd : d = 58
              · simp only [hd, ↓reduceIte] at h
                rw [hd]
                refine List.forall_mem_cons.mpr ⟨hcolon, ?_⟩
                split at h
                · cases h
                · split at h
                  · rename_i hnil
                    rw [hnil]
                    exact nofun
                  · exact ih h
              · simp only [hd, ↓reduceIte] at h
                exact ih h
          · simp [hdot, hc] at h

theorem addressByte_of_isGroups {s : Bytes} (h : isGroups s = true) : ∀ c ∈ s, addressByte c = true := by
  unfold isGroups at h
  split at h
  · rename_i hpre
    obtain ⟨t, rfl⟩ := List.isPrefixOf_iff_prefix.mp hpre
    have hcolon : addressByte 58 = true := by decide
    refine List.forall_mem_append.mpr ⟨by simpa using hcolon, ?_⟩
    obtain hnil | hgroups := Bool.or_eq_true_iff.mp h
    · have ht : t = [] := by simpa using hnil
      rw [ht]
      exact nofun
    · exact addressByte_of_groups hgroups
  · exact addressByte_of_groups h

theorem isIPv6_of_parseAddr {s : Bytes} (h : parseAddr s = some .v6) : isIPv6 s = true := by
  unfold parseAddr at h
  split at h
  · split at h <;> cases h
  · split at h
    · assumption
    · cases h
  · cases h

/-- An IPv6 address is made of its address bytes, and of a zone behind the first
percent sign. -/
theorem address_parts {s : Bytes} (h : parseAddr s = some .v6) :
    ∃ a, (∀ c ∈ a, addressByte c = true) ∧ (s = a ∨ ∃ zone, s = a ++ 37 :: zone) := by
  have h6 := isIPv6_of_parseAddr h
  unfold isIPv6 at h6
  cases hcut : cutFirst 37 s with
  | none =>
    rw [hcut] at h6
    exact ⟨s, addressByte_of_isGroups h6, .inl rfl⟩
  | some p =>
    obtain ⟨a, zone⟩ := p
    rw [hcut] at h6
    exact ⟨a, addressByte_of_isGroups (Bool.and_eq_true_iff.mp h6).2, .inr ⟨zone, cutFirst_eq hcut⟩⟩

end MemX.IpText
