import Mathlib.Data.List.Basic

namespace MemX.EscapedText

section Cut

variable {α : Type} [DecidableEq α] {sep : α} {a b s : List α}

def cutFirst (sep : α) : List α → Option (List α × List α)
  | [] => none
  | x :: s => if x = sep then some ([], s) else (cutFirst sep s).map (Prod.map (x :: ·) id)

def cutLast (sep : α) (s : List α) : Option (List α × List α) :=
  (cutFirst sep s.reverse).map fun p => (p.2.reverse, p.1.reverse)

theorem cutFirst_none (h : sep ∉ s) : cutFirst sep s = none := by
  induction s with
  | nil => rfl
  | cons x s ih =>
    obtain ⟨hx, hs⟩ := not_or.mp (mt List.mem_cons.mpr h)
    rw [cutFirst, if_neg (Ne.symm hx), ih hs]
    rfl

theorem cutFirst_append (h : sep ∉ a) : cutFirst sep (a ++ sep :: b) = some (a, b) := by
  induction a with
  | nil => exact if_pos rfl
  | cons x a ih =>
    obtain ⟨hx, ha⟩ := not_or.mp (mt List.mem_cons.mpr h)
    rw [List.cons_append, cutFirst, if_neg (Ne.symm hx), ih ha]
    rfl

theorem cutFirst_eq (h : cutFirst sep s = some (a, b)) : s = a ++ sep :: b := by
  induction s generalizing a with
  | nil => cases h
  | cons x s ih =>
    rw [cutFirst] at h
    split at h
    · rename_i hx
      cases h
      rw [hx, List.nil_append]
    · obtain ⟨⟨a', b'⟩, hcut, heq⟩ := Option.map_eq_some_iff.mp h
      cases heq
      rw [ih hcut]
      rfl

theorem cutLast_none (h : sep ∉ s) : cutLast sep s = none := by
  rw [cutLast, cutFirst_none (by simpa using h)]
  rfl

theorem cutLast_append (h : sep ∉ b) : cutLast sep (a ++ sep :: b) = some (a, b) := by
  have hrev : (a ++ sep :: b).reverse = b.reverse ++ sep :: a.reverse := by simp
  rw [cutLast, hrev, cutFirst_append (by simpa using h)]
  simp

end Cut

section Percent

theorem byte_cases {p : UInt8 → Prop} (h : ∀ n < 256, p (UInt8.ofNat n)) (b : UInt8) : p b := by
  have hb := h b.toNat b.toNat_lt
  rwa [UInt8.ofNat_toNat] at hb

def upperHex (n : Nat) : UInt8 := UInt8.ofNat (if n < 10 then 48 + n else 55 + n)

def unhex (c : UInt8) : Option Nat :=
  if 48 ≤ c ∧ c ≤ 57 then some (c.toNat - 48)
  else if 97 ≤ c ∧ c ≤ 102 then some (c.toNat - 87)
  else if 65 ≤ c ∧ c ≤ 70 then some (c.toNat - 55)
  else none

def escapeByte (b : UInt8) : List UInt8 := [37, upperHex (b.toNat / 16), upperHex (b.toNat % 16)]

def escape (keep : UInt8 → Bool) (s : List UInt8) : List UInt8 :=
  s.flatMap fun b => if keep b then [b] else escapeByte b

theorem escape_append (keep : UInt8 → Bool) (s t : List UInt8) :
    escape keep (s ++ t) = escape keep s ++ escape keep t :=
  List.flatMap_append

theorem escape_kept {keep : UInt8 → Bool} {s : List UInt8} (h : ∀ b ∈ s, keep b = true) : escape keep s = s := by
  rw [escape, List.flatMap_congr fun b hb => if_pos (h b hb), List.flatMap_singleton']

inductive Fault
  | escape (s : List UInt8)
  | literal (c : UInt8)

/-- Percent-decoding, where only some bytes may stand for themselves and only
some may be escaped. -/
def unescape (literal escaped : UInt8 → Bool) : List UInt8 → Except Fault (List UInt8)
  | [] => .ok []
  | 37 :: x :: y :: s =>
    match unhex x, unhex y with
    | some h, some l =>
      if escaped (UInt8.ofNat (16 * h + l)) then (unescape literal escaped s).map (UInt8.ofNat (16 * h + l) :: ·)
      else .error (.escape [37, x, y])
    | _, _ => .error (.escape [37, x, y])
  | c :: s =>
    if c = 37 then .error (.escape (c :: s))
    else if literal c then (unescape literal escaped s).map (c :: ·) else .error (.literal c)

theorem unhex_upperHex {n : Nat} (h : n < 16) : unhex (upperHex n) = some n := by
  have hall : ∀ n < 16, unhex (upperHex n) = some n := by decide
  exact hall n h

theorem unescape_literal {literal escaped : UInt8 → Bool} {c : UInt8} (s : List UInt8) (hc : c ≠ 37)
    (hl : literal c = true) : unescape literal escaped (c :: s) = (unescape literal escaped s).map (c :: ·) := by
  rw [unescape.eq_def]
  simp [hc, hl]

theorem unescape_escapeByte {literal escaped : UInt8 → Bool} {b : UInt8} (s : List UInt8) (hb : escaped b = true) :
    unescape literal escaped (escapeByte b ++ s) = (unescape literal escaped s).map (b :: ·) := by
  have hlt : b.toNat < 256 := b.toNat_lt
  have hvalue : UInt8.ofNat (16 * (b.toNat / 16) + b.toNat % 16) = b := by
    rw [Nat.div_add_mod, UInt8.ofNat_toNat]
  simp only [escapeByte, List.cons_append, List.nil_append, unescape, unhex_upperHex (by omega : b.toNat / 16 < 16),
    unhex_upperHex (by omega : b.toNat % 16 < 16), hvalue, hb, ↓reduceIte]

/-- What was escaped is read back, if the reader takes what the writer keeps. -/
theorem unescape_escape {keep literal escaped : UInt8 → Bool} {s : List UInt8}
    (hkeep : ∀ b ∈ s, keep b = true → b ≠ 37 ∧ literal b = true)
    (hescape : ∀ b ∈ s, keep b = false → escaped b = true) : unescape literal escaped (escape keep s) = .ok s := by
  induction s with
  | nil => rfl
  | cons b s ih =>
    obtain ⟨hk, hks⟩ := List.forall_mem_cons.mp hkeep
    obtain ⟨he, hes⟩ := List.forall_mem_cons.mp hescape
    have hrest := ih hks hes
    rw [escape, List.flatMap_cons]
    cases hb : keep b with
    | true =>
      obtain ⟨hne, hl⟩ := hk hb
      rw [if_pos rfl, List.singleton_append, unescape_literal _ hne hl]
      exact congrArg (Except.map (b :: ·)) hrest
    | false =>
      rw [if_neg (by simp), unescape_escapeByte _ (he hb)]
      exact congrArg (Except.map (b :: ·)) hrest

theorem mem_escape {keep : UInt8 → Bool} {s : List UInt8} {x : UInt8} (hx : x ∈ escape keep s) :
    (x ∈ s ∧ keep x = true) ∨ x = 37 ∨ ∃ n < 16, x = upperHex n := by
  obtain ⟨b, hb, hx⟩ := List.mem_flatMap.mp hx
  have hlt : b.toNat < 256 := b.toNat_lt
  cases hk : keep b with
  | true =>
    simp only [hk, ↓reduceIte, List.mem_singleton] at hx
    exact .inl (hx ▸ ⟨hb, hk⟩)
  | false =>
    simp only [hk, Bool.false_eq_true, ↓reduceIte, escapeByte, List.mem_cons, List.not_mem_nil, or_false] at hx
    obtain rfl | rfl | rfl := hx
    · exact .inr (.inl rfl)
    · exact .inr (.inr ⟨_, by omega, rfl⟩)
    · exact .inr (.inr ⟨_, by omega, rfl⟩)

theorem forall_mem_escape {keep : UInt8 → Bool} {s : List UInt8} {p : UInt8 → Prop}
    (hkeep : ∀ b ∈ s, keep b = true → p b) (hpercent : p 37) (hdigits : ∀ n < 16, p (upperHex n)) :
    ∀ x ∈ escape keep s, p x := fun x hx => by
  obtain ⟨hs, hk⟩ | rfl | ⟨n, hn, rfl⟩ := mem_escape hx
  · exact hkeep x hs hk
  · exact hpercent
  · exact hdigits n hn

end Percent

end MemX.EscapedText
