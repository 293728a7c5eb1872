import Mathlib

namespace MemX.WildMatch

/-- One item of a pattern: a star, which takes any piece, or a test for one
symbol. -/
inductive Item (τ : Type)
  | star
  | one (t : τ)
deriving DecidableEq

variable {τ α : Type} {accepts : τ → α → Bool}

def Piece (accepts : τ → α → Bool) : Item τ → List α → Prop
  | .star, _ => True
  | .one t, piece => ∃ a, piece = [a] ∧ accepts t a = true

/-- The name can be cut into consecutive pieces, one for each item. -/
def Cut (accepts : τ → α → Bool) (items : List (Item τ)) (name : List α) : Prop :=
  ∃ pieces : List (List α), List.Forall₂ (Piece accepts) items pieces ∧ pieces.flatten = name

theorem cut_nil {name : List α} : Cut accepts [] name ↔ name = [] := by
  constructor
  · rintro ⟨pieces, hp, rfl⟩
    cases hp
    rfl
  · rintro rfl
    exact ⟨[], .nil, rfl⟩

theorem cut_cons {i : Item τ} {items : List (Item τ)} {name : List α} :
    Cut accepts (i :: items) name ↔
      ∃ piece rest, Piece accepts i piece ∧ Cut accepts items rest ∧ piece ++ rest = name := by
  constructor
  · rintro ⟨pieces, hp, rfl⟩
    cases hp with
    | cons hi hp => exact ⟨_, _, hi, ⟨_, hp, rfl⟩, rfl⟩
  · rintro ⟨piece, rest, hi, ⟨pieces, hp, rfl⟩, rfl⟩
    exact ⟨piece :: pieces, .cons hi hp, rfl⟩

theorem cut_star {items : List (Item τ)} {name : List α} :
    Cut accepts (.star :: items) name ↔ ∃ rest, rest <:+ name ∧ Cut accepts items rest := by
  rw [cut_cons]
  constructor
  · rintro ⟨piece, rest, _, hc, rfl⟩
    exact ⟨rest, List.suffix_append piece rest, hc⟩
  · rintro ⟨rest, ⟨piece, rfl⟩, hc⟩
    exact ⟨piece, rest, trivial, hc, rfl⟩

theorem not_cut_one_nil {t : τ} {items : List (Item τ)} : ¬ Cut accepts (.one t :: items) [] := by
  rw [cut_cons]
  rintro ⟨piece, rest, ⟨a, rfl, _⟩, _, h⟩
  cases h

theorem cut_one_cons {t : τ} {items : List (Item τ)} {a : α} {name : List α} :
    Cut accepts (.one t :: items) (a :: name) ↔ accepts t a = true ∧ Cut accepts items name := by
  rw [cut_cons]
  constructor
  · rintro ⟨piece, rest, ⟨b, rfl, hb⟩, hc, h⟩
    cases h
    exact ⟨hb, hc⟩
  · rintro ⟨ha, hc⟩
    exact ⟨[a], name, ⟨a, rfl, ha⟩, hc, rfl⟩

theorem cut_empty {items : List (Item τ)} : Cut accepts items [] ↔ ∀ i ∈ items, i = .star := by
  induction items with
  | nil => simp [cut_nil]
  | cons i items ih =>
    cases i with
    | star => simp [cut_star, ih]
    | one t => simp [not_cut_one_nil]

theorem cut_append {u items : List (Item τ)} (hu : ∀ i ∈ u, i ≠ .star) {name : List α}
    (h : Cut accepts (u ++ items) name) : u.length ≤ name.length ∧ Cut accepts items (name.drop u.length) := by
  induction u generalizing name with
  | nil => exact ⟨Nat.zero_le _, h⟩
  | cons i u ih =>
    obtain ⟨hi, hu'⟩ := List.forall_mem_cons.mp hu
    cases i with
    | star => exact absurd rfl hi
    | one t =>
      cases name with
      | nil => exact absurd h not_cut_one_nil
      | cons a name =>
        obtain ⟨hlen, hc⟩ := ih hu' (cut_one_cons.mp h).2
        exact ⟨Nat.succ_le_succ hlen, hc⟩

/-- The exchange argument: when a second star is reached, a match that starts
over at the first star, further to the right, also gives one that goes on
from here. -/
theorem cut_star_of_restart {u items : List (Item τ)} (hu : ∀ i ∈ u, i ≠ .star) {mark later name : List α}
    (hname : name <:+ mark) (hlen : mark.length = u.length + name.length) (hlater : later <:+ mark)
    (h : Cut accepts (u ++ .star :: items) later) : Cut accepts (.star :: items) name := by
  obtain ⟨hle, hc⟩ := cut_append hu h
  obtain ⟨rest, hrest, hc⟩ := cut_star.mp hc
  refine cut_star.mpr ⟨rest, ?_, hc⟩
  have hshort : rest.length ≤ name.length := by
    have h₁ := hrest.length_le
    have h₂ := hlater.length_le
    rw [List.length_drop] at h₁
    omega
  exact List.suffix_of_suffix_length_le (hrest.trans ((List.drop_suffix _ _).trans hlater)) hname hshort

theorem not_cut_of_short {u items : List (Item τ)} (hu : ∀ i ∈ u, i ≠ .star) {name : List α}
    (hlen : name.length < u.length) : ¬ Cut accepts (u ++ items) name := by
  intro h
  have := (cut_append hu h).1
  omega

end MemX.WildMatch
