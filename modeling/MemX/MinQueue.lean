import Mathlib

namespace MemX.MinQueue

/-- A min-priority queue: its elements in nondecreasing order of their rank. -/
structure Queue (α : Type) (rank : α → Int) where
  elems : List α
  sorted : elems.Pairwise (fun a b => rank a ≤ rank b)

variable {α : Type} {rank : α → Int}

def empty : Queue α rank := ⟨[], List.Pairwise.nil⟩

theorem insert_sorted (a : α) (l : List α) (h : l.Pairwise (fun a b => rank a ≤ rank b)) :
    (l.orderedInsert (fun a b => rank a ≤ rank b) a).Pairwise (fun a b => rank a ≤ rank b) := by
  have : Std.Total (fun a b : α => rank a ≤ rank b) := ⟨fun a b => le_total _ _⟩
  have : IsTrans α (fun a b : α => rank a ≤ rank b) := ⟨fun _ _ _ => le_trans⟩
  exact h.orderedInsert a l

def push (a : α) (q : Queue α rank) : Queue α rank :=
  ⟨q.elems.orderedInsert (fun a b => rank a ≤ rank b) a, insert_sorted a q.elems q.sorted⟩

def due (bound : Int) (q : Queue α rank) : List α := q.elems.takeWhile (fun a => rank a ≤ bound)

def rest (bound : Int) (q : Queue α rank) : Queue α rank :=
  ⟨q.elems.dropWhile (fun a => rank a ≤ bound), q.sorted.sublist (List.dropWhile_sublist _)⟩

instance : Membership α (Queue α rank) := ⟨fun q a => a ∈ q.elems⟩

theorem not_mem_empty (a : α) : a ∉ (empty : Queue α rank) := by
  intro h
  cases h

@[simp] theorem mem_push (a b : α) (q : Queue α rank) : b ∈ push a q ↔ b = a ∨ b ∈ q :=
  List.mem_orderedInsert _

theorem mem_due_or_rest (bound : Int) (q : Queue α rank) (a : α) :
    a ∈ q ↔ a ∈ due bound q ∨ a ∈ rest bound q := by
  change a ∈ q.elems ↔ _ ∨ a ∈ q.elems.dropWhile _
  rw [due, ← List.mem_append, List.takeWhile_append_dropWhile]

theorem rank_le_of_mem_due {bound : Int} {q : Queue α rank} {a : α} (h : a ∈ due bound q) :
    rank a ≤ bound := by
  simpa using List.mem_takeWhile_imp h

theorem lt_of_mem_dropWhile {bound : Int} {l : List α} (h : l.Pairwise (fun a b => rank a ≤ rank b)) {a : α}
    (ha : a ∈ l.dropWhile (fun a => rank a ≤ bound)) : bound < rank a := by
  induction l with
  | nil => cases ha
  | cons b l ih =>
    obtain ⟨hb, h⟩ := List.pairwise_cons.mp h
    by_cases hle : rank b ≤ bound
    · rw [List.dropWhile_cons_of_pos (by simpa using hle)] at ha
      exact ih h ha
    · rw [List.dropWhile_cons_of_neg (by simpa using hle)] at ha
      obtain rfl | ha := List.mem_cons.mp ha
      · omega
      · have := hb a ha
        omega

theorem lt_of_mem_rest {bound : Int} {q : Queue α rank} {a : α} (h : a ∈ rest bound q) : bound < rank a :=
  lt_of_mem_dropWhile q.sorted h

theorem mem_due_of_le {bound : Int} {q : Queue α rank} {a : α} (h : a ∈ q) (hle : rank a ≤ bound) :
    a ∈ due bound q :=
  ((mem_due_or_rest bound q a).mp h).resolve_right fun hrest => absurd (lt_of_mem_rest hrest) (by omega)

theorem due_eq_filter (bound : Int) (q : Queue α rank) : due bound q = q.elems.filter (fun a => rank a ≤ bound) := by
  have hsplit := List.takeWhile_append_dropWhile (p := fun a => decide (rank a ≤ bound)) (l := q.elems)
  have hrest : (q.elems.dropWhile fun a => rank a ≤ bound).filter (fun a => rank a ≤ bound) = [] := by
    refine List.filter_eq_nil_iff.mpr fun a ha => ?_
    have hlt := lt_of_mem_rest (q := q) ha
    simpa using hlt
  have hdue : (q.elems.takeWhile fun a => rank a ≤ bound).filter (fun a => rank a ≤ bound) =
      q.elems.takeWhile fun a => rank a ≤ bound :=
    List.filter_eq_self.mpr fun a ha => by simpa using List.mem_takeWhile_imp ha
  conv_rhs => rw [← hsplit, List.filter_append, hdue, hrest, List.append_nil]
  rfl

theorem rest_eq_filter (bound : Int) (q : Queue α rank) :
    (rest bound q).elems = q.elems.filter (fun a => ¬ rank a ≤ bound) := by
  have hsplit := List.takeWhile_append_dropWhile (p := fun a => decide (rank a ≤ bound)) (l := q.elems)
  have hdue : (q.elems.takeWhile fun a => rank a ≤ bound).filter (fun a => ¬ rank a ≤ bound) = [] := by
    refine List.filter_eq_nil_iff.mpr fun a ha => ?_
    simpa using List.mem_takeWhile_imp ha
  have hrest : (q.elems.dropWhile fun a => rank a ≤ bound).filter (fun a => ¬ rank a ≤ bound) =
      q.elems.dropWhile fun a => rank a ≤ bound := by
    refine List.filter_eq_self.mpr fun a ha => ?_
    have hlt := lt_of_mem_rest (q := q) ha
    simpa using hlt
  conv_rhs => rw [← hsplit, List.filter_append, hdue, hrest, List.nil_append]
  rfl

end MemX.MinQueue
