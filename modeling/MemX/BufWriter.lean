import Mathlib.Data.List.Infix
import Mathlib.Logic.Relation
import Mathlib.Tactic.SplitIfs

namespace MemX.BufWriter

variable {α σ : Type}

/-- What one call of a destination's `Write` did: how many elements it took,
whether it reported an error, and what the destination is then. -/
structure Written (σ : Type) where
  count : Nat
  failed : Bool
  next : σ

/-- A destination that keeps the contract of `io.Writer`: what it takes is the
front of what it is given, and it takes less than all only with an error. -/
structure Sink (α σ : Type) where
  write : List α → σ → Written σ
  content : σ → List α
  content_write : ∀ p s, content (write p s).next = content s ++ p.take (write p s).count
  complete : ∀ p s, (write p s).failed = false → p.length ≤ (write p s).count

/-- How much a call takes of its input and whether it fails: all of it, or with
an error at most the `n` first elements. -/
def taken (p : List α) : Option Nat → Nat × Bool
  | none => (p.length, false)
  | some n => (min n p.length, true)

theorem length_le_taken {p : List α} {fault : Option Nat} (h : (taken p fault).2 = false) :
    p.length ≤ (taken p fault).1 := by
  cases fault with
  | none => exact le_rfl
  | some n => cases h

/-- The state of a `bufio.Writer`: the buffered elements, the error that it
keeps once there is one, and the destination. -/
structure Buffered (α σ : Type) where
  buf : List α
  failed : Bool
  out : σ

section Operations

variable (S : Sink α σ) (size : Nat)

def flush (w : Buffered α σ) : Buffered α σ :=
  if w.failed then w
  else if w.buf = [] then w
  else
    let r := S.write w.buf w.out
    if r.failed then ⟨w.buf.drop r.count, true, r.next⟩ else ⟨[], false, r.next⟩

def available (w : Buffered α σ) : Nat := size - w.buf.length

/-- The loop of `Write`: what is left of the input. With `direct`, an input that
does not fit into an empty buffer goes to the destination itself. -/
def writeLoop (direct : Bool) : Nat → List α → Buffered α σ → List α × Buffered α σ
  | 0, p, w => (p, w)
  | fuel + 1, p, w =>
    if available size w < p.length ∧ w.failed = false then
      if w.buf = [] ∧ direct then
        let r := S.write p w.out
        writeLoop direct fuel (p.drop r.count) ⟨[], r.failed, r.next⟩
      else
        let n := available size w
        writeLoop direct fuel (p.drop n) (flush S { w with buf := w.buf ++ p.take n })
    else (p, w)

def write (direct : Bool) (p : List α) (w : Buffered α σ) : Buffered α σ :=
  let (rest, w) := writeLoop S size direct (2 * p.length + 2) p w
  if w.failed then w else { w with buf := w.buf ++ rest.take (available size w) }

def makeRoom (w : Buffered α σ) : Buffered α σ := if available size w = 0 then flush S w else w

def writeByte (c : α) (w : Buffered α σ) : Buffered α σ :=
  if w.failed then w
  else if (makeRoom S size w).failed then makeRoom S size w
  else { makeRoom S size w with buf := (makeRoom S size w).buf ++ [c] }

def andThen (f g : Buffered α σ → Buffered α σ) (w : Buffered α σ) : Buffered α σ :=
  if (f w).failed then f w else g (f w)

end Operations

variable {S : Sink α σ} {size : Nat} {w w' w'' : Buffered α σ} {p q : List α}

def Calls (S : Sink α σ) : σ → σ → Prop := Relation.ReflTransGen fun s s' => ∃ p, s' = (S.write p s).next

theorem Calls.one (p : List α) (s : σ) : Calls S s (S.write p s).next := Relation.ReflTransGen.single ⟨p, rfl⟩

theorem Calls.keeps {P : σ → Prop} (hP : ∀ p s, P s → P (S.write p s).next) {s s' : σ} (h : Calls S s s') (hs : P s) :
    P s' := by
  induction h with
  | refl => exact hs
  | tail _ hstep ih =>
    obtain ⟨p, rfl⟩ := hstep
    exact hP p _ ih

theorem Calls.grows {s s' : σ} (h : Calls S s s') : S.content s <+: S.content s' := by
  refine Calls.keeps (P := fun s' => S.content s <+: S.content s') (fun p t ht => ?_) h List.prefix_rfl
  rw [S.content_write]
  exact ht.trans (List.prefix_append _ _)

def Fails (S : Sink α σ) (s : σ) : Prop := ∃ p s', Calls S s s' ∧ (S.write p s').failed = true

/-- From `w` to `w'` the elements `p` were written: without an error they are
all in the destination or in the buffer, in order, and with one the destination
has a front of them and gets nothing more. An error is one of the destination. -/
structure Puts (S : Sink α σ) (w : Buffered α σ) (p : List α) (w' : Buffered α σ) : Prop where
  stuck : w.failed = true → w' = w
  stream : w'.failed = false → S.content w'.out ++ w'.buf = S.content w.out ++ w.buf ++ p
  sent : S.content w'.out <+: S.content w.out ++ w.buf ++ p
  calls : Calls S w.out w'.out
  cause : w.failed = false → w'.failed = true → Fails S w.out

theorem Puts.refl (w : Buffered α σ) : Puts S w [] w :=
  ⟨fun _ => rfl, fun _ => (List.append_nil _).symm, by simp, .refl, fun hw hf => absurd hf (by simp [hw])⟩

theorem Puts.of_failed (hw : w.failed = true) (p : List α) : Puts S w p w :=
  ⟨fun _ => rfl, fun h => absurd h (by simp [hw]), by simp [List.append_assoc], .refl, fun h => absurd h (by simp [hw])⟩

theorem Puts.stop (h : Puts S w p w') (hf : w'.failed = true) (q : List α) : Puts S w (p ++ q) w' where
  stuck := h.stuck
  stream hok := absurd hok (by simp [hf])
  sent := h.sent.trans (by simp [List.append_assoc])
  calls := h.calls
  cause := h.cause

theorem Puts.ok_before (h : Puts S w p w') (hok : w'.failed = false) : w.failed = false := by
  by_contra hw
  rw [h.stuck (by simpa using hw)] at hok
  exact hw hok

theorem Puts.trans (h : Puts S w p w') (h' : Puts S w' q w'') : Puts S w (p ++ q) w'' := by
  cases hf : w'.failed with
  | true => exact h'.stuck hf ▸ h.stop hf q
  | false =>
    have hs := h.stream hf
    have hw := h.ok_before hf
    refine ⟨fun ht => absurd ht (by simp [hw]), fun hok => ?_, ?_, h.calls.trans h'.calls, fun _ hf' => ?_⟩
    · rw [h'.stream hok, hs, List.append_assoc]
    · rw [← List.append_assoc, ← hs]
      exact h'.sent
    · obtain ⟨p, s, hs, hp⟩ := h'.cause hf hf'
      exact ⟨p, s, h.calls.trans hs, hp⟩

theorem puts_sink (hbuf : w.buf = []) (hw : w.failed = false) (p : List α) :
    Puts S w (p.take (S.write p w.out).count) ⟨[], (S.write p w.out).failed, (S.write p w.out).next⟩ := by
  refine ⟨fun h => absurd h (by simp [hw]), fun _ => ?_, ?_, .one p w.out, fun _ hf => ⟨p, w.out, .refl, hf⟩⟩
  · simp [hbuf, S.content_write]
  · simp [hbuf, S.content_write]

theorem puts_flush (w : Buffered α σ) : Puts S w [] (flush S w) := by
  unfold flush
  split_ifs with hw hb
  · exact .refl w
  · exact .refl w
  · have hok : w.failed = false := by simpa using hw
    dsimp only
    split_ifs with hf
    · refine ⟨fun h => absurd h (by simp [hok]), fun h => absurd h (by simp), ?_, .one w.buf w.out,
        fun _ _ => ⟨w.buf, w.out, .refl, hf⟩⟩
      rw [S.content_write, List.append_nil]
      exact List.prefix_append_right_inj _ |>.mpr (List.take_prefix _ _)
    · have hall := S.complete w.buf w.out (by simpa using hf)
      refine ⟨fun h => absurd h (by simp [hok]), fun _ => ?_, ?_, .one w.buf w.out, fun _ h => absurd h (by simp)⟩
      · simp [S.content_write, List.take_of_length_le hall]
      · simp [S.content_write, List.take_of_length_le hall]

def Flushes (f : Buffered α σ → Buffered α σ) : Prop := ∀ w, (f w).failed = false → (f w).buf = []

theorem flushes_flush : Flushes (flush S) := by
  intro w h
  unfold flush at h ⊢
  split_ifs at h ⊢ with hw hb
  · exact absurd h (by simp [hw])
  · exact hb
  · dsimp only at h ⊢
    split_ifs at h ⊢
    · rfl

theorem puts_buffer (hw : w.failed = false) (p : List α) : Puts S w p { w with buf := w.buf ++ p } :=
  ⟨fun h => absurd h (by simp [hw]), fun _ => by simp, by simp, .refl, fun _ h => absurd h (by simp [hw])⟩

/-- The loop writes a front of its input, and with enough turns it stops only
where the rest fits or there is an error. -/
theorem writeLoop_spec (direct : Bool) (hsize : 0 < size) (fuel : Nat) (p : List α) (w : Buffered α σ) :
    ∃ d, p = d ++ (writeLoop S size direct fuel p w).1 ∧ Puts S w d (writeLoop S size direct fuel p w).2 ∧
      (2 * p.length + (if w.buf = [] then 0 else 1) < fuel →
        (writeLoop S size direct fuel p w).2.failed = true ∨
          (writeLoop S size direct fuel p w).1.length ≤ available size (writeLoop S size direct fuel p w).2) := by
  induction fuel generalizing p w with
  | zero => exact ⟨[], rfl, .refl w, by omega⟩
  | succ fuel ih =>
    rw [writeLoop]
    by_cases hmore : available size w < p.length ∧ w.failed = false
    on_goal 1 => by_cases hdirect : w.buf = [] ∧ direct
    · rw [if_pos hmore, if_pos hdirect]
      obtain ⟨hlen, hw⟩ := hmore
      dsimp only
      set v : Buffered α σ := ⟨[], (S.write p w.out).failed, (S.write p w.out).next⟩
      have hv : Puts S w (p.take (S.write p w.out).count) v := puts_sink hdirect.1 hw p
      obtain ⟨d, hd, hputs, hend⟩ := ih (p.drop (S.write p w.out).count) v
      refine ⟨p.take (S.write p w.out).count ++ d, ?_, hv.trans hputs, fun hfuel => ?_⟩
      · rw [List.append_assoc, ← hd, List.take_append_drop]
      · cases hf : v.failed with
        | true => exact Or.inl (by rw [hputs.stuck hf, hf])
        | false =>
          have hall := S.complete p w.out hf
          refine hend ?_
          rw [if_pos rfl, List.length_drop]
          omega
    · rw [if_pos hmore, if_neg hdirect]
      obtain ⟨hlen, hw⟩ := hmore
      dsimp only
      set v := flush S { w with buf := w.buf ++ p.take (available size w) }
      have hv : Puts S w (p.take (available size w)) v := by
        simpa using (puts_buffer hw _).trans (puts_flush _)
      obtain ⟨d, hd, hputs, hend⟩ := ih (p.drop (available size w)) v
      refine ⟨p.take (available size w) ++ d, ?_, hv.trans hputs, fun hfuel => ?_⟩
      · rw [List.append_assoc, ← hd, List.take_append_drop]
      · cases hf : v.failed with
        | true => exact Or.inl (by rw [hputs.stuck hf, hf])
        | false =>
          refine hend ?_
          rw [if_pos (flushes_flush _ hf), List.length_drop]
          by_cases hb : w.buf = []
          · have havail : available size w = size := by simp [available, hb]
            rw [if_pos hb] at hfuel
            omega
          · rw [if_neg hb] at hfuel
            omega
    · rw [if_neg hmore]
      refine ⟨[], rfl, .refl w, fun _ => ?_⟩
      by_contra hno
      simp only [not_or, Bool.not_eq_true] at hno
      exact hmore ⟨by omega, hno.1⟩

def Writes (S : Sink α σ) (f : Buffered α σ → Buffered α σ) (p : List α) : Prop := ∀ w, Puts S w p (f w)

theorem writes_write (direct : Bool) (hsize : 0 < size) (p : List α) : Writes S (write S size direct p) p := by
  intro w
  obtain ⟨d, hd, hputs, hend⟩ := writeLoop_spec (S := S) direct hsize (2 * p.length + 2) p w
  simp only [write]
  split_ifs with hf
  · have hall := hputs.stop hf (writeLoop S size direct (2 * p.length + 2) p w).1
    rwa [← hd] at hall
  · have hfit := (hend (by split_ifs <;> omega)).resolve_left hf
    rw [List.take_of_length_le hfit]
    have hall := hputs.trans (puts_buffer (by simpa using hf) (writeLoop S size direct (2 * p.length + 2) p w).1)
    rwa [← hd] at hall

theorem writes_writeByte (c : α) : Writes S (writeByte S size c) [c] := by
  intro w
  have hroom : Puts S w [] (makeRoom S size w) := by
    unfold makeRoom
    split_ifs
    · exact puts_flush w
    · exact .refl w
  unfold writeByte
  split_ifs with hw hf
  · exact .of_failed hw _
  · exact hroom.stop hf [c]
  · exact hroom.trans (puts_buffer (by simpa using hf) [c])

theorem writes_flush : Writes S (flush S) [] := puts_flush

theorem Writes.andThen {f g : Buffered α σ → Buffered α σ} (hf : Writes S f p) (hg : Writes S g q) :
    Writes S (andThen f g) (p ++ q) := by
  intro w
  unfold BufWriter.andThen
  split_ifs with h
  · exact (hf w).stop h q
  · exact (hf w).trans (hg (f w))

theorem Flushes.after {f g : Buffered α σ → Buffered α σ} (hg : Flushes g) : Flushes (andThen f g) := by
  intro w h
  unfold BufWriter.andThen at h ⊢
  split_ifs at h ⊢ with hf
  · exact absurd h (by simp [hf])
  · exact hg (f w) h

end MemX.BufWriter
