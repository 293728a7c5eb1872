import MemX.RespConsume
import MemX.RespWrite

namespace MemX.RespRoundTrip

open DecimalText RespRead RespWrite RespConsume

theorem stripEOL_crlf (line : Bytes) : stripEOL (line ++ [13] ++ [10]) = line := by
  simp [stripEOL]

/-- The limit counts the `\r` of a line when it falls at the end of a full
buffer, hence the room for one byte more. -/
theorem readLine_line {size : Nat} {max : Int} {what line : Bytes} (hs : 0 < size) (hn : (10 : UInt8) ∉ line)
    (hmax : line.length + 1 ≤ max) (rest : Bytes) :
    readLine size max what (line ++ (crlf ++ rest)) = .ok (line, rest) := by
  have hsplit : line ++ (crlf ++ rest) = (line ++ [13]) ++ 10 :: rest := by simp [crlf]
  have hl : (10 : UInt8) ∉ line ++ [13] := by simp [hn]
  rw [hsplit]
  rcases readLine_first hs hl rest with h | ⟨-, hbig⟩
  · rw [h, stripEOL_crlf]
  · simp only [List.length_append, List.length_singleton] at hbig
    omega

theorem formatNat_no_lf (n : Nat) : (10 : UInt8) ∉ formatNat n :=
  fun h => absurd (formatNat_digits n 10 h) (by decide)

theorem readLine_header {size n : Nat} {max : Int} {what : Bytes} (marker : UInt8) (hm : marker ≠ 10)
    (hs : 0 < size) (hmax : 21 ≤ max) (hn : n < 2 ^ 63) (rest : Bytes) :
    readLine size max what (writeLine marker (formatNat n) ++ rest) = .ok (marker :: formatNat n, rest) := by
  have hl := formatNat_length (by omega : 0 < 19) (by omega : n < 10 ^ 19)
  have h : readLine size max what ((marker :: formatNat n) ++ (crlf ++ rest)) = .ok (marker :: formatNat n, rest) :=
    readLine_line hs (by simpa using ⟨hm.symm, formatNat_no_lf n⟩) (by simp only [List.length_cons]; omega) rest
  simpa [writeLine] using h

theorem readPayload_append (b rest : Bytes) : readPayload b.length (b ++ (crlf ++ rest)) = .ok (b, rest) := by
  have hlen : (b ++ (crlf ++ rest)).length ≥ b.length + 2 := by simp [crlf]
  have htake : (b ++ (crlf ++ rest)).take (b.length + 2) = b ++ crlf := by simp [crlf, List.take_append]
  have hdrop : (b ++ (crlf ++ rest)).drop (b.length + 2) = rest := by simp [crlf, List.drop_append]
  simp only [readPayload, readFull, if_pos hlen, htake, hdrop]
  simp [crlf]

/-- What a command of the log must satisfy to be read back under `lim`. -/
def Within (lim : Limits) (args : List Bytes) : Prop :=
  args ≠ [] ∧ args.length ≤ lim.maxArgs ∧ ∀ a ∈ args, (a.length : Int) ≤ lim.maxBulkLen

instance (lim : Limits) (args : List Bytes) : Decidable (Within lim args) :=
  inferInstanceAs (Decidable (_ ∧ _))

section Codec

variable {size : Nat} {lim : Limits}

theorem readBulk_bulk (hs : 0 < size) (hh : 21 ≤ lim.maxHeaderLen) (hb : lim.maxBulkLen < 2 ^ 63)
    {a : Bytes} (ha : (a.length : Int) ≤ lim.maxBulkLen) (rest : Bytes) :
    readBulk size lim (bulk a ++ rest) = .ok (a, rest) := by
  have hsplit : bulk a ++ rest = writeLine 36 (formatNat a.length) ++ (a ++ (crlf ++ rest)) := by
    simp [bulk]
  have hp : parseInt (formatNat a.length) = some (a.length : Int) := parseInt_formatNat (by omega)
  have hlen : bulkLength lim (formatNat a.length) = some a.length := by
    rw [bulkLength, hp]
    simp only
    rw [if_neg (by omega)]
    rfl
  rw [hsplit, readBulk, readLine_header 36 (by decide) hs hh (by omega)]
  simp only [List.head?_cons, ↓reduceIte, List.drop_one, List.tail_cons, hlen]
  exact readPayload_append a rest

theorem readBulks_flatMap (hs : 0 < size) (hh : 21 ≤ lim.maxHeaderLen) (hb : lim.maxBulkLen < 2 ^ 63)
    (args : List Bytes) (ha : ∀ a ∈ args, (a.length : Int) ≤ lim.maxBulkLen) (rest : Bytes) :
    readBulks size lim args.length (args.flatMap bulk ++ rest) = .ok (args, rest) := by
  induction args with
  | nil => rfl
  | cons a args ih =>
    have h := readBulk_bulk hs hh hb (ha a (by simp)) (args.flatMap bulk ++ rest)
    rw [List.flatMap_cons, List.append_assoc, List.length_cons, readBulks, h]
    simp only
    rw [ih (fun a hm => ha a (by simp [hm]))]

/-- A command that the log writes is read back whole, with the bytes after it
left unread. -/
theorem readCommand_encode (hs : 0 < size) (hh : 21 ≤ lim.maxHeaderLen) (hb : lim.maxBulkLen < 2 ^ 63)
    (hn : lim.maxArgs < 2 ^ 63) {args : List Bytes} (h : Within lim args) (rest : Bytes) :
    readCommand size lim (encodeCommand args ++ rest) = .ok (args, rest) := by
  obtain ⟨hne, hlen, ha⟩ := h
  have hpos : 0 < args.length := List.length_pos_iff.mpr hne
  have hline : readLine size lim.maxHeaderLen (ascii "header line")
      (writeLine 42 (formatNat args.length) ++ (args.flatMap bulk ++ rest)) =
        .ok (42 :: formatNat args.length, args.flatMap bulk ++ rest) :=
    readLine_header 42 (by decide) hs hh (by omega) (args.flatMap bulk ++ rest)
  have hp : parseInt (formatNat args.length) = some (args.length : Int) := parseInt_formatNat (by omega)
  have hhead : (encodeCommand args ++ rest).head? = some 42 := rfl
  have hnil : encodeCommand args ++ rest ≠ [] := by
    intro he
    rw [he] at hhead
    cases hhead
  rw [readCommand, if_neg hnil, if_pos hhead, readMultibulk, encodeCommand, List.append_assoc, arrayLen, hline]
  simp only [List.drop_one, List.tail_cons, hp]
  rw [if_neg (by omega)]
  exact readBulks_flatMap hs hh hb args ha rest

theorem readPayload_length {n : Nat} {s a rest : Bytes} (h : readPayload n s = .ok (a, rest)) : a.length = n := by
  unfold readPayload at h
  cases hr : readFull (n + 2) s with
  | error e => simp [hr] at h
  | ok r =>
    obtain ⟨buf, rest'⟩ := r
    simp only [hr] at h
    split at h
    · rename_i hcrlf
      cases h
      have hlen : (buf.drop n).length = 2 := by rw [hcrlf]; rfl
      rw [List.length_drop] at hlen
      rw [List.length_take]
      omega
    · cases h

theorem bulkLength_le {s : Bytes} {n : Nat} (h : bulkLength lim s = some n) : (n : Int) ≤ lim.maxBulkLen := by
  unfold bulkLength at h
  cases hp : parseInt s with
  | none => simp [hp] at h
  | some v =>
    simp only [hp, Option.ite_none_left_eq_some, Option.some.injEq] at h
    omega

theorem readBulk_length {s a rest : Bytes} (h : readBulk size lim s = .ok (a, rest)) :
    (a.length : Int) ≤ lim.maxBulkLen := by
  unfold readBulk at h
  cases hl : readLine size lim.maxHeaderLen (ascii "header line") s with
  | error e => simp [hl] at h
  | ok r =>
    simp only [hl] at h
    split at h
    · cases hb : bulkLength lim (r.1.drop 1) with
      | none =>
        rw [hb] at h
        cases h
      | some n =>
        simp only [hb] at h
        rw [readPayload_length h]
        exact bulkLength_le hb
    · cases h

theorem readBulks_within (n : Nat) {s : Bytes} {args : List Bytes} {rest : Bytes}
    (h : readBulks size lim n s = .ok (args, rest)) :
    args.length = n ∧ ∀ a ∈ args, (a.length : Int) ≤ lim.maxBulkLen := by
  induction n generalizing s args with
  | zero =>
    cases h
    exact ⟨rfl, by simp⟩
  | succ n ih =>
    unfold readBulks at h
    cases hb : readBulk size lim s with
    | error e => simp [hb] at h
    | ok r =>
      simp only [hb] at h
      cases hbs : readBulks size lim n r.2 with
      | error e => simp [hbs] at h
      | ok rs =>
        simp only [hbs] at h
        cases h
        obtain ⟨hlen, hall⟩ := ih hbs
        exact ⟨by simp [hlen], List.forall_mem_cons.mpr ⟨readBulk_length hb, hall⟩⟩

theorem readMultibulk_within {s : Bytes} {args : List Bytes} {rest : Bytes}
    (h : readMultibulk size lim s = .ok (args, rest)) : Within lim args := by
  unfold readMultibulk at h
  cases hl : readLine size lim.maxHeaderLen (ascii "header line") s with
  | error e => simp [hl] at h
  | ok r =>
    simp only [hl] at h
    cases hp : parseInt (r.1.drop 1) with
    | none =>
      rw [hp] at h
      cases h
    | some n =>
      simp only [hp] at h
      split at h
      · cases h
      · obtain ⟨hlen, hall⟩ := readBulks_within n.toNat h
        refine ⟨?_, by omega, hall⟩
        rintro rfl
        simp only [List.length_nil] at hlen
        omega

end Codec

end MemX.RespRoundTrip
