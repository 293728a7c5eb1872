import MemX.RespBuffered
import MemX.Utf8Text

namespace MemX.RespInline

open DecimalText BufReader Utf8Runes Utf8Text RespRead RespWrite RespConsume RespRoundTrip RespBuffered

variable {size : Nat} {lim : Limits} {tokens : List Bytes} {line eol : Bytes}

def Blanks (gap : Bytes) : Prop := gap ≠ [] ∧ ∀ b ∈ gap, b = 32 ∨ b = 9

instance (gap : Bytes) : Decidable (Blanks gap) := inferInstanceAs (Decidable (_ ∧ _))

theorem Blanks.blank {gap : Bytes} (h : Blanks gap) : Blank gap := by
  refine ⟨h.1, fun b hb => ?_⟩
  obtain rfl | rfl := h.2 b hb
  · decide
  · decide

theorem Plain.not_mem {word : Bytes} (h : Plain word) {b : UInt8} (hb : b.toNat < 0x80)
    (hs : isSpace b.toNat = true) : b ∉ word := by
  intro hm
  have hr := h.2 _ (runesLoop_ascii_mem word.length word le_rfl hb hm)
  rw [hs] at hr
  cases hr

theorem joined_not_mem (h : Joined Blanks tokens line) (hplain : ∀ w ∈ tokens, Plain w) {b : UInt8}
    (hb : b.toNat < 0x80) (hs : isSpace b.toNat = true) (h32 : b ≠ 32) (h9 : b ≠ 9) : b ∉ line := by
  induction h with
  | nil => simp
  | one item => exact Plain.not_mem (hplain item (by simp)) hb hs
  | @cons item gap hgap next items line more ih =>
    obtain ⟨hitem, hmore⟩ := List.forall_mem_cons.mp hplain
    simp only [List.mem_append, not_or]
    refine ⟨Plain.not_mem hitem hb hs, fun hm => ?_, ih hmore⟩
    exact (hgap.2 b hm).elim h32 h9

theorem joined_head (h : Joined Blanks tokens line) (hplain : ∀ w ∈ tokens, Plain w) :
    line.head? = tokens.head?.bind List.head? := by
  cases h with
  | nil => rfl
  | one item => rfl
  | cons item hgap more =>
    exact head?_append_of_ne_nil (hplain item (by simp)).1 _

/-- The line of an inline command that fits the buffer and the limit. -/
theorem readInline_within {s rest : Bytes} (h : readInline size lim s = .ok (tokens, rest)) :
    tokens ≠ [] ∧ tokens.length ≤ lim.maxArgs ∧ ((tokens.map List.length).sum : Int) ≤ lim.maxInlineLen := by
  rw [readInline] at h
  cases hl : readLine size lim.maxInlineLen (ascii "inline request") s with
  | error e => simp [hl] at h
  | ok r =>
    simp only [hl] at h
    split_ifs at h with hne hmany
    cases h
    have hline : (r.1.length : Int) ≤ lim.maxInlineLen := readLineLoop_max _ _ _ hl
    have htotal := fields_total r.1
    exact ⟨hne, by omega, by omega⟩

theorem readLine_inline {what : Bytes} {max : Int} (hlf : (10 : UInt8) ∉ line) (hcr : (13 : UInt8) ∉ line)
    (hmax : (line.length : Int) ≤ max) (heol : eol = [10] ∨ eol = [13, 10]) (hfit : (line ++ eol).length ≤ size)
    (rest : Bytes) : readLine size max what (line ++ (eol ++ rest)) = .ok (line, rest) := by
  have hin : ∀ l : Bytes, (10 : UInt8) ∉ l → stripEOL (l ++ [10]) = line → l.length < size →
      readLine size max what (l ++ 10 :: rest) = .ok (line, rest) := by
    intro l hl hstrip hlen
    rw [readLine_within (by omega) hl (by rwa [hstrip]) rest, hstrip, if_neg]
    rintro ⟨hfull, hdvd⟩
    rw [← hfull, Int.natCast_dvd_natCast] at hdvd
    have := Nat.eq_zero_of_dvd_of_lt hdvd hlen
    omega
  rw [List.length_append] at hfit
  obtain rfl | rfl := heol
  · exact hin line hlf (stripEOL_of_not_cr fun h => hcr (List.mem_of_getLast? h)) hfit
  · have hsplit : line ++ ([13, 10] ++ rest) = (line ++ [13]) ++ 10 :: rest := by simp
    rw [hsplit]
    exact hin (line ++ [13]) (by simpa using hlf) (stripEOL_crlf line)
      (by simp only [List.length_append, List.length_cons, List.length_nil] at hfit ⊢; omega)

theorem readCommand_inline (hw : Within lim tokens) (hplain : ∀ w ∈ tokens, Plain w)
    (hstar : ∀ name ∈ tokens.head?, name.head? ≠ some 42) (hj : Joined Blanks tokens line)
    (hmax : (line.length : Int) ≤ lim.maxInlineLen) (heol : eol = [10] ∨ eol = [13, 10])
    (hfit : (line ++ eol).length ≤ size) (rest : Bytes) :
    readCommand size lim (line ++ (eol ++ rest)) = .ok (tokens, rest) := by
  obtain ⟨hne, hargs, -⟩ := hw
  obtain ⟨name, more, rfl⟩ := List.exists_cons_of_ne_nil hne
  have hhead : line.head? = name.head? := joined_head hj hplain
  obtain ⟨b, name', hname⟩ := List.exists_cons_of_ne_nil (hplain name (by simp)).1
  have hline : line ≠ [] := by
    rintro rfl
    rw [hname] at hhead
    cases hhead
  have hfirst : (line ++ (eol ++ rest)).head? ≠ some 42 := by
    rw [head?_append_of_ne_nil hline, hhead]
    exact hstar name rfl
  have hread : readLine size lim.maxInlineLen (ascii "inline request") (line ++ (eol ++ rest)) = .ok (line, rest) :=
    readLine_inline (joined_not_mem hj hplain (by decide) (by decide) (by decide) (by decide))
      (joined_not_mem hj hplain (by decide) (by decide) (by decide) (by decide)) hmax heol hfit rest
  have hfields : fields line = name :: more := fields_joined (hj.mono fun _ hg => hg.blank) hplain
  rw [readCommand, if_neg (by simp [hline]), if_neg hfirst, readInline, hread]
  simp only [hfields]
  rw [if_neg hne, if_neg (not_lt.mpr hargs)]

/-- The inline form of a command and its multibulk form are read as the same
tokens and leave the same bytes unread. -/
theorem inline_agrees (hh : 21 ≤ lim.maxHeaderLen) (hb : lim.maxBulkLen < 2 ^ 63) (ha : lim.maxArgs < 2 ^ 63)
    (hw : Within lim tokens) (hplain : ∀ w ∈ tokens, Plain w)
    (hstar : ∀ name ∈ tokens.head?, name.head? ≠ some 42) (hj : Joined Blanks tokens line)
    (hmax : (line.length : Int) ≤ lim.maxInlineLen) (heol : eol = [10] ∨ eol = [13, 10]) {tail : Bytes}
    {rd rd' : Reader UInt8} (hfit : (line ++ eol).length ≤ rd.size) (hs : 0 < rd'.size)
    (hp : rd.pending = line ++ (eol ++ tail)) (hp' : rd'.pending = encodeCommand tokens ++ tail) :
    ∃ rd₁ rd₂, readCommandFrom lim rd = (.ok tokens, rd₁) ∧ readCommandFrom lim rd' = (.ok tokens, rd₂) ∧
      rd₁.pending = tail ∧ rd₂.pending = tail := by
  have hpos : 0 < rd.size := by
    rw [List.length_append] at hfit
    obtain rfl | rfl := heol
    · simp only [List.length_singleton] at hfit
      omega
    · simp only [List.length_cons] at hfit
      omega
  have hinline : readCommand rd.size lim rd.pending = .ok (tokens, tail) := by
    rw [hp]
    exact readCommand_inline hw hplain hstar hj hmax heol hfit tail
  have hmulti : readCommand rd'.size lim rd'.pending = .ok (tokens, tail) := by
    rw [hp']
    exact readCommand_encode hs hh hb ha hw tail
  obtain ⟨rd₁, hr₁, hp₁, -⟩ := (refines_readCommand lim).ok hpos hinline
  obtain ⟨rd₂, hr₂, hp₂, -⟩ := (refines_readCommand lim).ok hs hmulti
  exact ⟨rd₁, rd₂, hr₁, hr₂, hp₁, hp₂⟩

def freshReader (s : Bytes) (hs : s ≠ []) : Reader UInt8 where
  done := []
  unread := []
  spare := List.replicate 32 0
  chunks := [s]
  nonempty := by simpa using hs

theorem getInline_agrees :
    ∃ rd₁ rd₂, readCommandFrom defaultLimits (freshReader (ascii "GET \t k\nxyz") (by decide)) =
        (.ok [ascii "GET", ascii "k"], rd₁) ∧
      readCommandFrom defaultLimits (freshReader (ascii "*2\r\n$3\r\nGET\r\n$1\r\nk\r\nxyz") (by decide)) =
        (.ok [ascii "GET", ascii "k"], rd₂) ∧
      rd₁.pending = ascii "xyz" ∧ rd₂.pending = ascii "xyz" := by
  have hgap : Blanks (ascii " \t ") := by decide +kernel
  have hj : Joined Blanks [ascii "GET", ascii "k"] (ascii "GET" ++ (ascii " \t " ++ ascii "k")) :=
    .cons (ascii "GET") hgap (.one (ascii "k"))
  exact inline_agrees (by decide) (by decide) (by decide) (by decide) (by decide +kernel) (by decide) hj (by decide)
    (.inl rfl) (by decide) (by decide) (by decide) (by decide)

end MemX.RespInline
