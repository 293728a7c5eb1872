import Mathlib.Data.List.DropRight
import MemX.Utf8Text

namespace MemX.LineScanner

open DecimalText Utf8Runes Utf8Text

def dropCR (line : Bytes) : Bytes := if line.getLast? = some 13 then line.dropLast else line

/-- The lines of an input, and whether a line that is too long ended the scan. -/
structure Scan where
  lines : List Bytes
  tooLong : Bool

/-- `bufio.ScanLines` with what has been read of the current line; a line and
its end have to fit a buffer of `max` bytes. -/
def scanLoop (max : Nat) : Bytes → Bytes → Scan
  | line, [] => if line = [] then ⟨[], false⟩ else if line.length < max then ⟨[dropCR line], false⟩ else ⟨[], true⟩
  | line, b :: s =>
    if b = 10 then
      if line.length < max then { scanLoop max [] s with lines := dropCR line :: (scanLoop max [] s).lines }
      else ⟨[], true⟩
    else scanLoop max (line ++ [b]) s

def scanLines (max : Nat) (input : Bytes) : Scan := scanLoop max [] input

variable {max : Nat}

theorem scanLoop_line {line : Bytes} (hn : (10 : UInt8) ∉ line) (read : Bytes) (hlen : (read ++ line).length < max)
    (rest : Bytes) :
    scanLoop max read (line ++ 10 :: rest) =
      { scanLines max rest with lines := dropCR (read ++ line) :: (scanLines max rest).lines } := by
  induction line generalizing read with
  | nil =>
    rw [List.append_nil] at hlen ⊢
    rw [List.nil_append, scanLoop, if_pos rfl, if_pos hlen, scanLines]
  | cons b line ih =>
    obtain ⟨hb, hline⟩ := not_or.mp (mt List.mem_cons.mpr hn)
    rw [List.append_cons] at hlen
    have htail := ih hline (read ++ [b]) hlen
    rw [List.append_assoc, List.singleton_append] at htail
    rw [List.cons_append, scanLoop, if_neg (Ne.symm hb), htail]

theorem scanLines_written {lines : List Bytes} (h : ∀ line ∈ lines, (10 : UInt8) ∉ line ∧ line.length < max) :
    scanLines max (lines.flatMap (· ++ [10])) = ⟨lines.map dropCR, false⟩ := by
  induction lines with
  | nil => rfl
  | cons line lines ih =>
    obtain ⟨⟨hn, hlen⟩, hlines⟩ := List.forall_mem_cons.mp h
    rw [List.flatMap_cons, List.append_assoc, List.singleton_append, scanLines, scanLoop_line hn [] hlen, ih hlines]
    rfl

def trimSpace (s : Bytes) : Bytes :=
  (((runes s).dropWhile (isSpace ·.1)).rdropWhile (isSpace ·.1)).flatMap (·.2)

/-- Runes that neither start nor end with white space. -/
structure Firm (rs : List Nat) : Prop where
  ne_nil : rs ≠ []
  head : isSpace (rs.head ne_nil) = false
  last : isSpace (rs.getLast ne_nil) = false

theorem Firm.append {rs rs' : List Nat} (h : Firm rs) (ws : List Nat) (h' : Firm rs') : Firm (rs ++ (ws ++ rs')) where
  ne_nil := by simp [h.ne_nil]
  head := by
    rw [List.head_append_of_ne_nil h.ne_nil]
    exact h.head
  last := by
    rw [List.getLast_append_of_ne_nil _ (by simp [h'.ne_nil]), List.getLast_append_of_ne_nil _ h'.ne_nil]
    exact h'.last

theorem isSpace_written {r : Nat} (h : isSpace r = false) : isSpace (written r) = false := by
  unfold written
  split_ifs
  · exact h
  · rfl

theorem trimSpace_firm {rs : List Nat} (h : Firm rs) : trimSpace (rs.flatMap encodeRune) = rs.flatMap encodeRune := by
  have hrunes := runes_encode rs []
  rw [List.append_nil] at hrunes
  have hnil : runes [] = [] := rfl
  rw [trimSpace, hrunes, hnil, List.append_nil, List.dropWhile_eq_self_iff.mpr, List.rdropWhile_eq_self_iff.mpr,
    List.flatMap_map]
  · intro hne
    rw [List.getLast_map]
    simpa using isSpace_written h.last
  · intro hlen
    rw [List.getElem_map, ← List.head_eq_getElem]
    simpa using isSpace_written h.head

theorem dropCR_firm {rs : List Nat} (h : Firm rs) : dropCR (rs.flatMap encodeRune) = rs.flatMap encodeRune := by
  refine if_neg fun hlast => ?_
  rw [← List.dropLast_append_getLast h.ne_nil, List.flatMap_append, List.flatMap_singleton,
    List.getLast?_append_of_ne_nil _ (encodeRune_ne_nil _)] at hlast
  obtain ⟨hlow, hbyte⟩ := encodeRune_low (List.mem_of_getLast? hlast) (by decide)
  have hcr : rs.getLast h.ne_nil = 13 := by
    rw [← toNat_byte (by omega : rs.getLast h.ne_nil < 256), ← hbyte]
    rfl
  have hspace := h.last
  rw [hcr] at hspace
  cases hspace

end MemX.LineScanner
