import MemX.Utf8Text

namespace MemX.CliTokenize

open DecimalText Utf8Runes Utf8Text

/-- What the loop of `Tokenize` keeps: the tokens so far, the current one, and
its two flags. -/
structure Lexer where
  tokens : List Bytes
  cur : Bytes
  inQuote : Bool
  escape : Bool
deriving DecidableEq

namespace Lexer

def start : Lexer := ⟨[], [], false, false⟩

def writeRune (r : Nat) (st : Lexer) : Lexer := { st with cur := st.cur ++ encodeRune r }

def emit (st : Lexer) : Lexer := if st.cur = [] then st else { st with tokens := st.tokens ++ [st.cur], cur := [] }

def next (st : Lexer) (r : Nat) : Lexer :=
  if st.escape then { st.writeRune r with escape := false }
  else if r = 92 then { st with escape := true }
  else if r = 34 then { st with inQuote := !st.inQuote }
  else if !st.inQuote && isSpace r then st.emit
  else st.writeRune r

def feed (st : Lexer) (rs : List Nat) : Lexer := rs.foldl next st

def read (st : Lexer) (line : Bytes) : Lexer := st.feed ((runes line).map (·.1))

end Lexer

/-- Split a line into tokens; double quotes and backslashes protect spaces. -/
def tokenize (line : Bytes) : List Bytes := ((Lexer.start.read line).emit).tokens

def escapeByte (b : UInt8) : Bytes := if b = 92 ∨ b = 34 then [92, b] else [b]

/-- A string between double quotes, with a backslash before every backslash
and double quote. -/
def quote (s : Bytes) : Bytes := 34 :: (s.flatMap escapeByte ++ [34])

def White (gap : Bytes) : Prop := ∃ ws : List Nat, ws ≠ [] ∧ (∀ r ∈ ws, isSpace r = true) ∧ gap = ws.flatMap encodeRune

def Valid (s : Bytes) : Prop := ∃ rs : List Nat, (∀ r ∈ rs, Scalar r) ∧ s = rs.flatMap encodeRune

def escapeRune (r : Nat) : List Nat := if r = 92 ∨ r = 34 then [92, r] else [r]

theorem escape_encodeRune (r : Nat) : (encodeRune r).flatMap escapeByte = (escapeRune r).flatMap encodeRune := by
  unfold escapeRune
  split_ifs with h
  · obtain rfl | rfl := h
    · decide
    · decide
  · have hplain : ∀ b ∈ encodeRune r, escapeByte b = [b] := by
      intro b hb
      refine if_neg fun hspecial => h ?_
      have hlow : b.toNat < 0x80 := by obtain rfl | rfl := hspecial <;> decide
      obtain ⟨hr, rfl⟩ := encodeRune_low hb hlow
      have hnat := toNat_byte (by omega : r < 256)
      obtain hb | hb := hspecial <;> rw [hb] at hnat
      · exact .inl hnat.symm
      · exact .inr hnat.symm
    rw [List.flatMap_congr hplain, List.flatMap_singleton', List.flatMap_singleton]

theorem quote_eq (rs : List Nat) :
    quote (rs.flatMap encodeRune) = (34 :: (rs.flatMap escapeRune ++ [34])).flatMap encodeRune := by
  have hbody : (rs.flatMap encodeRune).flatMap escapeByte = (rs.flatMap escapeRune).flatMap encodeRune := by
    rw [List.flatMap_assoc, List.flatMap_assoc, List.flatMap_congr fun r _ => escape_encodeRune r]
  rw [quote, hbody, List.flatMap_cons, List.flatMap_append]
  rfl

namespace Lexer

theorem feed_append (st : Lexer) (rs rs' : List Nat) : st.feed (rs ++ rs') = (st.feed rs).feed rs' :=
  List.foldl_append

theorem read_encode {rs : List Nat} (h : ∀ r ∈ rs, Scalar r) (st : Lexer) (line : Bytes) :
    st.read (rs.flatMap encodeRune ++ line) = (st.feed rs).read line := by
  have hmap : (rs.map fun r => (written r, encodeRune r)).map (·.1) = rs := by
    rw [List.map_map]
    exact (List.map_congr_left fun r hr => if_pos (h r hr)).trans (List.map_id rs)
  rw [read, runes_encode, List.map_append, hmap, feed_append]
  rfl

variable (tokens : List Bytes) (cur : Bytes)

theorem feed_escape (rs : List Nat) : feed ⟨tokens, cur, true, false⟩ (rs.flatMap escapeRune) =
    ⟨tokens, cur ++ rs.flatMap encodeRune, true, false⟩ := by
  induction rs generalizing cur with
  | nil => simp [feed]
  | cons r rs ih =>
    have hrune : feed ⟨tokens, cur, true, false⟩ (escapeRune r) = ⟨tokens, cur ++ encodeRune r, true, false⟩ := by
      unfold escapeRune
      split_ifs with h
      · simp [feed, next, writeRune]
      · obtain ⟨h92, h34⟩ := not_or.mp h
        simp [feed, next, writeRune, h92, h34]
    rw [List.flatMap_cons, feed_append, hrune, ih, List.flatMap_cons, List.append_assoc]

theorem feed_quote (rs : List Nat) : feed ⟨tokens, cur, false, false⟩ (34 :: (rs.flatMap escapeRune ++ [34])) =
    ⟨tokens, cur ++ rs.flatMap encodeRune, false, false⟩ := by
  change feed ⟨tokens, cur, true, false⟩ (rs.flatMap escapeRune ++ [34]) = _
  rw [feed_append, feed_escape]
  rfl

theorem next_space {r : Nat} (h : isSpace r = true) : next ⟨tokens, cur, false, false⟩ r =
    emit ⟨tokens, cur, false, false⟩ := by
  have h92 : r ≠ 92 := by
    rintro rfl
    cases h
  have h34 : r ≠ 34 := by
    rintro rfl
    cases h
  simp [next, h92, h34, h]

theorem emit_eq : emit ⟨tokens, cur, false, false⟩ = ⟨tokens ++ [cur].filter (· ≠ []), [], false, false⟩ := by
  unfold emit
  by_cases h : cur = [] <;> simp [h]

theorem feed_white {ws : List Nat} (hne : ws ≠ []) (h : ∀ r ∈ ws, isSpace r = true) :
    feed ⟨tokens, cur, false, false⟩ ws = ⟨tokens ++ [cur].filter (· ≠ []), [], false, false⟩ := by
  have hskip : ∀ tokens (ws : List Nat), (∀ r ∈ ws, isSpace r = true) →
      feed ⟨tokens, [], false, false⟩ ws = ⟨tokens, [], false, false⟩ := by
    intro tokens ws h
    induction ws with
    | nil => rfl
    | cons r ws ih =>
      obtain ⟨hr, hws⟩ := List.forall_mem_cons.mp h
      change feed (next _ r) ws = _
      rw [next_space tokens [] hr]
      exact ih hws
  obtain ⟨r, ws, rfl⟩ := List.exists_cons_of_ne_nil hne
  obtain ⟨hr, hws⟩ := List.forall_mem_cons.mp h
  change feed (next _ r) ws = _
  rw [next_space tokens cur hr, emit_eq]
  exact hskip _ ws hws

theorem read_quote {s : Bytes} (hs : Valid s) (line : Bytes) :
    read ⟨tokens, [], false, false⟩ (quote s ++ line) = read ⟨tokens, s, false, false⟩ line := by
  obtain ⟨rs, hrs, rfl⟩ := hs
  have hscalar : ∀ r ∈ 34 :: (rs.flatMap escapeRune ++ [34]), Scalar r := by
    intro r hr
    simp only [List.mem_cons, List.mem_append, List.mem_flatMap, List.not_mem_nil, or_false] at hr
    obtain rfl | ⟨r', hr', hm⟩ | rfl := hr
    · decide
    · unfold escapeRune at hm
      split_ifs at hm
      · simp only [List.mem_cons, List.not_mem_nil, or_false] at hm
        obtain rfl | rfl := hm
        · decide
        · exact hrs r hr'
      · rw [List.mem_singleton.mp hm]
        exact hrs r' hr'
    · decide
  rw [quote_eq, read_encode hscalar, feed_quote, List.nil_append]

theorem read_white {gap : Bytes} (hg : White gap) (line : Bytes) :
    read ⟨tokens, cur, false, false⟩ (gap ++ line) = read ⟨tokens ++ [cur].filter (· ≠ []), [], false, false⟩ line := by
  obtain ⟨ws, hne, hws, rfl⟩ := hg
  have hscalar : ∀ r ∈ ws, Scalar r := by
    intro r hr
    have hspace := hws r hr
    simp only [isSpace, Bool.or_eq_true, Bool.and_eq_true, decide_eq_true_eq, beq_iff_eq] at hspace
    unfold Scalar
    omega
  rw [read_encode hscalar, feed_white tokens cur hne hws]

theorem read_joined {items : List Bytes} {line : Bytes} (h : Joined White items line) {strs : List Bytes}
    (hitems : items = strs.map quote) (hv : ∀ s ∈ strs, Valid s) :
    (emit (read ⟨tokens, [], false, false⟩ line)).tokens = tokens ++ strs.filter (· ≠ []) := by
  induction h generalizing strs tokens with
  | nil =>
    obtain rfl := List.map_eq_nil_iff.mp hitems.symm
    simp [read, runes, runesLoop, feed, emit]
  | one item =>
    obtain ⟨s, strs, rfl, rfl, hnil⟩ := List.map_eq_cons_iff.mp hitems.symm
    obtain rfl := List.map_eq_nil_iff.mp hnil
    have hread := read_quote tokens (hv s (by simp)) []
    rw [List.append_nil] at hread
    rw [hread]
    exact congrArg Lexer.tokens (emit_eq tokens s)
  | @cons item gap hgap next items line more ih =>
    obtain ⟨s, strs, rfl, rfl, hmore⟩ := List.map_eq_cons_iff.mp hitems.symm
    obtain ⟨hs, hstrs⟩ := List.forall_mem_cons.mp hv
    rw [read_quote tokens hs, read_white tokens s hgap, ih _ hmore.symm hstrs, List.append_assoc, ← List.filter_append]
    rfl

end Lexer

/-- Quoted strings come back as they were if and only if none is empty. -/
theorem quoting_complete_iff {strs : List Bytes} (hv : ∀ s ∈ strs, Valid s) {line : Bytes}
    (hj : Joined White (strs.map quote) line) : tokenize line = strs ↔ [] ∉ strs := by
  have htokens : tokenize line = strs.filter (· ≠ []) := Lexer.read_joined [] hj rfl hv
  rw [htokens, List.filter_eq_self]
  constructor
  · intro h hm
    simpa using h [] hm
  · intro h s hs
    simpa using fun hnil : s = [] => h (hnil ▸ hs)

theorem valid_ascii {s : Bytes} (h : ∀ b ∈ s, b.toNat < 0x80) : Valid s := by
  refine ⟨s.map UInt8.toNat, fun r hr => ?_, ?_⟩
  · obtain ⟨b, hb, rfl⟩ := List.mem_map.mp hr
    have := h b hb
    exact .inl (by omega)
  · have hbyte : ∀ b ∈ s, encodeRune b.toNat = [b] := by
      intro b hb
      rw [encodeRune, if_pos (h b hb)]
      simp [byte]
    rw [List.flatMap_map, List.flatMap_congr hbyte, List.flatMap_singleton']

theorem white_space : White (ascii " ") := ⟨[32], by simp, by decide, by decide⟩

theorem echo_roundtrip :
    tokenize (ascii "\"ECHO\" \"say \\\"hi\\\"\"") = [ascii "ECHO", ascii "say \"hi\""] := by
  have hj : Joined White ([ascii "ECHO", ascii "say \"hi\""].map quote)
      (quote (ascii "ECHO") ++ (ascii " " ++ quote (ascii "say \"hi\""))) := .cons _ white_space (.one _)
  have hline : quote (ascii "ECHO") ++ (ascii " " ++ quote (ascii "say \"hi\"")) =
      ascii "\"ECHO\" \"say \\\"hi\\\"\"" := by decide +kernel
  rw [hline] at hj
  exact (quoting_complete_iff (fun s hs => valid_ascii (by revert s; decide +kernel)) hj).mpr (by decide +kernel)

/-- An empty string between quotes is no token. -/
theorem emptyString_dropped : Joined White ([ascii "ECHO", []].map quote) (ascii "\"ECHO\" \"\"") ∧
    (∀ s ∈ [ascii "ECHO", []], Valid s) ∧ tokenize (ascii "\"ECHO\" \"\"") = [ascii "ECHO"] := by
  have hj : Joined White ([ascii "ECHO", []].map quote) (quote (ascii "ECHO") ++ (ascii " " ++ quote [])) :=
    .cons _ white_space (.one _)
  have hline : quote (ascii "ECHO") ++ (ascii " " ++ quote []) = ascii "\"ECHO\" \"\"" := by decide +kernel
  rw [hline] at hj
  exact ⟨hj, fun s hs => valid_ascii (by revert s; decide +kernel), by decide +kernel⟩

end MemX.CliTokenize
