import MemX.RespRoundTrip

namespace MemX.RespGrammar

open DecimalText RespRead RespWrite RespConsume RespRoundTrip

def decimal (d : Bytes) : Nat := Nat.ofDigits 10 (d.map fun b => b.toNat - 48).reverse

/-- A number of the specification: decimal digits only, with leading zeros. -/
def Digits (d : Bytes) (x : Nat) : Prop := d ≠ [] ∧ (∀ b ∈ d, isDigit b = true) ∧ decimal d = x

/-- A number as the integer parser takes it: digits behind a `+`, or zeros
behind a `-`, as well. -/
def Signed (d : Bytes) (x : Nat) : Prop :=
  Digits d x ∨ ∃ t, Digits t x ∧ (d = 43 :: t ∨ d = 45 :: t ∧ x = 0)

theorem digitsValue_decimal {d : Bytes} (h : ∀ b ∈ d, isDigit b = true) : digitsValue d = some (decimal d) := by
  induction d using List.reverseRecOn with
  | nil => rfl
  | append_singleton d b ih =>
    rw [digitsValue_concat, ih fun c hc => h c (List.mem_append_left _ hc), Option.bind_some,
      if_pos (h b (by simp))]
    simp [decimal, Nat.ofDigits_cons]
    omega

theorem isDigit_of_digitsValue {d : Bytes} {x : Nat} (h : digitsValue d = some x) : ∀ b ∈ d, isDigit b = true := by
  induction d using List.reverseRecOn generalizing x with
  | nil => simp
  | append_singleton d b ih =>
    rw [digitsValue_concat] at h
    obtain ⟨v, hv, hb⟩ := Option.bind_eq_some_iff.mp h
    have hdigit : isDigit b = true := (Option.ite_none_right_eq_some.mp hb).1
    intro c hc
    rcases List.mem_append.mp hc with hc | hc
    · exact ih hv c hc
    · rw [List.mem_singleton.mp hc, hdigit]

theorem parseUnsigned_iff {d : Bytes} {x : Nat} : parseUnsigned d = some x ↔ Digits d x := by
  unfold parseUnsigned
  constructor
  · intro h
    obtain ⟨hne, h⟩ := Option.ite_none_left_eq_some.mp h
    have hall := isDigit_of_digitsValue h
    rw [digitsValue_decimal hall] at h
    exact ⟨hne, hall, Option.some.inj h⟩
  · rintro ⟨hne, hall, rfl⟩
    rw [if_neg hne, digitsValue_decimal hall]

theorem Digits.bytes {d : Bytes} {x : Nat} (h : Digits d x) : ∀ b ∈ d, b ≠ 10 ∧ b ≠ 13 ∧ b ≠ 43 ∧ b ≠ 45 := by
  intro b hb
  have hd := h.2.1 b hb
  refine ⟨?_, ?_, ?_, ?_⟩ <;>
  · rintro rfl
    exact absurd hd (by decide)

theorem not_digits_sign {b : UInt8} (hb : b = 43 ∨ b = 45) {t : Bytes} {x : Nat} : ¬ Digits (b :: t) x := by
  intro h
  have hne := (h.bytes b List.mem_cons_self).2.2
  exact hb.elim hne.1 hne.2

theorem bind_ite_some {o : Option Nat} {p : Nat → Prop} [DecidablePred p] {f : Nat → Int} {n : Int} :
    (o.bind fun v => if p v then some (f v) else none) = some n ↔ ∃ v, o = some v ∧ p v ∧ f v = n := by
  simp [Option.bind_eq_some_iff]

theorem parseInt_iff {d : Bytes} {x : Nat} (hx : x < 2 ^ 63) : parseInt d = some (x : Int) ↔ Signed d x := by
  unfold parseInt
  split
  · rename_i t
    rw [bind_ite_some, Signed, or_iff_right (not_digits_sign (Or.inl rfl))]
    constructor
    · rintro ⟨v, hv, -, hvx⟩
      exact ⟨t, Int.ofNat.inj hvx ▸ parseUnsigned_iff.mp hv, Or.inl rfl⟩
    · rintro ⟨t', h, heq | ⟨heq, -⟩⟩
      · exact ⟨x, parseUnsigned_iff.mpr ((List.cons.inj heq).2 ▸ h), hx, rfl⟩
      · exact absurd (List.cons.inj heq).1 (by decide)
  · rename_i t
    rw [bind_ite_some, Signed, or_iff_right (not_digits_sign (Or.inr rfl))]
    constructor
    · rintro ⟨v, hv, -, hvx⟩
      -- the value of a text behind a minus sign is natural only if it is zero
      obtain ⟨rfl, rfl⟩ : v = 0 ∧ x = 0 := by omega
      exact ⟨t, parseUnsigned_iff.mp hv, Or.inr ⟨rfl, rfl⟩⟩
    · rintro ⟨t', h, heq | ⟨heq, rfl⟩⟩
      · exact absurd (List.cons.inj heq).1 (by decide)
      · exact ⟨0, parseUnsigned_iff.mpr ((List.cons.inj heq).2 ▸ h), by omega, rfl⟩
  · rename_i hplus hminus
    rw [bind_ite_some, Signed]
    constructor
    · rintro ⟨v, hv, -, hvx⟩
      exact Or.inl (Int.ofNat.inj hvx ▸ parseUnsigned_iff.mp hv)
    · rintro (h | ⟨t, h, rfl | ⟨rfl, -⟩⟩)
      · exact ⟨x, parseUnsigned_iff.mpr h, hx, rfl⟩
      · exact absurd rfl (hplus t)
      · exact absurd rfl (hminus t)

theorem Signed.bytes {d : Bytes} {x : Nat} (h : Signed d x) : ∀ b ∈ d, b ≠ 10 ∧ b ≠ 13 := by
  intro b hb
  rcases h with h | ⟨t, h, rfl | ⟨rfl, -⟩⟩
  · exact ⟨(h.bytes b hb).1, (h.bytes b hb).2.1⟩
  all_goals
    rcases List.mem_cons.mp hb with rfl | hb
    · decide
    · exact ⟨(h.bytes b hb).1, (h.bytes b hb).2.1⟩

/-- A header line as it stands in the stream: its number, and whether there is
a `\r` at its end. -/
@[ext] structure Header where
  number : Bytes
  cr : Bool
deriving DecidableEq

def Header.line (h : Header) (marker : UInt8) : Bytes := marker :: (h.number ++ if h.cr then [13] else [])

/-- The number fills the limit, and the `\r` behind it ends a full buffer. -/
def Header.Cut (size : Nat) (max : Int) (h : Header) : Prop :=
  h.cr = true ∧ (h.number.length + 1 : Int) = max ∧ (size : Int) ∣ max + 1

def Header.HasSign (h : Header) : Prop := h.number.head? = some 43 ∨ h.number.head? = some 45

instance (size : Nat) (max : Int) (h : Header) : Decidable (h.Cut size max) := inferInstanceAs (Decidable (_ ∧ _))

instance (h : Header) : Decidable h.HasSign := inferInstanceAs (Decidable (_ ∨ _))

structure Arg where
  header : Header
  value : Bytes

def Arg.wire (a : Arg) : Bytes := a.header.line 36 ++ 10 :: (a.value ++ crlf)

structure Spelling where
  header : Header
  args : List Arg

def Spelling.wire (c : Spelling) : Bytes := c.header.line 42 ++ 10 :: c.args.flatMap Arg.wire

def Spelling.headers (c : Spelling) : List Header := c.header :: c.args.map Arg.header

def Spelling.values (c : Spelling) : List Bytes := c.args.map Arg.value

/-- The grammar of a command under the limits, for a way to write numbers. -/
structure Spelling.Obeys (Number : Bytes → Nat → Prop) (lim : Limits) (c : Spelling) : Prop where
  count : Number c.header.number c.args.length
  nonempty : 1 ≤ c.args.length
  few : (c.args.length : Int) ≤ lim.maxArgs
  sizes : ∀ a ∈ c.args, Number a.header.number a.value.length
  short : ∀ a ∈ c.args, (a.value.length : Int) ≤ lim.maxBulkLen
  fits : ∀ h ∈ c.headers, (h.number.length + 1 : Int) ≤ lim.maxHeaderLen

section Reading

variable {size : Nat} {lim : Limits}

theorem line_length (h : Header) (marker : UInt8) :
    (h.line marker).length = h.number.length + 1 + if h.cr then 1 else 0 := by
  cases hcr : h.cr <;> simp [Header.line, hcr]

theorem stripEOL_line {h : Header} {marker : UInt8} (hm : marker ≠ 13) (hn : ∀ b ∈ h.number, b ≠ 10 ∧ b ≠ 13) :
    stripEOL (h.line marker ++ [10]) = marker :: h.number := by
  cases hcr : h.cr with
  | true =>
    have hline : h.line marker = (marker :: h.number) ++ [13] := by simp [Header.line, hcr]
    rw [hline, stripEOL_crlf]
  | false =>
    have hline : h.line marker = marker :: h.number := by simp [Header.line, hcr]
    have hlast : (marker :: h.number).getLast? ≠ some 13 := by
      intro he
      rcases List.mem_cons.mp (List.mem_of_getLast? he) with h13 | h13
      · exact hm h13.symm
      · exact (hn 13 h13).2 rfl
    rw [hline, stripEOL, List.dropLast_concat, if_neg hlast]

theorem line_no_lf {h : Header} {marker : UInt8} (hm : marker ≠ 10) (hn : ∀ b ∈ h.number, b ≠ 10 ∧ b ≠ 13) :
    (10 : UInt8) ∉ h.line marker := by
  have hnum : (10 : UInt8) ∉ h.number := fun hmem => (hn 10 hmem).1 rfl
  cases hcr : h.cr <;> simp [Header.line, hcr, hm.symm, hnum]

theorem cut_iff {h : Header} {max : Int} (marker : UInt8) (hfit : (h.number.length + 1 : Int) ≤ max) :
    ((h.line marker).length : Int) = max + 1 ∧ (size : Int) ∣ max + 1 ↔ h.Cut size max := by
  rw [line_length, Header.Cut, ← and_assoc]
  refine and_congr_left fun _ => ?_
  cases h.cr with
  | true =>
    simp
  | false =>
    simp
    omega

theorem readLine_spelled {max : Int} {what : Bytes} (hs : 0 < size) {h : Header} {marker : UInt8}
    (hm : marker ≠ 10 ∧ marker ≠ 13) (hn : ∀ b ∈ h.number, b ≠ 10 ∧ b ≠ 13)
    (hfit : (h.number.length + 1 : Int) ≤ max) (rest : Bytes) :
    readLine size max what (h.line marker ++ 10 :: rest) =
      if h.Cut size max then .error (.protocol (ascii "too big " ++ what)) else .ok (marker :: h.number, rest) := by
  have hstrip := stripEOL_line hm.2 hn
  have hmax : ((stripEOL (h.line marker ++ [10])).length : Int) ≤ max := by
    rw [hstrip, List.length_cons]
    exact_mod_cast hfit
  rw [readLine_within hs (line_no_lf hm.1 hn) hmax, hstrip]
  simp only [cut_iff marker hfit]

theorem readLine_shape {max : Int} {what : Bytes} (hs : 0 < size) {s line rest : Bytes}
    (h : readLine size max what s = .ok (line, rest)) :
    ∃ cr : Bool, s = (line ++ if cr then [13] else []) ++ 10 :: rest ∧ (line.length : Int) ≤ max := by
  obtain ⟨l, r, rfl, hl⟩ := List.eq_append_cons_of_mem (readLineLoop_ok_mem h)
  rw [readLine, readLineLoop_exact hs _ [] l r hl (by rw [List.length_append]; omega)] at h
  split at h
  · cases h
  · rename_i hbig
    cases h
    have hmax : ((stripEOL (l ++ [10])).length : Int) ≤ max := not_lt.mp fun hlt => hbig (Or.inr hlt)
    rw [List.nil_append]
    simp only [stripEOL, List.dropLast_concat] at hmax ⊢
    split
    · rename_i h13
      rw [if_pos h13] at hmax
      have hlast : l.dropLast ++ [13] = l := List.dropLast_append_getLast? 13 h13
      exact ⟨true, by rw [if_pos rfl, hlast], hmax⟩
    · rename_i h13
      rw [if_neg h13] at hmax
      exact ⟨false, by simp, hmax⟩

def tooBigHeader : ReadErr := .protocol (ascii "too big " ++ ascii "header line")

theorem bulkLength_iff (hb : lim.maxBulkLen < 2 ^ 63) {d : Bytes} {n : Nat} :
    bulkLength lim d = some n ↔ Signed d n ∧ (n : Int) ≤ lim.maxBulkLen := by
  unfold bulkLength
  constructor
  · intro h
    cases hp : parseInt d with
    | none => simp [hp] at h
    | some v =>
      simp only [hp, Option.ite_none_left_eq_some, Option.some.injEq] at h
      have hv : v = (n : Int) := by omega
      have hle : (n : Int) ≤ lim.maxBulkLen := by omega
      exact ⟨(parseInt_iff (by omega)).mp (hv ▸ hp), hle⟩
  · rintro ⟨h, hle⟩
    rw [(parseInt_iff (by omega)).mpr h]
    simp only
    rw [if_neg (by omega)]
    rfl

theorem readBulk_spelled (hs : 0 < size) (hb : lim.maxBulkLen < 2 ^ 63) {a : Arg}
    (hsize : Signed a.header.number a.value.length) (hshort : (a.value.length : Int) ≤ lim.maxBulkLen)
    (hfit : (a.header.number.length + 1 : Int) ≤ lim.maxHeaderLen) (rest : Bytes) :
    readBulk size lim (a.wire ++ rest) =
      if a.header.Cut size lim.maxHeaderLen then .error tooBigHeader else .ok (a.value, rest) := by
  have hsplit : a.wire ++ rest = a.header.line 36 ++ 10 :: (a.value ++ (crlf ++ rest)) := by simp [Arg.wire]
  rw [hsplit, readBulk, readLine_spelled hs (by decide) hsize.bytes hfit]
  by_cases hcut : a.header.Cut size lim.maxHeaderLen
  · rw [if_pos hcut, if_pos hcut]
    rfl
  · rw [if_neg hcut, if_neg hcut]
    simp only [List.head?_cons, ↓reduceIte, List.drop_one, List.tail_cons, (bulkLength_iff hb).mpr ⟨hsize, hshort⟩]
    exact readPayload_append a.value rest

theorem readBulks_spelled (hs : 0 < size) (hb : lim.maxBulkLen < 2 ^ 63) {args : List Arg}
    (hsizes : ∀ a ∈ args, Signed a.header.number a.value.length)
    (hshort : ∀ a ∈ args, (a.value.length : Int) ≤ lim.maxBulkLen)
    (hfits : ∀ a ∈ args, (a.header.number.length + 1 : Int) ≤ lim.maxHeaderLen) (rest : Bytes) :
    readBulks size lim args.length (args.flatMap Arg.wire ++ rest) =
      if ∃ a ∈ args, a.header.Cut size lim.maxHeaderLen then .error tooBigHeader
      else .ok (args.map Arg.value, rest) := by
  induction args with
  | nil => rfl
  | cons a args ih =>
    have hrest := ih (fun x hx => hsizes x (List.mem_cons_of_mem a hx))
      (fun x hx => hshort x (List.mem_cons_of_mem a hx)) fun x hx => hfits x (List.mem_cons_of_mem a hx)
    rw [List.flatMap_cons, List.append_assoc, List.length_cons, readBulks,
      readBulk_spelled hs hb (hsizes a List.mem_cons_self) (hshort a List.mem_cons_self) (hfits a List.mem_cons_self)]
    by_cases hcut : a.header.Cut size lim.maxHeaderLen
    · rw [if_pos hcut, if_pos ⟨a, List.mem_cons_self, hcut⟩]
    · have hcons : (∃ x ∈ a :: args, x.header.Cut size lim.maxHeaderLen) ↔
          ∃ x ∈ args, x.header.Cut size lim.maxHeaderLen := by
        simp [hcut]
      rw [if_neg hcut]
      simp only [hrest, hcons]
      split_ifs <;> rfl

/-- A spelled command is read as its values, whether its numbers have signs or
not, unless the buffer cuts one of its header lines. -/
theorem readCommand_spelled (hs : 0 < size) (hb : lim.maxBulkLen < 2 ^ 63) (hn : lim.maxArgs < 2 ^ 63) {c : Spelling}
    (hc : c.Obeys Signed lim) (rest : Bytes) :
    readCommand size lim (c.wire ++ rest) =
      if ∃ h ∈ c.headers, h.Cut size lim.maxHeaderLen then .error tooBigHeader else .ok (c.values, rest) := by
  have hsplit : c.wire ++ rest = c.header.line 42 ++ 10 :: (c.args.flatMap Arg.wire ++ rest) := by simp [Spelling.wire]
  have hhead : (c.wire ++ rest).head? = some 42 := rfl
  have hfit := hc.fits c.header List.mem_cons_self
  have hfits : ∀ a ∈ c.args, (a.header.number.length + 1 : Int) ≤ lim.maxHeaderLen := fun a ha =>
    hc.fits a.header (List.mem_cons_of_mem _ (List.mem_map_of_mem ha))
  have hcount := hc.few
  have hpos := hc.nonempty
  have hp : parseInt c.header.number = some (c.args.length : Int) := (parseInt_iff (by omega)).mpr hc.count
  rw [readCommand, if_neg (by simp [Spelling.wire]), if_pos hhead, hsplit, readMultibulk,
    readLine_spelled hs (by decide) hc.count.bytes hfit]
  by_cases hcut : c.header.Cut size lim.maxHeaderLen
  · rw [if_pos hcut, if_pos ⟨c.header, List.mem_cons_self, hcut⟩]
    rfl
  · have hheaders : (∃ h ∈ c.headers, h.Cut size lim.maxHeaderLen) ↔
        ∃ a ∈ c.args, a.header.Cut size lim.maxHeaderLen := by
      simp [Spelling.headers, hcut]
    rw [if_neg hcut]
    simp only [List.drop_one, List.tail_cons, hp, hheaders]
    rw [if_neg (by omega)]
    exact readBulks_spelled hs hb hc.sizes hc.short hfits rest

theorem readPayload_shape {n : Nat} {s v rest : Bytes} (h : readPayload n s = .ok (v, rest)) :
    s = v ++ (crlf ++ rest) := by
  unfold readPayload readFull at h
  by_cases hlen : s.length ≥ n + 2
  · rw [if_pos hlen] at h
    simp only at h
    split at h
    · rename_i hend
      cases h
      have hv : (s.take (n + 2)).take n ++ crlf = s.take (n + 2) := by
        rw [crlf, ← hend, List.take_append_drop]
      rw [← List.append_assoc, hv, List.take_append_drop]
    · cases h
  · rw [if_neg hlen] at h
    by_cases hnil : s = []
    · simp [hnil] at h
    · simp [hnil] at h

theorem readBulk_shape (hs : 0 < size) (hb : lim.maxBulkLen < 2 ^ 63) {s v rest : Bytes}
    (h : readBulk size lim s = .ok (v, rest)) :
    ∃ a : Arg, s = a.wire ++ rest ∧ a.value = v ∧ Signed a.header.number v.length ∧
      (v.length : Int) ≤ lim.maxBulkLen ∧ (a.header.number.length + 1 : Int) ≤ lim.maxHeaderLen := by
  unfold readBulk at h
  cases hl : readLine size lim.maxHeaderLen (ascii "header line") s with
  | error e => simp [hl] at h
  | ok r =>
    obtain ⟨line, s'⟩ := r
    simp only [hl] at h
    split at h
    · rename_i hmark
      cases hn : bulkLength lim (line.drop 1) with
      | none =>
        rw [hn] at h
        cases h
      | some n =>
        simp only [hn] at h
        obtain ⟨cr, rfl, hmax⟩ := readLine_shape hs hl
        obtain ⟨number, rfl⟩ : ∃ number, line = 36 :: number := List.head?_eq_some_iff.mp hmark
        obtain ⟨hsigned, hle⟩ := (bulkLength_iff hb).mp hn
        have hlen := readPayload_length h
        refine ⟨⟨⟨number, cr⟩, v⟩, ?_, rfl, hlen ▸ hsigned, hlen ▸ hle, by simpa using hmax⟩
        simp [Arg.wire, Header.line, readPayload_shape h]
    · cases h

theorem readBulks_shape (hs : 0 < size) (hb : lim.maxBulkLen < 2 ^ 63) {n : Nat} {s : Bytes} {args : List Bytes}
    {rest : Bytes} (h : readBulks size lim n s = .ok (args, rest)) :
    ∃ as : List Arg, s = as.flatMap Arg.wire ++ rest ∧ as.map Arg.value = args ∧ as.length = n ∧
      ∀ a ∈ as, Signed a.header.number a.value.length ∧ (a.value.length : Int) ≤ lim.maxBulkLen ∧
        (a.header.number.length + 1 : Int) ≤ lim.maxHeaderLen := by
  induction n generalizing s args with
  | zero =>
    cases h
    exact ⟨[], rfl, rfl, rfl, by simp⟩
  | succ n ih =>
    unfold readBulks at h
    cases hbulk : readBulk size lim s with
    | error e => simp [hbulk] at h
    | ok r =>
      obtain ⟨v, s'⟩ := r
      simp only [hbulk] at h
      cases hbulks : readBulks size lim n s' with
      | error e => simp [hbulks] at h
      | ok rs =>
        obtain ⟨vs, s''⟩ := rs
        simp only [hbulks] at h
        cases h
        obtain ⟨a, rfl, rfl, ha⟩ := readBulk_shape hs hb hbulk
        obtain ⟨as, rfl, rfl, rfl, has⟩ := ih hbulks
        exact ⟨a :: as, by simp, rfl, rfl, List.forall_mem_cons.mpr ⟨ha, has⟩⟩

theorem readCommand_shape (hs : 0 < size) (hb : lim.maxBulkLen < 2 ^ 63) {s : Bytes} {args : List Bytes} {rest : Bytes}
    (hstar : s.head? = some 42) (h : readCommand size lim s = .ok (args, rest)) :
    ∃ c : Spelling, s = c.wire ++ rest ∧ c.values = args ∧ c.Obeys Signed lim := by
  have hne : s ≠ [] := by
    rintro rfl
    cases hstar
  rw [readCommand, if_neg hne, if_pos hstar] at h
  unfold readMultibulk at h
  cases hl : readLine size lim.maxHeaderLen (ascii "header line") s with
  | error e => simp [hl] at h
  | ok r =>
    obtain ⟨line, s'⟩ := r
    simp only [hl] at h
    cases hp : parseInt (line.drop 1) with
    | none =>
      rw [hp] at h
      cases h
    | some n =>
      simp only [hp] at h
      split at h
      · cases h
      · rename_i hcount
        obtain ⟨cr, rfl, hmax⟩ := readLine_shape hs hl
        obtain ⟨as, rfl, rfl, hlen, has⟩ := readBulks_shape hs hb h
        obtain ⟨number, rfl⟩ : ∃ number, line = 42 :: number := by
          cases line with
          | nil => cases cr <;> simp at hstar
          | cons b number => exact ⟨number, by simpa using hstar⟩
        have hrange := parseInt_inRange hp
        unfold MachineInt.InRange at hrange
        have hcast : (as.length : Int) = n := by omega
        have hpos : 1 ≤ as.length := by omega
        have hfew : (as.length : Int) ≤ lim.maxArgs := by omega
        have hsigned : Signed number as.length := (parseInt_iff (by omega)).mp (hcast ▸ hp)
        refine ⟨⟨⟨number, cr⟩, as⟩, by simp [Spelling.wire, Header.line], rfl, hsigned, hpos, hfew,
          fun a ha => (has a ha).1, fun a ha => (has a ha).2.1, ?_⟩
        simp only [Spelling.headers, List.forall_mem_cons, List.forall_mem_map]
        exact ⟨by simpa using hmax, fun a ha => (has a ha).2.2⟩

end Reading

section Unambiguous

theorem line_inj {h h' : Header} {marker : UInt8} {s s' : Bytes} {x x' : Nat} (hm : marker ≠ 10 ∧ marker ≠ 13)
    (hn : Signed h.number x) (hn' : Signed h'.number x') (heq : h.line marker ++ 10 :: s = h'.line marker ++ 10 :: s') :
    h = h' ∧ s = s' := by
  have hline : h.line marker = h'.line marker := by
    have htake := congrArg (List.takeWhile (· != 10)) heq
    rwa [(takeWhile_line (line_no_lf hm.1 hn.bytes) s).1, (takeWhile_line (line_no_lf hm.1 hn'.bytes) s').1] at htake
  have hnumber : h.number = h'.number := by
    have hstrip := congrArg (fun l => stripEOL (l ++ [10])) hline
    simp only [stripEOL_line hm.2 hn.bytes, stripEOL_line hm.2 hn'.bytes] at hstrip
    exact (List.cons.inj hstrip).2
  have hcr : h.cr = h'.cr := by
    have hlen := congrArg List.length hline
    rw [line_length, line_length, hnumber] at hlen
    cases hcr : h.cr <;> cases hcr' : h'.cr <;> simp_all
  rw [hline] at heq
  exact ⟨Header.ext hnumber hcr, (List.cons.inj (List.append_cancel_left heq)).2⟩

theorem Digits.head {d : Bytes} {x : Nat} (h : Digits d x) : d.dropWhile (fun b => !isDigit b) = d := by
  obtain ⟨hne, hall, -⟩ := h
  cases d with
  | nil => rfl
  | cons b d => rw [List.dropWhile_cons_of_neg (by simp [hall b List.mem_cons_self])]

theorem Signed.decimal_eq {d : Bytes} {x : Nat} (h : Signed d x) : decimal (d.dropWhile fun b => !isDigit b) = x := by
  rcases h with h | ⟨t, h, rfl | ⟨rfl, -⟩⟩
  · rw [h.head, h.2.2]
  · rw [List.dropWhile_cons_of_pos (by decide), h.head, h.2.2]
  · rw [List.dropWhile_cons_of_pos (by decide), h.head, h.2.2]

theorem wire_inj {a a' : Arg} {s s' : Bytes} (hn : Signed a.header.number a.value.length)
    (hn' : Signed a'.header.number a'.value.length) (heq : a.wire ++ s = a'.wire ++ s') : a = a' ∧ s = s' := by
  obtain ⟨header, value⟩ := a
  obtain ⟨header', value'⟩ := a'
  have hsplit : header.line 36 ++ 10 :: (value ++ (crlf ++ s)) = header'.line 36 ++ 10 :: (value' ++ (crlf ++ s')) := by
    simpa [Arg.wire] using heq
  obtain ⟨rfl, hrest⟩ := line_inj (by decide) hn hn' hsplit
  have hlen : value.length = value'.length := hn.decimal_eq.symm.trans hn'.decimal_eq
  obtain ⟨rfl, hcrlf⟩ := List.append_inj hrest hlen
  exact ⟨rfl, List.append_cancel_left hcrlf⟩

theorem flatMap_wire_inj {as as' : List Arg} {s s' : Bytes} (hlen : as.length = as'.length)
    (hn : ∀ a ∈ as, Signed a.header.number a.value.length) (hn' : ∀ a ∈ as', Signed a.header.number a.value.length)
    (heq : as.flatMap Arg.wire ++ s = as'.flatMap Arg.wire ++ s') : as = as' ∧ s = s' := by
  induction as generalizing as' with
  | nil =>
    obtain rfl : as' = [] := List.length_eq_zero_iff.mp hlen.symm
    exact ⟨rfl, heq⟩
  | cons a as ih =>
    cases as' with
    | nil => cases hlen
    | cons a' as' =>
      rw [List.flatMap_cons, List.flatMap_cons, List.append_assoc, List.append_assoc] at heq
      obtain ⟨rfl, hrest⟩ := wire_inj (hn a List.mem_cons_self) (hn' a' List.mem_cons_self) heq
      obtain ⟨rfl, hs⟩ := ih (Nat.succ.inj hlen) (fun x hx => hn x (List.mem_cons_of_mem a hx))
        (fun x hx => hn' x (List.mem_cons_of_mem a hx)) hrest
      exact ⟨rfl, hs⟩

theorem spelling_unique {lim : Limits} {c c' : Spelling} {rest rest' : Bytes} (hc : c.Obeys Signed lim)
    (hc' : c'.Obeys Signed lim) (heq : c.wire ++ rest = c'.wire ++ rest') : c = c' := by
  obtain ⟨header, args⟩ := c
  obtain ⟨header', args'⟩ := c'
  have hsplit : header.line 42 ++ 10 :: (args.flatMap Arg.wire ++ rest) =
      header'.line 42 ++ 10 :: (args'.flatMap Arg.wire ++ rest') := by
    simpa [Spelling.wire] using heq
  obtain ⟨rfl, hrest⟩ := line_inj (by decide) hc.count hc'.count hsplit
  have hlen : args.length = args'.length := hc.count.decimal_eq.symm.trans hc'.count.decimal_eq
  obtain ⟨rfl, -⟩ := flatMap_wire_inj hlen hc.sizes hc'.sizes hrest
  rfl

end Unambiguous

section Exact

variable {size : Nat} {lim : Limits} {s : Bytes}

theorem digits_iff {d : Bytes} {x : Nat} : Digits d x ↔ Signed d x ∧ ¬ (d.head? = some 43 ∨ d.head? = some 45) := by
  constructor
  · intro h
    refine ⟨Or.inl h, ?_⟩
    rintro (hs | hs)
    · exact (h.bytes 43 (List.mem_of_head? hs)).2.2.1 rfl
    · exact (h.bytes 45 (List.mem_of_head? hs)).2.2.2 rfl
  · rintro ⟨h | ⟨t, -, rfl | ⟨rfl, -⟩⟩, hns⟩
    · exact h
    · exact absurd (Or.inl rfl) hns
    · exact absurd (Or.inr rfl) hns

/-- The specification's grammar is the reader's without the signs. -/
theorem obeys_digits_iff {c : Spelling} :
    c.Obeys Digits lim ↔ c.Obeys Signed lim ∧ ¬ ∃ h ∈ c.headers, h.HasSign := by
  constructor
  · intro h
    refine ⟨⟨(digits_iff.mp h.count).1, h.nonempty, h.few, fun a ha => (digits_iff.mp (h.sizes a ha)).1, h.short,
      h.fits⟩, ?_⟩
    simp only [Spelling.headers, List.exists_mem_cons_iff, List.mem_map, exists_exists_and_eq_and, not_or, not_exists,
      not_and]
    exact ⟨(digits_iff.mp h.count).2, fun a ha => (digits_iff.mp (h.sizes a ha)).2⟩
  · rintro ⟨h, hns⟩
    refine ⟨digits_iff.mpr ⟨h.count, fun hs => hns ⟨c.header, List.mem_cons_self, hs⟩⟩, h.nonempty, h.few,
      fun a ha => digits_iff.mpr ⟨h.sizes a ha, fun hs => hns ⟨a.header, ?_, hs⟩⟩, h.short, h.fits⟩
    exact List.mem_cons_of_mem _ (List.mem_map_of_mem ha)

def Begins (lim : Limits) (s : Bytes) (args : List Bytes) : Prop :=
  ∃ (c : Spelling) (rest : Bytes), s = c.wire ++ rest ∧ c.values = args ∧ c.Obeys Digits lim

/-- The reader returns what the stream begins with, and an error if that is no
command. -/
def ExactOn (size : Nat) (lim : Limits) (s : Bytes) : Prop :=
  (∀ args, (∃ rest, readCommand size lim s = .ok (args, rest)) ↔ Begins lim s args) ∧
    ((¬ ∃ args, Begins lim s args) → ∃ e, readCommand size lim s = .error e)

theorem error_of_not_ok {r : Except ReadErr (List Bytes × Bytes)} (h : ¬ ∃ args rest, r = .ok (args, rest)) :
    ∃ e, r = .error e := by
  cases r with
  | error e => exact ⟨e, rfl⟩
  | ok p => exact absurd ⟨p.1, p.2, rfl⟩ h

/-- `ReadCommand` accepts the grammar of the specification on a stream if and
only if the command it begins with, signs allowed, has a sign in a header
exactly when the buffer cuts one of its header lines. -/
theorem multibulk_exact_iff (hs : 0 < size) (hb : lim.maxBulkLen ≤ 2 ^ 63 - 3) (hn : lim.maxArgs < 2 ^ 63)
    (hstar : s.head? = some 42) :
    ExactOn size lim s ↔ ∀ (c : Spelling) (rest : Bytes), s = c.wire ++ rest → c.Obeys Signed lim →
      ((∃ h ∈ c.headers, h.HasSign) ↔ ∃ h ∈ c.headers, h.Cut size lim.maxHeaderLen) := by
  have hb' : lim.maxBulkLen < 2 ^ 63 := by omega
  constructor
  · rintro ⟨hexact, -⟩ c rest rfl hc
    have hread := readCommand_spelled hs hb' hn hc rest
    constructor
    · intro hsign
      by_contra hcut
      rw [if_neg hcut] at hread
      obtain ⟨c', rest', heq, -, hc'⟩ := (hexact c.values).mp ⟨rest, hread⟩
      obtain ⟨hsigned, hns⟩ := obeys_digits_iff.mp hc'
      exact hns (spelling_unique hc hsigned heq ▸ hsign)
    · intro hcut
      by_contra hsign
      rw [if_pos hcut] at hread
      obtain ⟨rest', hok⟩ := (hexact c.values).mpr ⟨c, rest, rfl, rfl, obeys_digits_iff.mpr ⟨hc, hsign⟩⟩
      rw [hread] at hok
      cases hok
  · intro hcond
    have hiff : ∀ args, (∃ rest, readCommand size lim s = .ok (args, rest)) ↔ Begins lim s args := by
      intro args
      constructor
      · rintro ⟨rest, hok⟩
        obtain ⟨c, rfl, rfl, hc⟩ := readCommand_shape hs hb' hstar hok
        refine ⟨c, rest, rfl, rfl, obeys_digits_iff.mpr ⟨hc, fun hsign => ?_⟩⟩
        rw [readCommand_spelled hs hb' hn hc rest, if_pos ((hcond c rest rfl hc).mp hsign)] at hok
        cases hok
      · rintro ⟨c, rest, rfl, rfl, hc⟩
        obtain ⟨hsigned, hns⟩ := obeys_digits_iff.mp hc
        refine ⟨rest, ?_⟩
        rw [readCommand_spelled hs hb' hn hsigned rest,
          if_neg fun hcut => hns ((hcond c rest rfl hsigned).mpr hcut)]
    refine ⟨hiff, fun hno => error_of_not_ok ?_⟩
    rintro ⟨args, hok⟩
    exact hno ⟨args, (hiff args).mp hok⟩

theorem digits_one {b : UInt8} (hb : isDigit b = true) : Digits [b] (b.toNat - 48) :=
  ⟨by simp, by simpa using hb, by simp [decimal]⟩

def pingArg : Arg := ⟨⟨[52], true⟩, ascii "PING"⟩

theorem ping_obeys {number : Bytes} (h : Signed number 1) (hfit : number.length ≤ 63) :
    (⟨⟨number, true⟩, [pingArg]⟩ : Spelling).Obeys Signed defaultLimits := by
  have hfour : Signed pingArg.header.number pingArg.value.length := Or.inl (digits_one (by decide))
  have hshort : (pingArg.value.length : Int) ≤ defaultLimits.maxBulkLen := by decide
  have hfew : (1 : Int) ≤ defaultLimits.maxArgs := by decide
  refine ⟨h, le_rfl, hfew, List.forall_mem_singleton.mpr hfour, List.forall_mem_singleton.mpr hshort, ?_⟩
  simp only [Spelling.headers, List.map_cons, List.map_nil, List.forall_mem_cons, defaultLimits]
  exact ⟨by omega, by decide, by simp⟩

theorem ping_exact : ExactOn 4096 defaultLimits (ascii "*1\r\n$4\r\nPING\r\n") := by
  refine (multibulk_exact_iff (by decide) (by decide) (by decide) rfl).mpr fun c rest heq hc => ?_
  have hone : Signed [49] 1 := Or.inl (digits_one (by decide))
  have hwire : (⟨⟨[49], true⟩, [pingArg]⟩ : Spelling).wire ++ [] = c.wire ++ rest := heq
  rw [← spelling_unique (ping_obeys hone (by decide)) hc hwire]
  decide

/-- A plus sign before the number of arguments is accepted. -/
theorem ping_signed_inexact :
    readCommand 4096 defaultLimits (ascii "*+1\r\n$4\r\nPING\r\n") = .ok ([ascii "PING"], []) ∧
      ¬ Begins defaultLimits (ascii "*+1\r\n$4\r\nPING\r\n") [ascii "PING"] := by
  refine ⟨by decide +kernel, ?_⟩
  rintro ⟨c, rest, heq, -, hc⟩
  obtain ⟨hsigned, hns⟩ := obeys_digits_iff.mp hc
  have hone : Signed [43, 49] 1 := Or.inr ⟨[49], digits_one (by decide), Or.inl rfl⟩
  have hwire : (⟨⟨[43, 49], true⟩, [pingArg]⟩ : Spelling).wire ++ [] = c.wire ++ rest := heq
  rw [← spelling_unique (ping_obeys hone (by decide)) hsigned hwire] at hns
  exact hns (by decide)

end Exact

end MemX.RespGrammar
