import MemX.RespReply

namespace MemX.RespFrame

open DecimalText RespWrite RespReply

variable {s rest : Bytes} {r : Reply} {rs : List Reply} {d : Nat}

def plain (b : UInt8) : Bool := b != 13 && b != 10

/-- A payload that stays one line: it has no CR and no LF. -/
def OneLine (s : Bytes) : Prop := ∀ b ∈ s, plain b = true

instance (s : Bytes) : Decidable (OneLine s) := inferInstanceAs (Decidable (∀ b ∈ s, plain b = true))

/-- A literal is tested on its characters, which is cheaper than on the bytes. -/
theorem oneLine_ascii {s : String} {l : List Char} (hs : s.toList = l)
    (h : l.all (fun ch => plain (UInt8.ofNat ch.toNat)) = true) : OneLine (ascii s) := by
  subst hs
  simpa [OneLine, ascii] using h

theorem oneLine_append {s t : Bytes} : OneLine (s ++ t) ↔ OneLine s ∧ OneLine t := List.forall_mem_append

mutual

def Flat : Reply → Prop
  | .simple s => OneLine s
  | .error s => OneLine s
  | .integer _ => True
  | .bulk _ => True
  | .null => True
  | .array rs => FlatAll rs

def FlatAll : List Reply → Prop
  | [] => True
  | r :: rs => Flat r ∧ FlatAll rs

end

theorem flatAll_iff : FlatAll rs ↔ ∀ r ∈ rs, Flat r := by
  induction rs with
  | nil => simp [FlatAll]
  | cons r rs ih => simp [FlatAll, ih]

/-! How a client reads replies that knows only the format. -/

/-- The first line of a stream, whose first CR or LF must be a CRLF. -/
def takeLine (s : Bytes) : Option (Bytes × Bytes) :=
  match s.dropWhile plain with
  | 13 :: 10 :: rest => some (s.takeWhile plain, rest)
  | _ => none

def signedValue : Bytes → Option Int
  | 45 :: ds => (parseUnsigned ds).map fun (n : Nat) => -(n : Int)
  | ds => (parseUnsigned ds).map fun (n : Nat) => (n : Int)

def decodeBulk (len s : Bytes) : Option (Reply × Bytes) :=
  if len = ascii "-1" then some (.null, s)
  else
    (parseUnsigned len).bind fun n =>
      if (s.drop n).take 2 = crlf then some (.bulk (s.take n), s.drop (n + 2)) else none

def decodeMany (item : Bytes → Option (Reply × Bytes)) : Nat → Bytes → Option (List Reply × Bytes)
  | 0, s => some ([], s)
  | n + 1, s =>
    (item s).bind fun p => (decodeMany item n p.2).map fun q => (p.1 :: q.1, q.2)

def decode : Nat → Bytes → Option (Reply × Bytes)
  | 0, _ => none
  | depth + 1, s =>
    match takeLine s with
    | some (43 :: p, rest) => some (.simple p, rest)
    | some (45 :: p, rest) => some (.error p, rest)
    | some (58 :: p, rest) => (signedValue p).map fun n => (.integer n, rest)
    | some (36 :: p, rest) => decodeBulk p rest
    | some (42 :: p, rest) =>
      (parseUnsigned p).bind fun n => (decodeMany (decode depth) n rest).map fun q => (.array q.1, q.2)
    | _ => none

def decodeAll (depth : Nat) : Nat → Bytes → Option (List Reply)
  | _, [] => some []
  | 0, _ :: _ => none
  | n + 1, s => (decode depth s).bind fun p => (decodeAll depth n p.2).map (p.1 :: ·)

def frames (s : Bytes) : Option (List Reply) := decodeAll s.length s.length s

theorem takeLine_oneLine (h : OneLine s) : takeLine (s ++ (crlf ++ rest)) = some (s, rest) := by
  have hdrop : (s ++ (crlf ++ rest)).dropWhile plain = 13 :: 10 :: rest := by
    rw [List.dropWhile_append_of_pos h]
    rfl
  have htake : (s ++ (crlf ++ rest)).takeWhile plain = s := by
    rw [List.takeWhile_append_of_pos h]
    simp [crlf, plain]
  rw [takeLine, hdrop, htake]
  rfl

theorem oneLine_of_takeLine {l : Bytes} (h : takeLine s = some (l, rest)) : OneLine l := by
  unfold takeLine at h
  split at h
  · cases h
    exact fun b hb => List.mem_takeWhile_imp hb
  · cases h

theorem takeLine_writeLine {m : UInt8} (hm : plain m = true) (h : OneLine s) :
    takeLine (writeLine m s ++ rest) = some (m :: s, rest) := by
  have hl : OneLine (m :: s) := List.forall_mem_cons.mpr ⟨hm, h⟩
  have hsplit : writeLine m s ++ rest = (m :: s) ++ (crlf ++ rest) := by simp [writeLine]
  rw [hsplit, takeLine_oneLine hl]

theorem oneLine_formatNat (n : Nat) : OneLine (formatNat n) := by
  intro b hb
  have hd := formatNat_digits n b hb
  simp only [isDigit, Bool.and_eq_true, decide_eq_true_eq] at hd
  have h13 : b ≠ 13 := by
    rintro rfl
    exact absurd hd.1 (by decide)
  have h10 : b ≠ 10 := by
    rintro rfl
    exact absurd hd.1 (by decide)
  simp [plain, h13, h10]

theorem oneLine_formatInt (n : Int) : OneLine (formatInt n) := by
  unfold formatInt
  split
  · exact List.forall_mem_cons.mpr ⟨rfl, oneLine_formatNat _⟩
  · exact oneLine_formatNat _

theorem signedValue_formatInt (n : Int) : signedValue (formatInt n) = some n := by
  unfold formatInt
  split
  · rw [signedValue, parseUnsigned_formatNat, Option.map_some]
    exact congrArg some (by omega)
  · have hne : ∀ ds, formatNat n.natAbs ≠ 45 :: ds := by
      intro ds he
      have hd := formatNat_digits n.natAbs 45 (by simp [he])
      exact absurd hd (by decide)
    unfold signedValue
    split
    · rename_i ds he
      exact absurd he (hne ds)
    · rw [parseUnsigned_formatNat, Option.map_some]
      exact congrArg some (by omega)

theorem decodeBulk_formatNat (b rest : Bytes) :
    decodeBulk (formatNat b.length) (b ++ (crlf ++ rest)) = some (.bulk b, rest) := by
  have hne : formatNat b.length ≠ ascii "-1" := by
    intro he
    have hd := formatNat_digits b.length 45 (by rw [he]; decide)
    exact absurd hd (by decide)
  have hdrop : (b ++ (crlf ++ rest)).drop (b.length + 2) = rest := by simp [crlf, List.drop_append]
  rw [decodeBulk, if_neg hne, parseUnsigned_formatNat, Option.bind_some, hdrop]
  simp [crlf]

mutual

theorem decode_writeTo : (r : Reply) → Flat r → ∀ {d : Nat}, depth r ≤ d → ∀ rest,
    decode d (writeTo r ++ rest) = some (r, rest)
  | .simple s, h, d + 1, _, rest => by
    rw [writeTo, decode, takeLine_writeLine rfl h]
    rfl
  | .error s, h, d + 1, _, rest => by
    rw [writeTo, decode, takeLine_writeLine rfl h]
    rfl
  | .integer n, _, d + 1, _, rest => by
    rw [writeTo, decode, takeLine_writeLine rfl (oneLine_formatInt n)]
    simp only [signedValue_formatInt, Option.map_some]
  | .bulk b, _, d + 1, _, rest => by
    rw [writeTo, RespWrite.bulk, List.append_assoc, decode, takeLine_writeLine rfl (oneLine_formatNat b.length)]
    simp only [List.append_assoc, decodeBulk_formatNat]
  | .null, _, d + 1, _, rest => by
    rw [writeTo, decode, takeLine_writeLine rfl (by decide +kernel)]
    rfl
  | .array rs, h, d + 1, hd, rest => by
    have hall := decodeMany_writeAll rs h (d := d) (by simpa [depth] using hd) rest
    rw [writeTo, arrayLen, List.append_assoc, decode, takeLine_writeLine rfl (oneLine_formatNat rs.length)]
    simp only [parseUnsigned_formatNat, Option.bind_some, hall, Option.map_some]
  | .simple _, _, 0, hd, _ => absurd hd (by simp [depth])
  | .error _, _, 0, hd, _ => absurd hd (by simp [depth])
  | .integer _, _, 0, hd, _ => absurd hd (by simp [depth])
  | .bulk _, _, 0, hd, _ => absurd hd (by simp [depth])
  | .null, _, 0, hd, _ => absurd hd (by simp [depth])
  | .array _, _, 0, hd, _ => absurd hd (by simp [depth])

theorem decodeMany_writeAll : (rs : List Reply) → FlatAll rs → ∀ {d : Nat}, depthAll rs ≤ d → ∀ rest,
    decodeMany (decode d) rs.length (writeAll rs ++ rest) = some (rs, rest)
  | [], _, d, _, rest => rfl
  | r :: rs, h, d, hd, rest => by
    have hd' : depth r ≤ d ∧ depthAll rs ≤ d := by simpa [depthAll] using hd
    rw [List.length_cons, decodeMany, writeAll, List.append_assoc, decode_writeTo r h.1 hd'.1]
    simp only [Option.bind_some, decodeMany_writeAll rs h.2 hd'.2, Option.map_some]

end

theorem flatAll_of_decodeMany {item : Bytes → Option (Reply × Bytes)}
    (hitem : ∀ {s r rest}, item s = some (r, rest) → Flat r) (n : Nat) (h : decodeMany item n s = some (rs, rest)) :
    FlatAll rs := by
  induction n generalizing s rs with
  | zero =>
    cases h
    trivial
  | succ n ih =>
    obtain ⟨p, hp, hmore⟩ := Option.bind_eq_some_iff.mp h
    obtain ⟨q, hq, heq⟩ := Option.map_eq_some_iff.mp hmore
    cases heq
    exact ⟨hitem hp, ih hq⟩

theorem flat_of_decode (d : Nat) (h : decode d s = some (r, rest)) : Flat r := by
  induction d generalizing s r rest with
  | zero => cases h
  | succ d ih =>
    unfold decode at h
    split at h
    · rename_i hl
      cases h
      exact (List.forall_mem_cons.mp (oneLine_of_takeLine hl)).2
    · rename_i hl
      cases h
      exact (List.forall_mem_cons.mp (oneLine_of_takeLine hl)).2
    · obtain ⟨n, _, heq⟩ := Option.map_eq_some_iff.mp h
      cases heq
      trivial
    · unfold decodeBulk at h
      split at h
      · cases h
        trivial
      · obtain ⟨n, _, hn⟩ := Option.bind_eq_some_iff.mp h
        split at hn
        · cases hn
          trivial
        · cases hn
    · obtain ⟨n, _, hn⟩ := Option.bind_eq_some_iff.mp h
      obtain ⟨q, hq, heq⟩ := Option.map_eq_some_iff.mp hn
      cases heq
      exact flatAll_of_decodeMany ih n hq
    · cases h

theorem flatAll_of_decodeAll (n : Nat) (h : decodeAll d n s = some rs) : FlatAll rs := by
  induction n generalizing s rs with
  | zero =>
    cases s with
    | nil =>
      cases h
      trivial
    | cons b s => cases h
  | succ n ih =>
    cases s with
    | nil =>
      cases h
      trivial
    | cons b s =>
      obtain ⟨p, hp, hmore⟩ := Option.bind_eq_some_iff.mp h
      obtain ⟨q, hq, heq⟩ := Option.map_eq_some_iff.mp hmore
      cases heq
      exact ⟨flat_of_decode d hp, ih hq⟩

theorem decodeAll_writeAll (h : FlatAll rs) (hd : depthAll rs ≤ d) (n : Nat) (hn : (writeAll rs).length ≤ n) :
    decodeAll d n (writeAll rs) = some rs := by
  induction rs generalizing n with
  | nil => cases n <;> rfl
  | cons r rs ih =>
    have hd' : depth r ≤ d ∧ depthAll rs ≤ d := by simpa [depthAll] using hd
    have hpos : 0 < (writeTo r).length := (depth_pos r).trans_le (depth_le_length r)
    rw [writeAll, List.length_append] at hn
    obtain ⟨m, rfl⟩ : ∃ m, n = m + 1 := ⟨n - 1, by omega⟩
    have hdec := decode_writeTo r h.1 hd'.1 (writeAll rs)
    cases hs : writeTo r ++ writeAll rs with
    | nil =>
      rw [List.append_eq_nil_iff] at hs
      simp [hs.1] at hpos
    | cons b s =>
      rw [hs] at hdec
      rw [writeAll, hs]
      change (decode d (b :: s)).bind _ = _
      rw [hdec, Option.bind_some, ih h.2 hd'.2 m (by omega), Option.map_some]

/-- A stream of replies frames into these replies just when none of their
lines has a line break inside. -/
theorem frames_writeAll_iff (rs : List Reply) : frames (writeAll rs) = some rs ↔ FlatAll rs :=
  ⟨flatAll_of_decodeAll _, fun h => decodeAll_writeAll h (depthAll_le_length rs) _ le_rfl⟩

end MemX.RespFrame
