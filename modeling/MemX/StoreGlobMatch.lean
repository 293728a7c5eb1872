import MemX.StoreGlobLoop

namespace MemX.StoreGlobMatch

open DecimalText StoreGlob WildMatch GlobTokens StoreGlobLoop

theorem tokens_nil : tokens [] = [] := by rw [tokens]

theorem tokens_star (rest : Bytes) : tokens (42 :: rest) = .star :: tokens rest := by
  rw [tokens.eq_def]
  rfl

theorem tokens_any (rest : Bytes) : tokens (63 :: rest) = .one .any :: tokens rest := by
  rw [tokens.eq_def]
  rfl

theorem tokens_escape (x : UInt8) (rest : Bytes) : tokens (92 :: x :: rest) = .one (.lit x) :: tokens rest := by
  rw [tokens.eq_def]
  rfl

theorem tokens_backslash : tokens [92] = [.one (.lit 92)] := by
  rw [tokens.eq_def]
  rfl

theorem bracket_ne : (91 : UInt8) ≠ 42 ∧ (91 : UInt8) ≠ 63 ∧ (91 : UInt8) ≠ 92 := by decide

theorem tokens_class {rest rest' : Bytes} {k : CharClass} (hk : parseClass rest = some (k, rest')) :
    tokens (91 :: rest) = .one (.cls k) :: tokens rest' := by
  rw [tokens.eq_def]
  simp only [bracket_ne, ↓reduceIte]
  split
  · rename_i k' rest'' hk'
    rw [hk] at hk'
    cases hk'
    rfl
  · rename_i hnone
    rw [hk] at hnone
    cases hnone

theorem tokens_open {rest : Bytes} (hk : parseClass rest = none) :
    tokens (91 :: rest) = .one (.lit 91) :: tokens rest := by
  rw [tokens.eq_def]
  simp only [bracket_ne, ↓reduceIte]
  split
  · rename_i k' rest'' hk'
    rw [hk] at hk'
    cases hk'
  · rfl

theorem tokens_lit {c : UInt8} (hs : c ≠ 42) (ha : c ≠ 63) (hb : c ≠ 92) (hk : c ≠ 91) (rest : Bytes) :
    tokens (c :: rest) = .one (.lit c) :: tokens rest := by
  rw [tokens.eq_def]
  simp only [if_neg hs, if_neg ha, if_neg hb, if_neg hk]

theorem advance_tokens {c : UInt8} (hc : c ≠ 42) (rest : Bytes) (y : UInt8) :
    ∃ t q, tokens (c :: rest) = .one t :: tokens q ∧
      (t.accepts y = true → advance (c :: rest) y = some q) ∧
      (t.accepts y = false → advance (c :: rest) y = none ∨
        y = 91 ∧ ∃ p, advance (c :: rest) y = some p ∧ 93 ∈ p) := by
  by_cases h92 : c = 92
  · subst h92
    cases rest with
    | nil =>
      refine ⟨.lit 92, [], by rw [tokens_backslash, tokens_nil], fun h => ?_, fun h => .inl ?_⟩
      · simp [Token.accepts] at h
        simp [advance, h]
      · simp [Token.accepts] at h
        simp [advance, Ne.symm h]
    | cons x rest =>
      refine ⟨.lit x, rest, tokens_escape x rest, fun h => ?_, fun h => .inl ?_⟩
      · simp [Token.accepts] at h
        simp [advance, h]
      · simp [Token.accepts] at h
        simp [advance, Ne.symm h]
  · by_cases h63 : c = 63
    · subst h63
      exact ⟨.any, rest, tokens_any rest, fun _ => by simp [advance], by rintro ⟨⟩⟩
    · by_cases h91 : c = 91
      · subst h91
        cases hk : parseClass rest with
        | none =>
          refine ⟨.lit 91, rest, tokens_open hk, fun h => ?_, fun h => .inl ?_⟩
          · simp [Token.accepts] at h
            simp [advance, hk, h]
          · simp [Token.accepts] at h
            simp [advance, hk, h]
        | some r =>
          refine ⟨.cls r.1, r.2, tokens_class hk, fun h => ?_, fun h => ?_⟩
          · simp only [Token.accepts] at h
            simp [advance, hk, h]
          · simp only [Token.accepts] at h
            by_cases hy : y = 91
            · subst hy
              exact .inr ⟨rfl, rest, by simp [advance, hk, h], (parseClass_split hk).subset List.mem_cons_self⟩
            · exact .inl (by simp [advance, hk, h, hy])
      · refine ⟨.lit c, rest, tokens_lit hc h63 h92 h91 rest, fun h => ?_, fun h => .inl ?_⟩
        · simp [Token.accepts] at h
          simp [advance, h92, h63, h91, h]
        · simp [Token.accepts] at h
          simp [advance, h92, h63, h91, Ne.symm h]

/-- Items that hold no star lie between the last star and here, one for each
byte of the name since its mark. -/
def Follows (l : Left) : Prop :=
  ∀ q mark, l.back = some (q, mark) → l.name <:+ mark ∧
    ∃ u, tokens q = u ++ tokens l.pattern ∧ (∀ i ∈ u, i ≠ .star) ∧ mark.length = u.length + l.name.length

/-- A bracket stands nowhere in the name but at its end. -/
def Plain (l : Left) : Prop :=
  91 ∉ l.name.dropLast ∧ ∀ q mark, l.back = some (q, mark) → 91 ∉ mark.dropLast

/-- There is a match that goes on from here, or one that tries the last star
further on. -/
def Alive (l : Left) : Prop :=
  Cut Token.accepts (tokens l.pattern) l.name ∨
    ∃ q mark, l.back = some (q, mark) ∧
      ∃ later, later <:+ mark ∧ later.length < mark.length ∧ Cut Token.accepts (tokens q) later

theorem dropLast_suffix {s t : Bytes} (h : s <:+ t) (ht : 91 ∉ t.dropLast) : 91 ∉ s.dropLast := by
  obtain ⟨u, rfl⟩ := h
  intro hs
  refine ht ?_
  cases s with
  | nil => cases hs
  | cons b s =>
    rw [List.dropLast_append_of_ne_nil (List.cons_ne_nil b s)]
    exact List.mem_append_right u hs

theorem alive_restart (p s : Bytes) : Alive ⟨p, s, some (p, s)⟩ ↔ Cut Token.accepts (.star :: tokens p) s := by
  rw [cut_star]
  constructor
  · rintro (h | ⟨q, mark, hb, later, hl, -, hc⟩)
    · exact ⟨s, List.suffix_rfl, h⟩
    · cases hb
      exact ⟨later, hl, hc⟩
  · rintro ⟨later, hl, hc⟩
    by_cases hlen : later.length = s.length
    · exact .inl (hl.eq_of_length hlen ▸ hc)
    · exact .inr ⟨p, s, rfl, later, hl, lt_of_le_of_ne hl.length_le hlen, hc⟩

theorem follows_restart (p s : Bytes) : Follows ⟨p, s, some (p, s)⟩ := by
  rintro q mark ⟨⟩
  exact ⟨List.suffix_rfl, [], rfl, by simp, (Nat.zero_add _).symm⟩

section Step

variable {p s : Bytes} {y : UInt8} {back : Option (Bytes × Bytes)}

/-- At a new star the old one may be forgotten. -/
theorem alive_star (hf : Follows ⟨42 :: p, y :: s, back⟩) :
    Alive ⟨42 :: p, y :: s, back⟩ ↔ Alive ⟨p, y :: s, some (p, y :: s)⟩ := by
  rw [alive_restart]
  constructor
  · rintro (h | ⟨q, mark, hb, later, hl, -, hc⟩)
    · rwa [tokens_star] at h
    · obtain ⟨hname, u, hu, hfree, hlen⟩ := hf q mark hb
      rw [hu, tokens_star] at hc
      exact cut_star_of_restart hfree hname hlen hl hc
  · intro h
    refine .inl ?_
    rwa [tokens_star]

theorem alive_accept {q : Bytes} {t : Token} (ht : tokens p = .one t :: tokens q) (hy : t.accepts y = true) :
    Alive ⟨p, y :: s, back⟩ ↔ Alive ⟨q, s, back⟩ := by
  unfold Alive
  simp only [ht, cut_one_cons, hy, true_and]

theorem follows_accept {q : Bytes} {t : Token} (ht : tokens p = .one t :: tokens q)
    (hf : Follows ⟨p, y :: s, back⟩) : Follows ⟨q, s, back⟩ := by
  intro q' mark hb
  obtain ⟨hname, u, hu, hfree, hlen⟩ := hf q' mark hb
  refine ⟨(List.suffix_cons y s).trans hname, u ++ [.one t], ?_, ?_, ?_⟩
  · rw [hu, ht, List.append_assoc]
    rfl
  · exact List.forall_mem_append.mpr ⟨hfree, by simp⟩
  · simp only [List.length_append, List.length_cons, List.length_nil] at hlen ⊢
    omega

theorem alive_back {q mark : Bytes} (hno : ¬ Cut Token.accepts (tokens p) (y :: s)) (hf : y :: s <:+ mark) :
    Alive ⟨p, y :: s, some (q, mark)⟩ ↔ Alive ⟨q, mark.tail, some (q, mark.tail)⟩ := by
  rw [alive_restart, cut_star]
  cases mark with
  | nil => cases List.suffix_nil.mp hf
  | cons b mark =>
    constructor
    · rintro (h | ⟨q', mark', hb, later, hl, hlt, hc⟩)
      · exact absurd h hno
      · cases hb
        obtain rfl | hl := List.suffix_cons_iff.mp hl
        · exact absurd hlt (lt_irrefl _)
        · exact ⟨later, hl, hc⟩
    · rintro ⟨later, hl, hc⟩
      exact .inr ⟨q, b :: mark, rfl, later, hl.trans (List.suffix_cons b mark), Nat.lt_succ_of_le hl.length_le, hc⟩

/-- A class that takes the last byte, a bracket, as a literal is not at its
end, and no star has been tried far enough to the left. -/
theorem not_alive_literal {q : Bytes} {t : Token} (ht : tokens p = .one t :: tokens q) (hy : t.accepts y = false)
    (hf : Follows ⟨p, [y], back⟩) : ¬ Alive ⟨p, [y], back⟩ := by
  rintro (h | ⟨q', mark, hb, later, hl, hlt, hc⟩)
  · simp only [ht, cut_one_cons, hy, Bool.false_eq_true, false_and] at h
  · obtain ⟨_, u, hu, hfree, hlen⟩ := hf q' mark hb
    have hcons : tokens q' = (u ++ [.one t]) ++ tokens q := by
      rw [hu, ht, List.append_assoc]
      rfl
    rw [hcons] at hc
    refine not_cut_of_short (List.forall_mem_append.mpr ⟨hfree, by simp⟩) ?_ hc
    simp only [List.length_append, List.length_cons, List.length_nil] at hlen ⊢
    omega

theorem not_cut_of_advance_none (hp : p.head? ≠ some 42) (h : advance p y = none) :
    ¬ Cut Token.accepts (tokens p) (y :: s) := by
  cases p with
  | nil =>
    rw [tokens_nil, cut_nil]
    exact List.cons_ne_nil y s
  | cons c p =>
    obtain ⟨t, q, ht, hacc, -⟩ := advance_tokens (fun hc => hp (congrArg some hc)) p y
    rw [ht, cut_one_cons]
    rintro ⟨hy, -⟩
    rw [hacc hy] at h
    cases h

theorem step_alive (hf : Follows ⟨p, y :: s, back⟩) (hplain : Plain ⟨p, y :: s, back⟩) :
    (step ⟨p, y :: s, back⟩ y s = none ∧ ¬ Alive ⟨p, y :: s, back⟩) ∨
    (∃ next, step ⟨p, y :: s, back⟩ y s = some next ∧ Follows next ∧ Plain next ∧
      (Alive ⟨p, y :: s, back⟩ ↔ Alive next)) ∨
    (∃ p', step ⟨p, y :: s, back⟩ y s = some ⟨p', [], back⟩ ∧ 93 ∈ p' ∧ ¬ Alive ⟨p, y :: s, back⟩) := by
  unfold step
  simp only
  by_cases hhead : p.head? = some 42
  · obtain ⟨p', rfl⟩ : ∃ p', p = 42 :: p' := by
      cases p with
      | nil => cases hhead
      | cons c p => exact ⟨p, by rw [Option.some.inj hhead]⟩
    refine .inr (.inl ⟨_, if_pos hhead, follows_restart _ _, ⟨hplain.1, ?_⟩, alive_star hf⟩)
    rintro q mark ⟨⟩
    exact hplain.1
  · rw [if_neg hhead]
    cases hadv : advance p y with
    | none =>
      have hno : ¬ Cut Token.accepts (tokens p) (y :: s) := not_cut_of_advance_none hhead hadv
      cases back with
      | none =>
        refine .inl ⟨rfl, ?_⟩
        rintro (h | ⟨q, mark, hb, -⟩)
        · exact hno h
        · cases hb
      | some r =>
        refine .inr (.inl ⟨_, rfl, follows_restart _ _, ?_, alive_back hno (hf r.1 r.2 rfl).1⟩)
        have hmark := dropLast_suffix (List.tail_suffix r.2) (hplain.2 r.1 r.2 rfl)
        refine ⟨hmark, ?_⟩
        rintro q mark ⟨⟩
        exact hmark
    | some p' =>
      cases p with
      | nil => cases hadv
      | cons c p =>
        obtain ⟨t, q, ht, hacc, hrej⟩ := advance_tokens (fun hc => hhead (congrArg some hc)) p y
        cases hy : t.accepts y with
        | true =>
          rw [hacc hy] at hadv
          cases hadv
          exact .inr (.inl ⟨_, rfl, follows_accept ht hf,
            ⟨dropLast_suffix (List.suffix_cons y s) hplain.1, hplain.2⟩, alive_accept ht hy⟩)
        | false =>
          obtain hnone | ⟨rfl, p'', hp'', hmem⟩ := hrej hy
          · rw [hnone] at hadv
            cases hadv
          · obtain rfl : s = [] := by
              cases s with
              | nil => rfl
              | cons b s => exact absurd List.mem_cons_self hplain.1
            rw [hp''] at hadv
            cases hadv
            exact .inr (.inr ⟨_, rfl, hmem, not_alive_literal ht hy hf⟩)

end Step

theorem all_stars_iff (p : Bytes) : p.all (· == 42) = true ↔ ∀ i ∈ tokens p, i = .star := by
  induction p with
  | nil => simp [tokens_nil]
  | cons c p ih =>
    by_cases hc : c = 42
    · subst hc
      simp [tokens_star, ← ih]
    · obtain ⟨t, q, ht, -⟩ := advance_tokens hc p 0
      simp [ht, hc]

theorem alive_nil {p : Bytes} {back : Option (Bytes × Bytes)} (hf : Follows ⟨p, [], back⟩) :
    Alive ⟨p, [], back⟩ ↔ p.all (· == 42) = true := by
  have hempty : Cut Token.accepts (tokens p) [] ↔ ∀ i ∈ tokens p, i = .star := cut_empty
  rw [all_stars_iff, ← hempty]
  refine or_iff_left ?_
  rintro ⟨q, mark, hb, later, hl, hlt, hc⟩
  obtain ⟨_, u, hu, hfree, hlen⟩ := hf q mark hb
  rw [hu] at hc
  refine not_cut_of_short hfree ?_ hc
  simp only [List.length_nil] at hlen
  omega

theorem scan_alive {fuel : Nat} {l : Left} {b : Bool} (hf : Follows l) (hplain : Plain l)
    (h : scan fuel l = some b) : b = true ↔ Alive l := by
  induction fuel generalizing l with
  | zero => cases h
  | succ fuel ih =>
    obtain ⟨p, s, back⟩ := l
    cases s with
    | nil =>
      rw [scan_nil] at h
      cases h
      exact (alive_nil hf).symm
    | cons y s =>
      rw [scan_cons] at h
      obtain ⟨hstep, hdead⟩ | ⟨next, hstep, hf', hplain', halive⟩ | ⟨p', hstep, hmem, hdead⟩ := step_alive hf hplain
      · rw [hstep] at h
        cases h
        simp [hdead]
      · rw [hstep] at h
        rw [halive]
        exact ih hf' hplain' h
      · rw [hstep] at h
        cases fuel with
        | zero => cases h
        | succ fuel =>
          have hall : p'.all (· == 42) = false := by
            rw [List.all_eq_false]
            exact ⟨93, hmem, by decide⟩
          have hb : some (p'.all (· == 42)) = some b := h
          rw [hall] at hb
          cases hb
          simp [hdead]

/-- The loop that only remembers the last star agrees with the exhaustive
matcher, as long as no bracket stands before the end of the name. -/
theorem globMatch_iff_cut (pattern : Bytes) {name : Bytes} (hname : 91 ∉ name.dropLast) :
    globMatch pattern name = true ↔ Cut Token.accepts (tokens pattern) name := by
  have hf : Follows ⟨pattern, name, none⟩ := by rintro q mark ⟨⟩
  have hplain : Plain ⟨pattern, name, none⟩ := ⟨hname, by rintro q mark ⟨⟩⟩
  have halive : Alive ⟨pattern, name, none⟩ ↔ Cut Token.accepts (tokens pattern) name := by
    refine or_iff_left ?_
    rintro ⟨q, mark, ⟨⟩, _⟩
  obtain ⟨fuel, h⟩ := scan_globMatch pattern name
  rw [← halive]
  exact scan_alive hf hplain h

/-- `GlobMatch` is complete: it finds a way to cut the name whenever there is
one. -/
theorem globMatch_complete (pattern : Bytes) {name : Bytes} (hname : 91 ∉ name) :
    globMatch pattern name = true ↔ Cut Token.accepts (tokens pattern) name :=
  globMatch_iff_cut pattern fun h => hname (List.mem_of_mem_dropLast h)

theorem globMatch_complete_stars :
    globMatch (ascii "*b?[a-c]*") (ascii "abbxcd") = true ↔
      Cut Token.accepts (tokens (ascii "*b?[a-c]*")) (ascii "abbxcd") :=
  globMatch_complete (ascii "*b?[a-c]*") (by decide)

def Closed (text : Bytes) (k : CharClass) : Prop := ∃ body, text = 91 :: body ∧ parseClass body = some (k, [])

theorem globMatch_advance {p : Bytes} (hp : p.head? ≠ some 42) (y : UInt8) (s : Bytes) :
    globMatch p (y :: s) = ((advance p y).map fun q => globMatch q s).getD false := by
  cases hadv : advance p y with
  | none =>
    have h : scan 1 ⟨p, y :: s, none⟩ = some false := by simp [scan_cons, step, hp, hadv]
    exact globMatch_eq h
  | some q =>
    obtain ⟨fuel, h⟩ := scan_globMatch q s
    exact globMatch_eq ((scan_advance hp hadv fuel s none).trans h)

theorem advance_class {body rest : Bytes} {k : CharClass} (hk : parseClass body = some (k, rest)) (y : UInt8) :
    advance (91 :: body) y = if k.accepts y then some rest else if y = 91 then some body else none := by
  simp [advance, hk]

/-- What the code does with a class: a bracket that is not in it is taken as a
literal, and then the text of the class is read as a pattern. -/
theorem globMatch_class {body rest : Bytes} {k : CharClass} (hk : parseClass body = some (k, rest)) (y : UInt8)
    (s : Bytes) :
    globMatch (91 :: body) (y :: s) =
      if k.accepts y then globMatch rest s else if y = 91 then globMatch body s else false := by
  rw [globMatch_advance (by simp), advance_class hk]
  split_ifs <;> rfl

theorem scan_with_back {fuel : Nat} {p s : Bytes} (r : Bytes × Bytes) (h : scan fuel ⟨p, s, none⟩ = some true) :
    scan fuel ⟨p, s, some r⟩ = some true := by
  induction fuel generalizing p s with
  | zero => cases h
  | succ fuel ih =>
    cases s with
    | nil => exact h
    | cons y s =>
      rw [scan_cons, step] at h ⊢
      simp only at h ⊢
      split_ifs at h ⊢
      · exact h
      · cases hadv : advance p y with
        | none =>
          rw [hadv] at h
          cases h
        | some q =>
          rw [hadv] at h
          exact ih h

theorem globMatch_star_of_match {p s : Bytes} (h : globMatch p s = true) : globMatch (42 :: p) s = true := by
  obtain ⟨fuel, hs⟩ := scan_globMatch p s
  rw [h] at hs
  cases s with
  | nil =>
    cases fuel with
    | zero => cases hs
    | succ fuel =>
      have h' : scan (fuel + 1) ⟨42 :: p, [], none⟩ = some true := hs
      exact globMatch_eq h'
  | cons y s =>
    exact globMatch_eq ((scan_star fuel p y s none).trans (scan_with_back (p, y :: s) hs))

theorem exists_advance (c : UInt8) (p : Bytes) : ∃ y q, advance (c :: p) y = some q := by
  by_cases h91 : c = 91
  · subst h91
    cases hk : parseClass p with
    | none => exact ⟨91, p, by simp [advance, hk]⟩
    | some r =>
      cases hacc : r.1.accepts 91 with
      | true => exact ⟨91, r.2, by rw [advance_class hk, if_pos hacc]⟩
      | false => exact ⟨91, p, by rw [advance_class hk, hacc]; rfl⟩
  · by_cases h92 : c = 92
    · subst h92
      cases p with
      | nil => exact ⟨92, [], rfl⟩
      | cons x p => exact ⟨x, p, by simp [advance]⟩
    · by_cases h63 : c = 63
      · exact ⟨c, p, by simp [advance, h63]⟩
      · exact ⟨c, p, by simp [advance, h92, h63, h91]⟩

/-- Every pattern matches some name, as every bracket may be a literal. -/
theorem exists_globMatch (p : Bytes) : ∃ s, globMatch p s = true := by
  induction hn : p.length using Nat.strong_induction_on generalizing p with
  | _ n ih =>
    cases p with
    | nil => exact ⟨[], rfl⟩
    | cons c p =>
      by_cases hc : c = 42
      · obtain ⟨s, hs⟩ := ih p.length (by rw [← hn]; exact Nat.lt_succ_self _) p rfl
        exact ⟨s, hc ▸ globMatch_star_of_match hs⟩
      · obtain ⟨y, q, hadv⟩ := exists_advance c p
        obtain ⟨s, hs⟩ := ih q.length (by rw [← hn]; exact advance_length hadv) q rfl
        refine ⟨y :: s, ?_⟩
        rw [globMatch_advance (by simpa using hc), hadv]
        exact hs

theorem scan_anything (s : Bytes) : ∃ fuel, scan fuel ⟨[], s, some ([], s)⟩ = some true := by
  induction s with
  | nil => exact ⟨1, rfl⟩
  | cons y s ih =>
    obtain ⟨fuel, h⟩ := ih
    exact ⟨fuel + 1, h⟩

theorem scan_last_star (s : Bytes) (back : Option (Bytes × Bytes)) : ∃ fuel, scan fuel ⟨[42], s, back⟩ = some true := by
  cases s with
  | nil => exact ⟨1, rfl⟩
  | cons y s =>
    obtain ⟨fuel, h⟩ := scan_anything (y :: s)
    exact ⟨fuel + 1, h⟩

/-- The text of a class of three empty ranges. From its second bracket on it
reads as a class of all bytes. -/
def emptyRanges : Bytes := [91, 45, 45, 255, 45, 0, 45, 45, 0, 93]

def noByte : CharClass := ⟨false, [.range 91 45, .range 255 0, .range 45 0]⟩

def everyByte : CharClass := ⟨false, [.range 45 255, .byte 45, .range 0 45, .byte 0]⟩

theorem parse_emptyRanges (r : Bytes) : parseClass (emptyRanges ++ r) = some (noByte, r) := by
  have h : parseClass emptyRanges = some (noByte, []) := by decide
  exact parseClass_append h r

theorem parse_emptyRanges_tail (r : Bytes) : parseClass (emptyRanges.tail ++ r) = some (everyByte, r) := by
  have h : parseClass emptyRanges.tail = some (everyByte, []) := by decide
  exact parseClass_append h r

theorem noByte_rejects (y : UInt8) : noByte.accepts y = false := by
  simp only [noByte, CharClass.accepts, Member.has, List.any_cons, List.any_nil, UInt8.le_iff_toNat_le]
  simp
  omega

theorem everyByte_accepts (y : UInt8) : everyByte.accepts y = true := by
  have hy := y.toNat_lt
  simp only [everyByte, CharClass.accepts, Member.has, List.any_cons, List.any_nil, UInt8.le_iff_toNat_le]
  simp
  omega

theorem scan_emptyRanges {u : Bytes} (hu : 91 ∉ u) (x : UInt8) (w : Bytes) :
    ∃ fuel, scan fuel ⟨91 :: emptyRanges ++ [42], u ++ 91 :: x :: w,
      some (91 :: emptyRanges ++ [42], u ++ 91 :: x :: w)⟩ = some true := by
  have hclass : ∀ y, advance (91 :: emptyRanges ++ [42]) y = if y = 91 then some (emptyRanges ++ [42]) else none := by
    intro y
    rw [List.cons_append, advance_class (parse_emptyRanges [42]), noByte_rejects]
    rfl
  have hinner : ∀ y, advance (emptyRanges ++ [42]) y = some [42] := by
    intro y
    exact (advance_class (parse_emptyRanges_tail [42]) y).trans (if_pos (everyByte_accepts y))
  induction u with
  | nil =>
    obtain ⟨fuel, h⟩ := scan_last_star w (some (91 :: emptyRanges ++ [42], 91 :: x :: w))
    refine ⟨fuel + 2, ?_⟩
    rw [List.nil_append, scan_advance (by simp) (hclass 91), scan_advance (by simp [emptyRanges]) (hinner x)]
    exact h
  | cons b u ih =>
    obtain ⟨fuel, h⟩ := ih (List.not_mem_of_not_mem_cons hu)
    refine ⟨fuel + 1, ?_⟩
    have hb : b ≠ 91 := fun hb => hu (hb ▸ List.mem_cons_self)
    exact (scan_back (by simp) ((hclass b).trans (if_neg hb)) fuel _ _).trans h

/-- A class at the head of a pattern takes a member, and the pattern goes on. -/
def HeadComposes (text : Bytes) (k : CharClass) (c : UInt8) : Prop :=
  ∀ r t, globMatch (text ++ r) (c :: t) = true ↔ k.accepts c = true ∧ globMatch r t = true

/-- A class behind a star takes a member anywhere in the name. -/
def StarComposes (text : Bytes) (k : CharClass) (n : Bytes) : Prop :=
  ∀ r, globMatch (42 :: (text ++ r)) n = true ↔
    ∃ u c t, n = u ++ c :: t ∧ k.accepts c = true ∧ globMatch r t = true

theorem headComposes_iff {text : Bytes} {k : CharClass} (hk : Closed text k) (c : UInt8) :
    HeadComposes text k c ↔ (c = 91 → k.accepts 91 = true) := by
  obtain ⟨body, rfl, hk⟩ := hk
  constructor
  · rintro h rfl
    obtain ⟨t, ht⟩ := exists_globMatch body
    by_contra hacc
    have hlit := globMatch_class hk 91 t
    rw [if_neg hacc, if_pos rfl, ht] at hlit
    refine hacc ((h [] t).mp ?_).1
    rwa [List.append_nil]
  · intro h r t
    rw [List.cons_append, globMatch_class (parseClass_append hk r) c t, List.nil_append]
    by_cases hacc : k.accepts c = true
    · simp [hacc]
    · have hc : c ≠ 91 := fun hc => hacc (hc ▸ h hc)
      simp [hacc, hc]

theorem starComposes_of_plain {text : Bytes} {k : CharClass} (hk : Closed text k) {n : Bytes} (hn : 91 ∉ n.dropLast) :
    StarComposes text k n := by
  obtain ⟨body, rfl, hk⟩ := hk
  intro r
  rw [globMatch_iff_cut _ hn, tokens_star, List.cons_append, tokens_class (parseClass_append hk r), List.nil_append,
    cut_star]
  constructor
  · rintro ⟨rest, ⟨u, rfl⟩, hc⟩
    cases rest with
    | nil => exact absurd hc not_cut_one_nil
    | cons c t =>
      obtain ⟨hacc, hc⟩ := cut_one_cons.mp hc
      have ht : 91 ∉ t.dropLast := dropLast_suffix ((List.suffix_cons c t).trans (List.suffix_append u _)) hn
      exact ⟨u, c, t, rfl, hacc, (globMatch_iff_cut r ht).mpr hc⟩
  · rintro ⟨u, c, t, rfl, hacc, hr⟩
    have ht : 91 ∉ t.dropLast := dropLast_suffix ((List.suffix_cons c t).trans (List.suffix_append u _)) hn
    exact ⟨c :: t, List.suffix_append u _, cut_one_cons.mpr ⟨hacc, (globMatch_iff_cut r ht).mp hr⟩⟩

theorem exists_first_bracket {n : Bytes} (hn : 91 ∈ n.dropLast) : ∃ u x w, 91 ∉ u ∧ n = u ++ 91 :: x :: w := by
  induction n with
  | nil => cases hn
  | cons b n ih =>
    cases n with
    | nil => cases hn
    | cons x w =>
      by_cases hb : b = 91
      · exact ⟨[], x, w, by simp, by rw [hb]; rfl⟩
      · have hmem : 91 ∈ (x :: w).dropLast := (List.mem_cons.mp hn).resolve_left (Ne.symm hb)
        obtain ⟨u, x', w', hu, heq⟩ := ih hmem
        exact ⟨b :: u, x', w', by simp [hu, Ne.symm hb], by rw [heq]; rfl⟩

theorem closed_emptyRanges : Closed (91 :: emptyRanges) noByte := ⟨emptyRanges, rfl, by decide⟩

theorem starComposes_iff (n : Bytes) :
    (∀ text k, Closed text k → StarComposes text k n) ↔ 91 ∉ n.dropLast := by
  constructor
  · intro h hn
    obtain ⟨u, x, w, hu, rfl⟩ := exists_first_bracket hn
    obtain ⟨fuel, hs⟩ := scan_emptyRanges hu x w
    have hmatch : globMatch (42 :: (91 :: emptyRanges ++ [42])) (u ++ 91 :: x :: w) = true := by
      cases u with
      | nil => exact globMatch_eq ((scan_star fuel _ 91 (x :: w) none).trans hs)
      | cons b u => exact globMatch_eq ((scan_star fuel _ b (u ++ 91 :: x :: w) none).trans hs)
    obtain ⟨_, c, _, _, hacc, _⟩ := (h _ _ closed_emptyRanges [42]).mp hmatch
    rw [noByte_rejects] at hacc
    cases hacc
  · exact fun hn text k hk => starComposes_of_plain hk hn

/-- A closed class composes with what follows it: never with the empty name;
at the head of a pattern if and only if the byte is no bracket or the bracket
is in the class; and behind a star, for every class, if and only if the name
has no bracket before its end. -/
theorem class_composes_iff (c : UInt8) (n : Bytes) :
    (∀ text k r, Closed text k → globMatch (text ++ r) [] = false) ∧
      (∀ text k, Closed text k → (HeadComposes text k c ↔ (c = 91 → k.accepts 91 = true))) ∧
      ((∀ text k, Closed text k → StarComposes text k n) ↔ 91 ∉ n.dropLast) := by
  refine ⟨?_, fun text k hk => headComposes_iff hk c, starComposes_iff n⟩
  rintro text k r ⟨body, rfl, -⟩
  have h : scan 1 ⟨91 :: body ++ r, [], none⟩ = some false := rfl
  exact globMatch_eq h

/-- The pattern `[a]` matches its own text, though the bracket is not in the
class. -/
theorem class_matches_itself :
    Closed (ascii "[a]") ⟨false, [.byte 97]⟩ ∧ CharClass.accepts ⟨false, [.byte 97]⟩ 91 = false ∧
      globMatch (ascii "[a]") (ascii "[a]") = true :=
  ⟨⟨ascii "a]", by decide, by decide⟩, by decide, by decide +kernel⟩

end MemX.StoreGlobMatch
