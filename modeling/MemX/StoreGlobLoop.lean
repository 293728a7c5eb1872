import MemX.GlobTokens

namespace MemX.StoreGlobLoop

open DecimalText StoreGlob WildMatch GlobTokens

/-- What the member loop returns for the text that is left: the verdict and
the index behind the class, if it is closed. -/
def verdict (n pos : Nat) (ch : UInt8) (negate matched : Bool) (o : Option (List Member × Bytes)) : Bool × Nat :=
  (o.map fun r => ((matched || r.1.any (Member.has ch)) != negate, n - r.2.length)).getD (false, pos + 1)

theorem verdict_addMember (n pos : Nat) (ch : UInt8) (negate matched : Bool) (m : Member)
    (o : Option (List Member × Bytes)) :
    verdict n pos ch negate matched (o.map (addMember m)) = verdict n pos ch negate (matched || m.has ch) o := by
  cases o with
  | none => rfl
  | some r => simp [verdict, addMember, Bool.or_assoc]

theorem drop_cons {l : Bytes} {i : Nat} (hi : i < l.length) : ∃ c, l[i]? = some c ∧ l.drop i = c :: l.drop (i + 1) :=
  ⟨l[i], List.getElem?_eq_getElem hi, List.drop_eq_getElem_cons hi⟩

theorem classLoop_eq (pattern : Bytes) (pos : Nat) (ch : UInt8) (negate : Bool) {fuel i : Nat} (matched : Bool)
    (hi : i ≤ pattern.length) (hf : pattern.length - i < fuel) :
    classLoop pattern pos ch negate fuel i matched =
      some (verdict pattern.length pos ch negate matched (parseMembers (pattern.drop i))) := by
  induction fuel generalizing i matched with
  | zero => omega
  | succ fuel ih =>
    rw [classLoop]
    by_cases hlt : i < pattern.length
    · obtain ⟨c, hc, hdrop⟩ := drop_cons hlt
      simp only [if_pos hlt, hc, hdrop, Option.bind_eq_bind, Option.bind_some]
      by_cases h93 : c = 93
      · subst h93
        have hlen : pattern.length - (pattern.drop (i + 1)).length = i + 1 := by
          rw [List.length_drop]
          omega
        rw [if_pos rfl, parseMembers_close]
        simp only [verdict, Option.map_some, Option.getD_some, hlen, List.any_nil, Bool.or_false]
        cases negate <;> cases matched <;> rfl
      · rw [if_neg h93]
        by_cases hesc : c = 92 ∧ i + 1 < pattern.length
        · obtain ⟨x, hx, hdrop'⟩ := drop_cons hesc.2
          rw [if_pos hesc, hx, Option.bind_some, ih _ (by omega) (by omega), hdrop', hesc.1, parseMembers_escape,
            verdict_addMember]
          rfl
        · have hstep : parseMembers (c :: pattern.drop (i + 1)) =
                (parseMembers (pattern.drop (i + 1))).map (addMember (.byte c)) →
              classLoop pattern pos ch negate fuel (i + 1) (matched || ch == c) =
                some (verdict pattern.length pos ch negate matched (parseMembers (c :: pattern.drop (i + 1)))) := by
            intro hbyte
            rw [ih _ (by omega) (by omega), hbyte, verdict_addMember]
            rfl
          rw [if_neg hesc]
          by_cases hthree : i + 2 < pattern.length
          · obtain ⟨d, hd, hdrop₁⟩ := drop_cons (show i + 1 < pattern.length by omega)
            obtain ⟨e, he, hdrop₂⟩ := drop_cons hthree
            have h92 : c ≠ 92 := fun h => hesc ⟨h, by omega⟩
            simp only [if_pos hthree, hd, he, Option.bind_some]
            by_cases hrange : d = 45 ∧ e ≠ 93
            · rw [if_pos (by simp [hrange]), ih _ (by omega) (by omega), hdrop₁, hdrop₂, hrange.1,
                parseMembers_range h93 h92 hrange.2, verdict_addMember]
              rfl
            · rw [if_neg (by simpa using hrange)]
              refine hstep (parseMembers_byte h93 h92 fun f r hr => ?_)
              rw [hdrop₁, hdrop₂] at hr
              simp only [List.cons.injEq] at hr
              exact not_not.mp fun hf => hrange ⟨hr.1, hr.2.1 ▸ hf⟩
          · simp only [if_neg hthree, Bool.false_eq_true, ↓reduceIte]
            refine hstep ?_
            by_cases h92 : c = 92
            · have hnil : pattern.drop (i + 1) = [] := List.drop_eq_nil_of_le (not_lt.mp fun h => hesc ⟨h92, h⟩)
              rw [hnil, h92]
              rfl
            · refine parseMembers_byte h93 h92 fun f r hr => ?_
              have hlen := congrArg List.length hr
              simp only [List.length_drop, List.length_cons] at hlen
              omega
    · have hnil : pattern.drop i = [] := List.drop_eq_nil_of_le (by omega)
      rw [if_neg hlt, hnil]
      rfl

theorem matchClass_eq (pattern : Bytes) (pos : Nat) (hpos : pos < pattern.length) (ch : UInt8) :
    matchClass pattern pos ch = some (((parseClass (pattern.drop (pos + 1))).map fun r =>
      (r.1.accepts ch, pattern.length - r.2.length)).getD (false, pos + 1)) := by
  unfold matchClass
  by_cases hlt : pos + 1 < pattern.length
  · obtain ⟨c, hc, hdrop⟩ := drop_cons hlt
    rw [if_neg (by omega), hc, hdrop, parseClass]
    simp only [Option.bind_eq_bind, Option.bind_some]
    by_cases hneg : c = 94 ∨ c = 33
    · have hb : (c == 94 || c == 33) = true := by simpa using hneg
      rw [hb, if_pos rfl, if_pos hneg, classLoop_eq pattern pos ch true false (by omega) (by omega)]
      cases parseMembers (pattern.drop (pos + 1 + 1)) <;> rfl
    · have hb : (c == 94 || c == 33) = false := by simpa using hneg
      rw [hb, if_neg Bool.false_ne_true, if_neg hneg, classLoop_eq pattern pos ch false false (by omega) (by omega),
        hdrop]
      cases parseMembers (c :: pattern.drop (pos + 1 + 1)) <;> rfl
  · have hnil : pattern.drop (pos + 1) = [] := List.drop_eq_nil_of_le (by omega)
    rw [if_pos (by omega), hnil]
    rfl

/-- One step of the matcher on what is left of the pattern, which does not
begin with a star, and the next byte of the name. A class that does not take
the byte may still be read as a literal bracket. -/
def advance : Bytes → UInt8 → Option Bytes
  | [], _ => none
  | c :: rest, y =>
    if c = 92 ∧ rest ≠ [] then if rest.head? = some y then some rest.tail else none
    else if c = 63 then some rest
    else if c = 91 then
      match parseClass rest with
      | some (k, rest') => if k.accepts y then some rest' else if y = 91 then some rest else none
      | none => if y = 91 then some rest else none
    else if c = y then some rest else none

/-- What is left of the pattern and of the name, and what to go back to: the
pattern behind the last star, and the name from where that star was tried. -/
structure Left where
  pattern : Bytes
  name : Bytes
  back : Option (Bytes × Bytes)

def step (l : Left) (y : UInt8) (rest : Bytes) : Option Left :=
  if l.pattern.head? = some 42 then some ⟨l.pattern.tail, l.name, some (l.pattern.tail, l.name)⟩
  else
    match advance l.pattern y with
    | some p => some ⟨p, rest, l.back⟩
    | none => l.back.map fun r => ⟨r.1, r.2.tail, some (r.1, r.2.tail)⟩

def scan : Nat → Left → Option Bool
  | 0, _ => none
  | fuel + 1, l =>
    match l.name with
    | [] => some (l.pattern.all (· == 42))
    | y :: rest =>
      match step l y rest with
      | some next => scan fuel next
      | none => some false

theorem trailing_eq (pattern : Bytes) {pi : Nat} (hpi : pi ≤ pattern.length) :
    trailing pattern pi = (pattern.drop pi).all (· == 42) := by
  have hlen : pi + (pattern.drop pi).length = pattern.length := by
    rw [List.length_drop]
    omega
  rw [trailing, ← hlen, Bool.eq_iff_iff, beq_iff_eq, List.all_eq_true, ← List.takeWhile_eq_self_iff]
  constructor
  · intro h
    exact (List.takeWhile_prefix _).eq_of_length (by omega)
  · intro h
    rw [h]

theorem tryMatch_eq (pattern name : Bytes) (st : Scan) {y : UInt8} (hy : name[st.si]? = some y)
    (hpi : st.pi ≤ pattern.length) :
    ((pattern.drop st.pi).head? = some 42 ∧
      tryMatch pattern name st = some (some ⟨st.pi + 1, st.si, some st.pi, st.si⟩) ∧ st.pi < pattern.length) ∨
    ((pattern.drop st.pi).head? ≠ some 42 ∧
      ((advance (pattern.drop st.pi) y = none ∧ tryMatch pattern name st = some none) ∨
      ∃ next ≤ pattern.length, advance (pattern.drop st.pi) y = some (pattern.drop next) ∧
        tryMatch pattern name st = some (some (st.both next)))) := by
  unfold tryMatch
  by_cases hlt : st.pi < pattern.length
  · obtain ⟨c, hc, hdrop⟩ := drop_cons hlt
    simp only [if_pos hlt, hc, hdrop, hy, Option.bind_eq_bind, Option.bind_some, List.head?_cons, Option.some.injEq,
      ne_eq]
    by_cases hesc : c = 92 ∧ st.pi + 1 < pattern.length
    · obtain ⟨x, hx, hdrop'⟩ := drop_cons hesc.2
      have hne : c ≠ 42 := by
        rw [hesc.1]
        decide
      refine .inr ⟨hne, ?_⟩
      rw [if_pos hesc, hx, hdrop', advance, if_pos ⟨hesc.1, by simp⟩]
      simp only [List.head?_cons, Option.some.injEq, List.tail_cons, Option.bind_some]
      by_cases hxy : x = y
      · rw [if_pos hxy, if_pos hxy]
        exact .inr ⟨st.pi + 2, hesc.2, rfl, rfl⟩
      · rw [if_neg hxy, if_neg hxy]
        exact .inl ⟨rfl, rfl⟩
    · have hesc' : ¬ (c = 92 ∧ pattern.drop (st.pi + 1) ≠ []) := by
        rintro ⟨h92, hrest⟩
        exact hesc ⟨h92, not_le.mp fun hle => hrest (List.drop_eq_nil_of_le hle)⟩
      rw [if_neg hesc]
      by_cases h42 : c = 42
      · subst h42
        exact .inl ⟨rfl, rfl, hlt⟩
      · refine .inr ⟨h42, ?_⟩
        rw [advance, if_neg hesc']
        by_cases h63 : c = 63
        · rw [if_pos h63, if_pos h63]
          exact .inr ⟨st.pi + 1, hlt, rfl, rfl⟩
        · rw [if_neg h63, if_neg h63]
          by_cases h91 : c = 91
          · rw [if_pos h91, if_pos h91, matchClass_eq pattern st.pi hlt]
            cases hk : parseClass (pattern.drop (st.pi + 1)) with
            | none =>
              simp only [Option.map_none, Option.getD_none, Option.bind_some, Bool.false_eq_true, ↓reduceIte]
              by_cases hy91 : y = 91
              · rw [if_pos hy91, if_pos hy91]
                exact .inr ⟨st.pi + 1, hlt, rfl, rfl⟩
              · rw [if_neg hy91, if_neg hy91]
                exact .inl ⟨rfl, rfl⟩
            | some r =>
              have hrest : pattern.drop (pattern.length - r.2.length) = r.2 :=
                (List.suffix_iff_eq_drop.mp ((parseClass_suffix hk).trans (List.drop_suffix _ _))).symm
              simp only [Option.map_some, Option.getD_some, Option.bind_some]
              by_cases hacc : r.1.accepts y = true
              · rw [if_pos hacc, if_pos hacc]
                exact .inr ⟨pattern.length - r.2.length, Nat.sub_le _ _, by rw [hrest], rfl⟩
              · rw [if_neg hacc, if_neg hacc]
                by_cases hy91 : y = 91
                · rw [if_pos hy91, if_pos hy91]
                  exact .inr ⟨st.pi + 1, hlt, rfl, rfl⟩
                · rw [if_neg hy91, if_neg hy91]
                  exact .inl ⟨rfl, rfl⟩
          · rw [if_neg h91, if_neg h91, if_neg h42]
            by_cases hcy : c = y
            · rw [if_pos hcy, if_pos hcy]
              exact .inr ⟨st.pi + 1, hlt, rfl, rfl⟩
            · rw [if_neg hcy, if_neg hcy]
              exact .inl ⟨rfl, rfl⟩
  · have hnil : pattern.drop st.pi = [] := List.drop_eq_nil_of_le (by omega)
    rw [if_neg hlt, hnil]
    exact .inr ⟨by simp, .inl ⟨rfl, rfl⟩⟩

def Scan.left (pattern name : Bytes) (st : Scan) : Left :=
  ⟨pattern.drop st.pi, name.drop st.si, st.star.map fun k => (pattern.drop (k + 1), name.drop st.mark)⟩

theorem scan_nil (fuel : Nat) (p : Bytes) (back : Option (Bytes × Bytes)) :
    scan (fuel + 1) ⟨p, [], back⟩ = some (p.all (· == 42)) := rfl

theorem scan_cons (fuel : Nat) (p : Bytes) (y : UInt8) (rest : Bytes) (back : Option (Bytes × Bytes)) :
    scan (fuel + 1) ⟨p, y :: rest, back⟩ = ((step ⟨p, y :: rest, back⟩ y rest).map (scan fuel)).getD (some false) := by
  rw [scan]
  simp only
  cases step ⟨p, y :: rest, back⟩ y rest <;> rfl

theorem scan_star (fuel : Nat) (p : Bytes) (y : UInt8) (s : Bytes) (back : Option (Bytes × Bytes)) :
    scan (fuel + 1) ⟨42 :: p, y :: s, back⟩ = scan fuel ⟨p, y :: s, some (p, y :: s)⟩ := rfl

theorem scan_advance {p q : Bytes} {y : UInt8} (hp : p.head? ≠ some 42) (h : advance p y = some q) (fuel : Nat)
    (s : Bytes) (back : Option (Bytes × Bytes)) :
    scan (fuel + 1) ⟨p, y :: s, back⟩ = scan fuel ⟨q, s, back⟩ := by
  rw [scan_cons, step, if_neg hp, h]
  rfl

theorem scan_back {p : Bytes} {y : UInt8} (hp : p.head? ≠ some 42) (h : advance p y = none) (fuel : Nat) (s : Bytes)
    (r : Bytes × Bytes) :
    scan (fuel + 1) ⟨p, y :: s, some r⟩ = scan fuel ⟨r.1, r.2.tail, some (r.1, r.2.tail)⟩ := by
  rw [scan_cons, step, if_neg hp, h]
  rfl

theorem globLoop_eq (pattern name : Bytes) (fuel : Nat) (st : Scan) (hpi : st.pi ≤ pattern.length)
    (hstar : ∀ k, st.star = some k → k < pattern.length) :
    globLoop pattern name fuel st = scan fuel (Scan.left pattern name st) := by
  induction fuel generalizing st with
  | zero => rfl
  | succ fuel ih =>
    rw [globLoop]
    by_cases hlt : st.si < name.length
    · obtain ⟨y, hy, hdrop⟩ := drop_cons hlt
      rw [if_pos hlt, Scan.left, hdrop, scan_cons, step]
      obtain ⟨hhead, htry, hpi'⟩ | ⟨hhead, ⟨hadv, htry⟩ | ⟨next, hnext, hadv, htry⟩⟩ :=
        tryMatch_eq pattern name st hy hpi
      · rw [htry, if_pos hhead]
        simp only
        rw [ih ⟨st.pi + 1, st.si, some st.pi, st.si⟩ hpi' (by rintro k ⟨⟩; exact hpi')]
        simp only [Scan.left, List.tail_drop, hdrop, Option.map_some, Option.getD_some]
      · rw [htry, if_neg hhead, hadv]
        cases hs : st.star with
        | none => rfl
        | some k =>
          have hk := hstar k hs
          simp only [Option.map_some, List.tail_drop, Option.getD_some]
          rw [ih ⟨k + 1, st.mark + 1, some k, st.mark + 1⟩ hk (by rintro k' ⟨⟩; exact hk)]
          rfl
      · rw [htry, if_neg hhead, hadv]
        simp only
        rw [ih (st.both next) hnext hstar]
        rfl
    · have hnil : name.drop st.si = [] := List.drop_eq_nil_of_le (by omega)
      rw [if_neg hlt, Scan.left, hnil, trailing_eq pattern hpi]
      rfl

theorem advance_suffix {p p' : Bytes} {y : UInt8} (h : advance p y = some p') : p' <:+ p.tail := by
  cases p with
  | nil => cases h
  | cons c p =>
    rw [advance] at h
    by_cases hesc : c = 92 ∧ p ≠ []
    · rw [if_pos hesc] at h
      split_ifs at h
      cases h
      exact List.tail_suffix p
    · rw [if_neg hesc] at h
      by_cases h91 : c = 91
      · cases hk : parseClass p with
        | none =>
          simp only [h91, hk] at h
          split_ifs at h
          · cases h
            exact List.suffix_rfl
          · cases h
            exact List.suffix_rfl
        | some r =>
          simp only [h91, hk] at h
          split_ifs at h
          · cases h
            exact List.suffix_rfl
          · cases h
            exact parseClass_suffix hk
          · cases h
            exact List.suffix_rfl
      · rw [if_neg h91] at h
        split_ifs at h
        · cases h
          exact List.suffix_rfl
        · cases h
          exact List.suffix_rfl

theorem advance_length {p p' : Bytes} {y : UInt8} (h : advance p y = some p') : p'.length < p.length := by
  have hlen := (advance_suffix h).length_le
  cases p with
  | nil => cases h
  | cons c p => exact Nat.lt_succ_of_le hlen

theorem scan_succ {fuel : Nat} {l : Left} {b : Bool} (h : scan fuel l = some b) : scan (fuel + 1) l = some b := by
  induction fuel generalizing l with
  | zero => cases h
  | succ fuel ih =>
    obtain ⟨p, s, back⟩ := l
    cases s with
    | nil => exact h
    | cons y s =>
      rw [scan_cons] at h ⊢
      cases hs : step ⟨p, y :: s, back⟩ y s with
      | none =>
        rw [hs] at h
        exact h
      | some next =>
        rw [hs] at h
        exact ih h

theorem scan_mono {fuel fuel' : Nat} (hle : fuel ≤ fuel') {l : Left} {b : Bool} (h : scan fuel l = some b) :
    scan fuel' l = some b := by
  induction hle with
  | refl => exact h
  | step _ ih => exact scan_succ ih

theorem scan_unique {fuel fuel' : Nat} {l : Left} {b b' : Bool} (h : scan fuel l = some b)
    (h' : scan fuel' l = some b') : b = b' := by
  have h₁ := scan_mono (Nat.le_max_left fuel fuel') h
  have h₂ := scan_mono (Nat.le_max_right fuel fuel') h'
  exact Option.some.inj (h₁.symm.trans h₂)

def Left.room (l : Left) : Nat := (l.back.map fun r => r.2.length).getD l.name.length

def Left.Within (n : Nat) (l : Left) : Prop :=
  l.pattern.length ≤ n ∧ ∀ r, l.back = some r → r.1.length ≤ n ∧ l.name.length ≤ r.2.length

/-- A step uses up pattern, and going back uses up room. -/
theorem step_decreases {n : Nat} {p s : Bytes} {y : UInt8} {back : Option (Bytes × Bytes)} {next : Left}
    (hw : Left.Within n ⟨p, y :: s, back⟩) (h : step ⟨p, y :: s, back⟩ y s = some next) :
    next.Within n ∧ next.room * (n + 1) + next.pattern.length <
      Left.room ⟨p, y :: s, back⟩ * (n + 1) + p.length := by
  have hroom : s.length + 1 ≤ Left.room ⟨p, y :: s, back⟩ := by
    cases back with
    | none => exact le_rfl
    | some r => exact (hw.2 r rfl).2
  obtain ⟨hp, hback⟩ := hw
  simp only at hp hback
  unfold step at h
  split_ifs at h with hhead
  · cases h
    have htail : p.tail.length < p.length := by
      cases p with
      | nil => cases hhead
      | cons c p => exact Nat.lt_succ_self _
    have hmul := Nat.mul_le_mul_right (n + 1) hroom
    refine ⟨⟨by simp only; omega, ?_⟩, ?_⟩
    · rintro r ⟨⟩
      exact ⟨by simp only; omega, le_rfl⟩
    · simp only [Left.room, Option.map_some, Option.getD_some, List.length_cons] at hmul ⊢
      omega
  · cases hadv : advance p y with
    | some p' =>
      rw [hadv] at h
      cases h
      have hlen := advance_length hadv
      refine ⟨⟨by simp only; omega, fun r hr => ⟨(hback r hr).1, ?_⟩⟩, ?_⟩
      · exact Nat.le_of_succ_le (hback r hr).2
      · have hle : Left.room ⟨p', s, back⟩ ≤ Left.room ⟨p, y :: s, back⟩ := by
          cases back with
          | none => exact Nat.le_succ _
          | some r => exact le_rfl
        have hmul := Nat.mul_le_mul_right (n + 1) hle
        simp only
        omega
    | none =>
      rw [hadv] at h
      cases back with
      | none => cases h
      | some r =>
        cases h
        obtain ⟨hq, hmark⟩ := hback r rfl
        have htail : r.2.tail.length + 1 = r.2.length := by
          rw [List.length_tail]
          simp only [List.length_cons] at hmark
          omega
        refine ⟨⟨hq, ?_⟩, ?_⟩
        · rintro r' ⟨⟩
          exact ⟨hq, le_rfl⟩
        · simp only [Left.room, Option.map_some, Option.getD_some, ← htail, Nat.succ_mul]
          omega

theorem scan_total {n fuel : Nat} {l : Left} (hw : l.Within n) (hf : l.room * (n + 1) + l.pattern.length < fuel) :
    ∃ b, scan fuel l = some b := by
  induction fuel generalizing l with
  | zero => omega
  | succ fuel ih =>
    obtain ⟨p, s, back⟩ := l
    cases s with
    | nil => exact ⟨_, rfl⟩
    | cons y s =>
      rw [scan_cons]
      cases hs : step ⟨p, y :: s, back⟩ y s with
      | none => exact ⟨_, rfl⟩
      | some next =>
        obtain ⟨hw', hlt⟩ := step_decreases hw hs
        exact ih hw' (by simp only at hf; omega)

theorem fuel_enough (pattern name : Bytes) :
    name.length * (pattern.length + 1) + pattern.length < (name.length + 1) * (pattern.length + name.length + 2) := by
  have hle : pattern.length + 1 ≤ pattern.length + name.length + 2 := by omega
  have hmul := Nat.mul_le_mul_left (name.length + 1) hle
  rw [Nat.succ_mul] at hmul
  omega

theorem globLoop_start (pattern name : Bytes) (fuel : Nat) :
    globLoop pattern name fuel ⟨0, 0, none, 0⟩ = scan fuel ⟨pattern, name, none⟩ :=
  globLoop_eq pattern name fuel ⟨0, 0, none, 0⟩ (Nat.zero_le _) (by rintro k ⟨⟩)

theorem scan_start_total (pattern name : Bytes) :
    ∃ b, scan ((name.length + 1) * (pattern.length + name.length + 2)) ⟨pattern, name, none⟩ = some b :=
  scan_total (l := ⟨pattern, name, none⟩) ⟨le_rfl, by rintro r ⟨⟩⟩ (fuel_enough pattern name)

theorem scan_globMatch (pattern name : Bytes) :
    ∃ fuel, scan fuel ⟨pattern, name, none⟩ = some (globMatch pattern name) := by
  obtain ⟨b, hb⟩ := scan_start_total pattern name
  refine ⟨_, hb.trans (congrArg some ?_)⟩
  rw [globMatch, globLoop_start]
  exact (congrArg (·.getD false) hb).symm

theorem globMatch_eq {fuel : Nat} {pattern name : Bytes} {b : Bool}
    (h : scan fuel ⟨pattern, name, none⟩ = some b) : globMatch pattern name = b := by
  obtain ⟨fuel', h'⟩ := scan_globMatch pattern name
  exact scan_unique h' h

theorem matchClass_within {pattern : Bytes} {pos : Nat} (hpos : pos < pattern.length) (ch : UInt8) :
    ∃ ok next, matchClass pattern pos ch = some (ok, next) ∧ pos < next ∧ next ≤ pattern.length := by
  rw [matchClass_eq pattern pos hpos]
  cases hk : parseClass (pattern.drop (pos + 1)) with
  | none => exact ⟨false, pos + 1, rfl, Nat.lt_succ_self pos, hpos⟩
  | some r =>
    have hlen := parseClass_length hk
    rw [List.length_drop] at hlen
    exact ⟨_, _, rfl, by omega, Nat.sub_le _ _⟩

/-- The loop of `globMatch` ends, by its own bound and by any larger one, and
neither it nor a class it reads from a bracket indexes outside of its text. -/
theorem globMatch_ends (pattern name : Bytes) :
    (∃ b, ∀ fuel, (name.length + 1) * (pattern.length + name.length + 2) ≤ fuel →
      globLoop pattern name fuel ⟨0, 0, none, 0⟩ = some b) ∧
      ∀ pos ch, pattern[pos]? = some 91 →
        ∃ ok next, matchClass pattern pos ch = some (ok, next) ∧ pos < next ∧ next ≤ pattern.length := by
  constructor
  · obtain ⟨b, hb⟩ := scan_start_total pattern name
    refine ⟨b, fun fuel hfuel => ?_⟩
    rw [globLoop_start]
    exact scan_mono hfuel hb
  · intro pos ch hpos
    obtain ⟨hlt, -⟩ := List.getElem?_eq_some_iff.mp hpos
    exact matchClass_within hlt ch

/-- A class that is never closed, read from its bracket. -/
theorem open_class_ends : ([91, 94] : Bytes)[0]? = some 91 ∧
    ∃ ok next, matchClass [91, 94] 0 120 = some (ok, next) ∧ 0 < next ∧ next ≤ ([91, 94] : Bytes).length :=
  ⟨rfl, (globMatch_ends [91, 94] [120]).2 0 120 rfl⟩

end MemX.StoreGlobLoop
